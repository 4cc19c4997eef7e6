import Mathlib
import EggScrambler.HonestWorld

/-!
# The result of an honest round

In an honest round the fully decrypted values are the prepared messages of the participants in some
order, and all hashes match.  A prepared message that is shorter than the maximum is read as header
and message; then nobody is accused, and the result has the messages that are not empty.  If
`MessageSize` is 0, the header alone has the maximum size and its padding is lost: the client
panics.
-/

namespace EggScrambler

open StateMachine Transition BigEndian

/-! ## What is submitted -/

namespace Plan

variable (plan : Plan) (mo : Crypto) (id : UUID) (r : ℤ)

/-- The random bytes of the header that a participant submits. -/
def header : Nonce :=
  if (plan.message id r).length ≤ mo.messageSize then plan.nonce id r else plan.nonce₂ id r

/-- The message that it submits: the empty one if the user's is too long. -/
def text : Bytes := if (plan.message id r).length ≤ mo.messageSize then plan.message id r else []

theorem sent_eq : plan.sent mo id r =
    Client.messageWithHeader (plan.header mo id r) (plan.text mo id r) := by
  unfold sent Client.sent header text
  split_ifs <;> rfl

theorem length_text_le : (plan.text mo id r).length ≤ mo.messageSize := by
  unfold text
  split_ifs with h
  · exact h
  · exact Nat.zero_le _

/-- Unless the user's message has exactly the size, the submitted one has not. -/
theorem length_text_ne {size : ℕ} (h₀ : size ≠ 0) (h : (plan.message id r).length ≠ size) :
    (plan.text mo id r).length ≠ size := by
  unfold text
  split_ifs
  · exact h
  · exact h₀.symm

theorem length_sent : (plan.sent mo id r).length = 16 + (plan.text mo id r).length := by
  rw [sent_eq, Client.length_messageWithHeader]

theorem marked_sent : Marked (plan.sent mo id r) := by
  rw [sent_eq]
  constructor
  · rw [Client.length_messageWithHeader]
    omega
  · intro i hi
    rw [Client.messageWithHeader, Client.messageHeader, List.append_assoc,
      List.getElem?_append_left (by simpa using hi), List.getElem?_replicate_of_lt hi]

/-- Headers and messages, of the participants whose message is not empty. -/
theorem entries_sent (ids : List UUID) : entries (ids.map fun id => plan.sent mo id r) =
    (ids.filter fun id => plan.text mo id r ≠ []).map fun id =>
      (Client.messageHeader (plan.header mo id r), plan.text mo id r) := by
  have hlen : ∀ n, (Client.messageHeader n).length = 16 := fun n => by simp [Client.messageHeader]
  unfold entries
  rw [List.filter_map, List.map_map]
  congr 1
  · funext id
    simp [sent_eq, Client.messageWithHeader, List.take_left' (hlen _), List.drop_left' (hlen _)]
  · congr 1
    funext id
    simp [sent_eq, List.length_pos_iff]

end Plan

theorem Client.messageHeader_injective : Function.Injective messageHeader := by
  intro a b h
  exact Vector.toList_inj.1 (List.append_cancel_left h)

/-! ## What is read -/

section Read

variable {plan : Plan} {mo : Crypto} {id : UUID} {r : ℤ}

/-- A prepared message below the maximum is read back. -/
theorem text_prepared
    (h : (plan.sent mo id r).length < MasseyOmura.bytesMaxSize (Nat.size mo.getP)) :
    (newMsg (plan.prepared mo id r)).Readable ∧
      (newMsg (plan.prepared mo id r)).text = plan.sent mo id r := by
  have hx := MasseyOmura.extractMsg_of_lt h
  rw [MasseyOmura.extractMsg, MasseyOmura.unPad_eq] at hx
  split_ifs at hx with hzero
  rw [Msg.Readable, Msg.text, getM_newMsg]
  exact ⟨hzero, Except.ok.inj hx⟩

/-- One of the maximum size is cut. -/
theorem length_text_prepared_lt
    (h : (plan.sent mo id r).length = MasseyOmura.bytesMaxSize (Nat.size mo.getP))
    (hread : (newMsg (plan.prepared mo id r)).Readable) :
    (newMsg (plan.prepared mo id r)).text.length < (plan.sent mo id r).length := by
  refine MasseyOmura.length_lt_of_extractMsg h ?_
  rw [Msg.Readable, getM_newMsg] at hread
  rw [MasseyOmura.extractMsg, MasseyOmura.unPad_eq, Msg.text, getM_newMsg]
  exact if_pos hread

end Read

/-! ## The end of an honest round -/

section Done

variable {plan : Plan} {env : Env} {mo : Crypto} {r : ℤ} {ri : RoundInfo} {snap : Snapshot}

theorem Layered.hash_revealedKeys {s : Setup} (h : Layered s env mo r ri) (hI : RoundInv ri)
    (hph : ri.phase = .done) : ri.revealedKeys.map (·.hash env) = ri.revealKeyHashes := by
  rw [h.revealedKeys_eq hI hph, List.map_map]
  refine List.ext_getElem? fun p => ?_
  rw [List.getElem?_map]
  rcases hid : ri.participants[p]? with _ | id
  · rw [Option.map_none, eq_comm, List.getElem?_eq_none_iff, hI.hashes_length]
    exact List.getElem?_eq_none_iff.1 hid
  · rw [h.hashes (by rw [hph]; decide) p id hid]
    rfl

/-- At the end the values are the prepared messages, in some order. -/
structure Outcome (plan : Plan) (env : Env) (mo : Crypto) (r : ℤ) (ri : RoundInfo) : Prop where
  hashes : ri.revealedKeys.map (·.hash env) = ri.revealKeyHashes
  values : (ri.values mo).Perm (ri.participants.map fun id => newMsg (plan.prepared mo id r))

theorem outcome_of_done (hexact : env.Exact) {hist : List StateMachine}
    (h : HonestRun (plan.conduct env) hist) {sm : StateMachine} (hsm : sm ∈ hist)
    (hri : sm.getRoundInfo r = .ok ri) (hph : ri.phase = .done) (hmo : ri.crypto = some mo)
    {size : ℕ} (hv : mo.verify env (size + 16) = .ok ()) : Outcome plan env mo r ri := by
  have hI : RoundInv ri := (Reachable.inv (h.leads_of_mem hsm)).roundInv hri
  obtain ⟨mo', hL⟩ := (HonestRun.layered (plan.honestRun_setup hexact h) sm hsm r ri hri).layered
    (by rw [hph]; decide) (by rw [hph]; decide)
  obtain rfl : mo' = mo := Option.some.inj (hL.crypto.symm.trans hmo)
  refine ⟨hL.hash_revealedKeys hI hph, (hL.decryptAll_perm hI hph).trans (List.Perm.of_eq ?_)⟩
  refine List.map_congr_left fun id _ => ?_
  exact congrArg newMsg (if_pos (Plan.prepared_mem hv id r))

namespace Outcome

variable {n : ℕ} (h : Outcome plan env mo r ri) (hag : snap.Agrees r ri)
  (hmo : ri.crypto = some mo)
  (hmax : MasseyOmura.bytesMaxSize (Nat.size mo.getP) = n + 16)
include h hag hmo hmax

/-- All headers are right, so that there is a verdict; if they are also distinct, it has the
messages that were submitted. -/
theorem verifyRound_of_lt
    (hlt : ∀ id ∈ ri.participants, (plan.text mo id r).length < n) :
    ∃ verdict, Client.verifyRound env ri snap = .ok verdict ∧
      ((ri.participants.map fun id => plan.header mo id r).Nodup → ∃ messages,
        verdict = .ok messages ∧
        messages.Perm ((ri.participants.map fun id => plan.text mo id r).filter (· ≠ []))) := by
  have hread : ∀ id ∈ ri.participants, (newMsg (plan.prepared mo id r)).Readable ∧
      (newMsg (plan.prepared mo id r)).text = plan.sent mo id r := fun id hid =>
    text_prepared (by
      have := hlt id hid
      rw [hmax, plan.length_sent]
      push_cast
      omega)
  have hreadable : ∀ v ∈ ri.values mo, v.Readable := by
    intro v hv
    obtain ⟨id, hid, rfl⟩ := List.mem_map.1 (h.values.mem_iff.1 hv)
    exact (hread id hid).1
  have htexts : ((ri.values mo).map Msg.text).Perm
      (ri.participants.map fun id => plan.sent mo id r) := by
    refine (h.values.map _).trans (List.Perm.of_eq ?_)
    rw [List.map_map]
    refine List.map_congr_left fun id hid => ?_
    rw [Function.comp_apply, (hread id hid).2]
  have hmarked : ∀ b ∈ (ri.values mo).map Msg.text, Marked b := by
    intro b hb
    obtain ⟨id, -, rfl⟩ := List.mem_map.1 (htexts.mem_iff.1 hb)
    exact plan.marked_sent mo id r
  have hentries : (entries ((ri.values mo).map Msg.text)).Perm
      (entries (ri.participants.map fun id => plan.sent mo id r)) := (htexts.filter _).map _
  rw [plan.entries_sent] at hentries
  have hnodup : (ri.participants.map fun id => plan.header mo id r).Nodup →
      ((entries ((ri.values mo).map Msg.text)).map Prod.fst).Nodup := by
    intro hnonce
    rw [(hentries.map Prod.fst).nodup_iff, List.map_map]
    have hall : (ri.participants.map fun id =>
        Client.messageHeader (plan.header mo id r)).Nodup := by
      have := hnonce.map Client.messageHeader_injective
      rwa [List.map_map] at this
    exact hall.sublist (List.filter_sublist.map _)
  rw [Client.verifyRound_of_readable hag hmo h.hashes hreadable]
  rcases Client.verifyTexts_of_marked env hmarked with ⟨-, hv⟩ | ⟨hdup, e, hv⟩
  · refine ⟨_, hv, fun _ => ⟨_, rfl, (hentries.map Prod.snd).trans (List.Perm.of_eq ?_)⟩⟩
    rw [List.map_map, List.filter_map]
    rfl
  · exact ⟨_, hv, fun hnonce => absurd (hnodup hnonce) hdup⟩

/-- When only headers fit, the client panics. -/
theorem verifyRound_of_eq (hne : ri.participants ≠ [])
    (heq : ∀ id ∈ ri.participants, (plan.sent mo id r).length = n + 16) (hn : n = 0) :
    ∃ p, Client.verifyRound env ri snap = .error p := by
  by_cases hread : ∀ v ∈ ri.values mo, v.Readable
  · have hshort : ∀ b ∈ (ri.values mo).map Msg.text, b.length < 16 := by
      intro b hb
      obtain ⟨v, hv, rfl⟩ := List.mem_map.1 hb
      obtain ⟨id, hid, rfl⟩ := List.mem_map.1 (h.values.mem_iff.1 hv)
      have hlen := heq id hid
      have := length_text_prepared_lt (by rw [hmax, hlen]; rfl) (hread _ hv)
      omega
    have hlen : (ri.values mo).length = ri.participants.length := by
      rw [h.values.length_eq, List.length_map]
    obtain ⟨b, hfind⟩ : ∃ b,
        ((ri.values mo).map Msg.text).find? (fun b => ¬ Marked b) = some b := by
      refine Option.ne_none_iff_exists'.1 fun hnone => ?_
      obtain ⟨v, hv⟩ : ∃ v, v ∈ ri.values mo := by
        refine List.exists_mem_of_ne_nil _ fun hnil => hne ?_
        rw [hnil] at hlen
        exact List.length_eq_zero_iff.1 hlen.symm
      have hmem : v.text ∈ (ri.values mo).map Msg.text := List.mem_map_of_mem hv
      have hmark := List.find?_eq_none.1 hnone v.text hmem
      simp only [decide_not, Bool.not_eq_true', decide_eq_false_iff_not, not_not] at hmark
      have := hmark.1
      have := hshort _ hmem
      omega
    rw [Client.verifyRound_of_readable hag hmo h.hashes hread]
    rcases Client.verifyTexts_of_unmarked env hfind with ⟨-, hv⟩ | ⟨hle, -⟩
    · exact ⟨_, hv⟩
    · exact absurd (hshort b (List.mem_of_find?_eq_some hfind)) (not_lt.2 hle)
  · push Not at hread
    exact ⟨_, Client.verifyRound_of_not_readable hag hmo h.hashes hread⟩

end Outcome

end Done

/-- **No false accusation.** In an honest run in which no message has exactly the maximum size and
the random bytes of the headers are distinct, a participant that has read the end of a round sends
one result; it is a success without an error and has the messages that were submitted, less the
empty ones; exactly when `MessageSize` is not 0. -/
theorem honest_result_iff {plan : Plan} {env : Env} (hexact : env.Exact) {c : Client}
    {hist : List StateMachine} {w : World} (h : HonestWorld plan env c hist w) {x : Read}
    (hx : x ∈ w.session.reads) {r : ℤ} {ri : RoundInfo} (hri : x.sm.getRoundInfo r = .ok ri)
    (hph : ri.phase = .done) (hme : c.id ∈ ri.participants) {mo : Crypto}
    (hmo : ri.crypto = some mo) (hv : mo.verify env (c.messageSize + 16) = .ok ())
    (hnonce : (ri.participants.map fun id => plan.header mo id r).Nodup)
    (hlen : ∀ id ∈ ri.participants, (plan.message id r).length ≠ c.messageSize) :
    (∃ messages, w.session.results env c r = [.ok (some
        { round := r, succeeded := true, messages, maliciousError := none })] ∧
      messages.Perm ((ri.participants.map fun id => plan.text mo id r).filter (· ≠ []))) ↔
    c.messageSize ≠ 0 := by
  obtain ⟨hmem, snap, hag, hres⟩ := h.results_eq hexact hx hri hph hme
  have hout := outcome_of_done hexact h.honestRun.1 hmem hri hph hmo hv
  have hmax := Crypto.bytesMaxSize_of_verify hv
  have hsize := Crypto.messageSize_of_verify hv
  constructor
  · rintro ⟨messages, hmsgs, -⟩ h₀
    obtain ⟨p, hp⟩ := hout.verifyRound_of_eq hag hmo hmax (List.ne_nil_of_mem hme)
      (fun id _ => by
        have := plan.length_text_le mo id r
        rw [plan.length_sent]
        omega) h₀
    rw [hp] at hres
    rw [hres] at hmsgs
    cases hmsgs
  · intro h₀
    obtain ⟨verdict, hok, hall⟩ := hout.verifyRound_of_lt hag hmo hmax fun id hid =>
      lt_of_le_of_ne (hsize ▸ plan.length_text_le mo id r)
        (plan.length_text_ne mo id r h₀ (hlen id hid))
    obtain ⟨messages, rfl, hperm⟩ := hall hnonce
    rw [hok] at hres
    exact ⟨messages, hres, hperm⟩

/-- The two participants take their turns, and the first one reads every update. -/
def twoMoves (size : ℕ) (mo : Crypto) : List HonestWorld.Move :=
  [.subscribe, .read] ++ (twoTurns size mo).flatMap fun t => [.turn t, .read]

/-- What participant 1 submits. -/
def twoChance : Chance where
  message := [65]
  nonce := Vector.replicate 8 7
  nonce₂ := Vector.replicate 8 7
  shuffle := ⟨List.reverse, List.reverse_perm⟩

theorem honestWorld_twoMoves {size : ℕ} {mo : Crypto} {w : World}
    (hv : mo.verify exactEnv (size + 16) = .ok ())
    (hrun : run (HonestWorld.move twoPlan exactEnv ⟨1, size⟩ twoChance) {} (twoMoves size mo) =
      .ok w) : ∃ hist, HonestWorld twoPlan exactEnv ⟨1, size⟩ hist w := by
  refine HonestWorld.of_moves .init (fun m hm t hmt => ?_) hrun
  have ht : t ∈ twoTurns size mo := by
    subst hmt
    simpa [twoMoves] using hm
  exact starts_twoTurns hv t ht

theorem honest_result_iff_pair : ∃ hist w, HonestWorld twoPlan exactEnv ⟨1, 2⟩ hist w ∧
    ∃ messages, w.session.results exactEnv ⟨1, 2⟩ 0 = [.ok (some
        { round := 0, succeeded := true, messages, maliciousError := none })] ∧
      messages.Perm [[65], [66]] := by
  obtain ⟨w, hw, htest⟩ : ∃ w, run (HonestWorld.move twoPlan exactEnv ⟨1, 2⟩ twoChance) {}
        (twoMoves 2 pairCrypto) = .ok w ∧
      decide (⟨twoDone pairCrypto pairMessages, true⟩ ∈ w.session.reads) = true :=
    exists_of_endsWith (by decide +kernel)
  obtain ⟨hist, h⟩ := honestWorld_twoMoves verify_pairCrypto hw
  have htexts : (([1, 2] : List UUID).map fun id => twoPlan.text pairCrypto id 0).filter (· ≠ []) =
      [[65], [66]] := by decide +kernel
  have hri : (twoDone pairCrypto pairMessages).getRoundInfo 0 =
      .ok (twoRound pairCrypto pairMessages) := rfl
  refine ⟨hist, w, h, ?_⟩
  rw [← htexts]
  exact (honest_result_iff exactEnv_exact h (of_decide_eq_true htest) hri rfl (by decide) rfl
    verify_pairCrypto (by decide +kernel) fun _ _ => (by decide : (1 : ℕ) ≠ 2)).2 (by decide)

/-- Headers alone, as the integers that `PrepareMsg` makes of them. -/
def headerMessages : List Msg :=
  [⟨List.replicate 8 13 ++ List.replicate 8 7⟩, ⟨List.replicate 8 13 ++ List.replicate 8 9⟩]

/-- With `MessageSize` 0 the client panics on its own header. -/
theorem not_honest_result_headerOnly :
    (∃ hist w, HonestWorld twoPlan exactEnv ⟨1, 0⟩ hist w ∧
      ⟨twoDone headerCrypto headerMessages, true⟩ ∈ w.session.reads ∧
      w.session.results exactEnv ⟨1, 0⟩ 0 = [.error .noZeroInMessage]) ∧
    ¬ ∀ (plan : Plan) (env : Env), env.Exact → ∀ (c : Client) (hist : List StateMachine)
      (w : World), HonestWorld plan env c hist w → ∀ x ∈ w.session.reads, ∀ r ri mo,
        x.sm.getRoundInfo r = .ok ri → ri.phase = .done → c.id ∈ ri.participants →
        ri.crypto = some mo → mo.verify env (c.messageSize + 16) = .ok () →
        (ri.participants.map fun id => plan.header mo id r).Nodup →
        (∀ id ∈ ri.participants, (plan.message id r).length ≠ c.messageSize) →
        ∃ messages, w.session.results env c r = [.ok (some
          { round := r, succeeded := true, messages, maliciousError := none })] ∧
          messages.Perm ((ri.participants.map fun id => plan.text mo id r).filter (· ≠ [])) := by
  obtain ⟨w, hw, htest⟩ : ∃ w, run (HonestWorld.move twoPlan exactEnv ⟨1, 0⟩ twoChance) {}
        (twoMoves 0 headerCrypto) = .ok w ∧
      decide (⟨twoDone headerCrypto headerMessages, true⟩ ∈ w.session.reads ∧
        w.session.results exactEnv ⟨1, 0⟩ 0 = [.error .noZeroInMessage]) = true :=
    exists_of_endsWith (by decide +kernel)
  obtain ⟨hx, hres⟩ := of_decide_eq_true htest
  obtain ⟨hist, h⟩ := honestWorld_twoMoves verify_headerCrypto hw
  refine ⟨⟨hist, w, h, hx, hres⟩, fun hall => ?_⟩
  obtain ⟨messages, hmsgs, -⟩ := hall twoPlan exactEnv exactEnv_exact ⟨1, 0⟩ hist w h _ hx 0
    (twoRound headerCrypto headerMessages) headerCrypto rfl rfl (by decide) rfl verify_headerCrypto
    (by decide +kernel) fun _ _ => Nat.one_ne_zero
  rw [hres] at hmsgs
  cases hmsgs

end EggScrambler
