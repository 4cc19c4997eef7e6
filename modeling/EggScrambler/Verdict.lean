import Mathlib
import EggScrambler.Plan
import EggScrambler.Results

/-!
# The verdict on a round

A client that is active and reads all updates of a round scrambles and reveals in it, so that one
`sendRoundResult` is started for the round and its snapshot agrees with it.  The other participants
choose the values that the round decrypts to.  `reported_iff` says for which of them the client
sends a result at all, with an error if a value is not what an honest client submits: `unPad`
panics on a value without a zero byte, and the header is cut out of a text before its length is
checked.
-/

namespace EggScrambler

open StateMachine Transition

/-! ## Attendance -/

/-- The client reads all updates of round `r`, from its beginning on, and is active in all of them.
-/
structure Attends (s : Session) (r : ℤ) : Prop where
  start : ∃ x ∈ s.reads, x.sm.round < r ∨ x.sm.round = r ∧ x.sm.currentRoundInfo.phase = .prepare
  active : ∀ x ∈ s.reads, x.sm.round = r → x.active = true

namespace Attends

variable {s : Session} {r : ℤ} {v : StateMachine} {active : Bool} {a : Reaction}

/-- An update that is not the first one of the round does not matter for where attendance began. -/
theorem of_react (h : Attends (s.react ⟨v, active⟩ a) r)
    (hv : r < v.round ∨ r = v.round ∧ v.currentRoundInfo.phase ≠ .prepare) : Attends s r where
  start := by
    obtain ⟨x, hx, hxr⟩ := h.start
    rcases List.mem_cons.1 hx with rfl | hx
    · exfalso
      dsimp only at hxr
      rcases hv with hv | ⟨hv, hne⟩
      · omega
      · rcases hxr with hlt | ⟨-, hph⟩
        · omega
        · exact hne hph
    · exact ⟨x, hx, hxr⟩
  active x hx := h.active x (List.mem_cons_of_mem _ hx)

theorem reads_ne_nil (h : Attends s r) : s.reads ≠ [] := by
  obtain ⟨x, hx, -⟩ := h.start
  exact List.ne_nil_of_mem hx

theorem business_eq {c : Client} (h : Attends (s.react ⟨v, active⟩ a) v.round) :
    c.business active v = c.me v.currentRoundInfo := by
  have hact : active = true := h.active _ List.mem_cons_self rfl
  rw [Client.business, if_pos hact]

end Attends

/-- The client's turn to scramble has come, or the turns of all are over. -/
def TurnCame (ri : RoundInfo) (p : ℕ) : Prop :=
  ri.phase = .scramble ∧ p ≤ ri.numScrambled ∨ 4 ≤ phaseOrder ri.phase

theorem TurnCame.one_le {ri : RoundInfo} {p : ℕ} (h : TurnCame ri p) : 1 ≤ phaseOrder ri.phase := by
  rcases h with ⟨hph, -⟩ | hord
  · rw [hph]
    decide
  · omega

/-- What a client has done in the rounds that it attends. -/
structure Diligent (c : Client) (s : Session) : Prop where
  scrambles : Attends s s.reader.lastSm.round → ∀ p,
    c.me s.reader.lastSm.currentRoundInfo = some p →
      TurnCame s.reader.lastSm.currentRoundInfo p → s.Scrambles s.reader.lastSm.round
  reveals : Attends s s.reader.lastSm.round → c.me s.reader.lastSm.currentRoundInfo ≠ none →
    s.reader.lastSm.currentRoundInfo.phase = .reveal → s.Reveals s.reader.lastSm.round
  past : ∀ x ∈ s.reads, ∀ r ri, r < x.sm.round → x.sm.getRoundInfo r = .ok ri → ri.phase = .done →
    c.id ∈ ri.participants → Attends s r → s.Scrambles r ∧ s.Reveals r

namespace Diligent

variable {env : Env} {c : Client} {s : Session} {v : StateMachine} {active : Bool} {draws : Draws}
  {a : Reaction}

theorem init (c : Client) : Diligent c {} where
  scrambles h := absurd rfl h.reads_ne_nil
  reveals h := absurd rfl h.reads_ne_nil
  past x hx := by simp at hx

theorem configure (h : Diligent c s) (active leaving : Bool) (stored : ℕ) :
    Diligent c (s.configure c active leaving stored) := by
  refine ⟨fun ha p hp ht => ?_, fun ha hp hph => ?_, fun x hx r ri hlt hri hph hme ha => ?_⟩
  · exact Session.scrambles_configure.2 (h.scrambles ⟨ha.start, ha.active⟩ p hp ht)
  · exact Session.reveals_configure.2 (h.reveals ⟨ha.start, ha.active⟩ hp hph)
  · rw [Session.scrambles_configure, Session.reveals_configure]
    exact h.past x hx r ri hlt hri hph hme ⟨ha.start, ha.active⟩

/-- The client scrambles in its turn: the turn is now, or it came earlier in this round. -/
theorem scrambles_read (h : Diligent c s) (hc : Counts s) (hv : s.Next v)
    (ha : Reads env c active draws s.reader v a) (hatt : Attends (s.react ⟨v, active⟩ a) v.round)
    {p : ℕ} (hp : c.me v.currentRoundInfo = some p) (hturn : TurnCame v.currentRoundInfo p) :
    (s.react ⟨v, active⟩ a).Scrambles v.round := by
  have hne : v.currentRoundInfo.phase ≠ .prepare := by
    rintro hph
    rw [TurnCame, hph] at hturn
    simp [phaseOrder] at hturn
  have hatt' : Attends s v.round := hatt.of_react (Or.inr ⟨rfl, hne⟩)
  have hcons := hv.consecutive hatt'.reads_ne_nil
  have hr : v.round = s.reader.lastSm.round := by
    rcases hcons.round_cases with heq | ⟨-, hph⟩
    · exact heq
    · exact absurd hph hne
  have hidx := (Client.me_eq_participantIndex hv.view.inv.current.nodup).symm.trans hp
  by_cases hnow : v.currentRoundInfo.phase = .scramble ∧ p = v.currentRoundInfo.numScrambled
  · rcases ha.scramble_cases with ⟨-, -, -, ⟨t, ht, htr⟩, -⟩ | ⟨-, -, -, hquiet⟩
    · exact ⟨t, List.mem_append_left _ ht, htr⟩
    · have hle := hquiet hnow.1 (by rw [hatt.business_eq, hp, hnow.2])
      have heq : s.reader.lastScrambledRound = v.round := by
        have := hc.le
        omega
      have hold := hc.scrambled (by rw [heq]; exact hv.view.inv.round_nonneg)
      rw [heq] at hold
      exact Session.started_react _ _ hold
  · have hbefore : TurnCame s.reader.lastSm.currentRoundInfo p :=
      hcons.turn hr (RoundInfo.participantIndex_lt hidx) (by
        rcases hturn with ⟨hph, hle⟩ | hord
        · exact Or.inl ⟨hph, lt_of_le_of_ne hle fun heq => hnow ⟨hph, heq⟩⟩
        · exact Or.inr hord)
    have hparts := ((hv.follows.later_of_round_eq hv.view.inv.round_nonneg hr).fixed
      (hbefore.one_le)).1
    rw [Client.me, hparts] at hp
    rw [hr] at hatt' ⊢
    exact Session.started_react _ _ (h.scrambles hatt' p hp hbefore)

theorem reveals_read (ha : Reads env c active draws s.reader v a)
    (hatt : Attends (s.react ⟨v, active⟩ a) v.round) (hme : c.me v.currentRoundInfo ≠ none)
    (hph : v.currentRoundInfo.phase = .reveal) : (s.react ⟨v, active⟩ a).Reveals v.round := by
  rcases ha.reveal_cases with ⟨-, -, ⟨t, ht, htr⟩, -⟩ | ⟨-, -, hquiet⟩
  · exact ⟨t, List.mem_append_left _ ht, htr⟩
  · rw [← hatt.business_eq] at hme
    exact absurd (hquiet hph) hme

/-- When a round ends, the client has scrambled and revealed in it. -/
theorem past_read (h : Diligent c s) (hv : s.Next v) {r : ℤ} {ri : RoundInfo} (hlt : r < v.round)
    (hri : v.getRoundInfo r = .ok ri) (hph : ri.phase = .done) (hme : c.id ∈ ri.participants)
    (hatt : Attends s r) : s.Scrambles r ∧ s.Reveals r := by
  have hlast : s.reader.lastSm.round ≤ r ∨ r < s.reader.lastSm.round := le_or_gt _ _
  obtain ⟨x, rest, hreads⟩ := List.exists_cons_of_ne_nil hatt.reads_ne_nil
  have hx : s.reader.lastSm = x.sm := by
    rw [hv.last, hreads]
    rfl
  rcases hlast with hle | hold
  · have hcons := hv.consecutive hatt.reads_ne_nil
    obtain ⟨rfl, hr⟩ : r = s.reader.lastSm.round ∧ v.round = s.reader.lastSm.round + 1 := by
      rcases hcons.round_cases with heq | ⟨heq, -⟩ <;> omega
    have hrev := hcons.reveal_of_done hri hr hph
    have hlater := hv.follows.later ri hri
    have hparts := (hlater.fixed (by rw [hrev]; decide)).1
    rw [hparts] at hme
    obtain ⟨p, hp⟩ : ∃ p, c.me s.reader.lastSm.currentRoundInfo = some p := by
      rw [Client.me_eq_participantIndex hv.inv_last.current.nodup]
      refine Option.ne_none_iff_exists'.1 fun hnone => ?_
      exact RoundInfo.participantIndex_eq_none_iff.1 hnone hme
    refine ⟨h.scrambles hatt p hp (Or.inr (by rw [hrev]; decide)), h.reveals hatt ?_ hrev⟩
    rw [hp]
    exact Option.some_ne_none p
  · exact h.past x (by rw [hreads]; exact List.mem_cons_self) r ri (hx ▸ hold)
      (hx ▸ hv.follows.finished r hold ri hri) hph hme hatt

/-- When an update makes it the turn of the client, the loop scrambles or reveals. -/
theorem read (h : Diligent c s) (hc : Counts s) (ho : Ordered s) (hv : s.Next v)
    (ha : Reads env c active draws s.reader v a) : Diligent c (s.react ⟨v, active⟩ a) := by
  have hlast : a.reader.lastSm = v := ha.lastSm
  refine ⟨?_, ?_, fun x hx r ri hlt hri hph hme hatt => ?_⟩
  · rw [Session.reader_react, hlast]
    exact fun hatt p hp hturn => h.scrambles_read hc hv ha hatt hp hturn
  · rw [Session.reader_react, hlast]
    exact fun hatt hme hph => reveals_read ha hatt hme hph
  · have hltv : r < v.round := by
      rcases List.mem_cons.1 hx with rfl | hx
      · exact hlt
      · have := (ho.last x hx).round_le
        have := hv.follows.round_le
        omega
    have hatt' : Attends s r := hatt.of_react (Or.inl hltv)
    have hold : s.Scrambles r ∧ s.Reveals r := by
      rcases List.mem_cons.1 hx with rfl | hx
      · exact h.past_read hv hlt hri hph hme hatt'
      · exact h.past x hx r ri hlt hri hph hme hatt'
    exact ⟨Session.started_react _ _ hold.1, Session.started_react _ _ hold.2⟩

theorem of_reachable {w : World} (h : World.Reachable env c w) : Diligent c w.session := by
  refine World.session_induction_of
    (Q := fun s => Counts s ∧ Recalls s ∧ Ordered s ∧ Reports s) (·.reports) (init c) ?_ ?_ h
  · rintro s v active draws a ⟨hc, -, ho, -⟩ hd hv ha
    exact hd.read hc ho hv ha
  · exact fun s active leaving stored hd => hd.configure active leaving stored

end Diligent

/-! ## Malformed values -/

/-- The value is a header and a message, padded as `PrepareMsg` does. -/
def WellFormed (mo : Crypto) (v : Msg) : Prop :=
  ∃ r m, mo.prepareMsg (Client.messageWithHeader r m) = .ok (.ok v)

/-- The client sends one result about round `r`, with an error if a value is malformed. -/
def Reported (env : Env) (c : Client) (s : Session) (r : ℤ) (ri : RoundInfo) (mo : Crypto) : Prop :=
  ∃ res, s.results env c r = [.ok (some res)] ∧
    ((∃ v ∈ ri.values mo, ¬ WellFormed mo v) → res.maliciousError ≠ none)

/-- The texts of a round can be judged: the first one without the mark is long enough to have a
header, and if all have it, two headers are equal or the values are well formed. -/
def Judgeable (mo : Crypto) (values : List Msg) : Prop :=
  match (values.map Msg.text).find? (fun b => ¬ Marked b) with
  | some b => 16 ≤ b.length
  | none => ¬ ((entries (values.map Msg.text)).map Prod.fst).Nodup ∨ ∀ v ∈ values, WellFormed mo v

section Verdict

variable {env : Env} {c : Client} {s : Session} {mo : Crypto} {r : ℤ} {ri : RoundInfo}
  {verdict : Go (Except MaliciousError (List Bytes))}

/-- A result with an error is always right. -/
theorem Reported.of_error {e : MaliciousError} {res : RoundResult}
    (h : s.results env c r = [.ok (some res)]) (he : res.maliciousError = some e) :
    Reported env c s r ri mo :=
  ⟨res, h, fun _ => by rw [he]; exact Option.some_ne_none e⟩

theorem not_reported_of_panic {p : Panic} (h : s.results env c r = [.error p]) :
    ¬ Reported env c s r ri mo := by
  rintro ⟨res, hres, -⟩
  rw [h] at hres
  cases hres

/-- A result without an error is right when all values are well formed. -/
theorem reported_iff_of_ok {res : RoundResult} (h : s.results env c r = [.ok (some res)])
    (he : res.maliciousError = none) :
    Reported env c s r ri mo ↔ ∀ v ∈ ri.values mo, WellFormed mo v := by
  constructor
  · rintro ⟨res', hres, himp⟩ v hv
    rw [h] at hres
    cases hres
    by_contra hbad
    exact himp ⟨v, hv, hbad⟩ he
  · intro hall
    exact ⟨res, h, fun ⟨v, hv, hbad⟩ => absurd (hall v hv) hbad⟩

/-- A client that attends a round sends one verdict on it. -/
theorem results_of_attends {w : World} (h : World.Reachable env c w) {x : Read}
    (hx : x ∈ w.session.reads) (hri : x.sm.getRoundInfo r = .ok ri) (hph : ri.phase = .done)
    (hme : c.id ∈ ri.participants) (hatt : Attends w.session r) :
    ∃ snap : Snapshot, snap.Agrees r ri ∧ w.session.results env c r =
      [(Client.verifyRound env ri snap).map (RoundResult.ofVerdict r)] := by
  obtain ⟨hs, hr⟩ :=
    (Diligent.of_reachable h).past x hx r ri (h.lt_of_finished hx hri (Or.inl hph)) hri hph hme hatt
  obtain ⟨sm, snap, hget, hag, hres⟩ := h.results_eq hx hri hph hs hr
  refine ⟨snap, hag, ?_⟩
  rw [hres, Client.sendRoundResult_of_agrees hag hget hph hme]

/-- The part of the verdict that depends on the texts. -/
theorem reported_iff_judgeable (h : s.results env c r =
      [(Client.verifyTexts env ((ri.values mo).map Msg.text)).map (RoundResult.ofVerdict r)]) :
    Reported env c s r ri mo ↔ Judgeable mo (ri.values mo) := by
  unfold Judgeable
  split
  case h_1 b hfind =>
    rcases Client.verifyTexts_of_unmarked env hfind with ⟨hlt, hv⟩ | ⟨hle, e, hv⟩
    · rw [hv] at h
      exact iff_of_false (not_reported_of_panic h) (not_le.2 hlt)
    · rw [hv] at h
      exact iff_of_true (Reported.of_error h rfl) hle
  case h_2 hfind =>
    have hmarked : ∀ b ∈ (ri.values mo).map Msg.text, Marked b := by
      simpa using List.find?_eq_none.1 hfind
    rcases Client.verifyTexts_of_marked env hmarked with ⟨hn, hv⟩ | ⟨hn, e, hv⟩
    · rw [hv] at h
      rw [reported_iff_of_ok h rfl, or_iff_right (not_not.2 hn)]
    · rw [hv] at h
      exact iff_of_true (Reported.of_error h rfl) (Or.inl hn)

/-- **Malformed values.** A client that attends a round to its end sends one result about it, with
an error if a value is malformed, exactly when a revealed key does not match its hash or the values
can be unpadded and judged. -/
theorem reported_iff {w : World} (h : World.Reachable env c w) {x : Read}
    (hx : x ∈ w.session.reads) (hri : x.sm.getRoundInfo r = .ok ri) (hph : ri.phase = .done)
    (hme : c.id ∈ ri.participants) (hatt : Attends w.session r) (hmo : ri.crypto = some mo) :
    Reported env c w.session r ri mo ↔ ri.revealedKeys.map (·.hash env) ≠ ri.revealKeyHashes ∨
      (∀ v ∈ ri.values mo, v.Readable) ∧ Judgeable mo (ri.values mo) := by
  obtain ⟨snap, hag, hres⟩ := results_of_attends h hx hri hph hme hatt
  by_cases heq : ri.revealedKeys.map (·.hash env) = ri.revealKeyHashes
  · rw [or_iff_right (not_not.2 heq)]
    by_cases hread : ∀ v ∈ ri.values mo, v.Readable
    · rw [and_iff_right hread]
      rw [Client.verifyRound_of_readable hag hmo heq hread] at hres
      exact reported_iff_judgeable hres
    · push Not at hread
      rw [Client.verifyRound_of_not_readable hag hmo heq hread] at hres
      refine iff_of_false (not_reported_of_panic hres) fun hv => ?_
      obtain ⟨v, hv', hbad⟩ := hread
      exact hbad (hv.1 v hv')
  · have hview := h.reports.2.2.1.views x hx
    have hms : ri.messages ≠ [] := by
      rw [← List.length_pos_iff, hview.length_of_getRoundInfo hri]
      exact List.length_pos_of_mem hme
    obtain ⟨e, he⟩ := Client.verifyRound_of_hash_ne hag hmo (hview.inv.roundInv hri) hms heq
    rw [he] at hres
    exact iff_of_true (Reported.of_error hres rfl) (Or.inl heq)

end Verdict

/-! ## A malicious participant -/

/-- An empty message, padded. -/
def emptyPadded : Msg := ⟨[1, 1, 0] ++ List.replicate 8 13 ++ List.replicate 8 7⟩

/-- A text of the right length, without a header. -/
def wrongHeader : Msg := ⟨[1, 1, 0] ++ List.replicate 16 9⟩

/-- Participant 2 submits `m`; all keys are 1, and participant 1 reads all updates. -/
def maliciousActions (m : Msg) : List Action :=
  [.subscribe, .commit (.join 1 0), .commit (.join 2 0), .commit (.start 2 0 (some pairCrypto)),
    .commit (.message 1 0 emptyPadded (keyOne.hash exactEnv)),
    .commit (.message 2 0 m (keyOne.hash exactEnv)),
    .commit (.encrypted 1 0 [emptyPadded, m] 0), .commit (.encrypted 2 0 [emptyPadded, m] 1),
    .commit (.scrambled 1 0 [emptyPadded, m]), .commit (.scrambled 2 0 [emptyPadded, m]),
    .commit (.decrypted 1 0 [emptyPadded, m] 0), .commit (.decrypted 2 0 [emptyPadded, m] 1),
    .commit (.reveal 1 0 keyOne), .commit (.reveal 2 0 keyOne)] ++
  List.replicate 14 (.read true false ⟨[0], [0], [0]⟩)

instance (s : Session) (r : ℤ) : Decidable (Attends s r) :=
  decidable_of_iff ((∃ x ∈ s.reads, x.sm.round < r ∨ x.sm.round = r ∧
      x.sm.currentRoundInfo.phase = .prepare) ∧ ∀ x ∈ s.reads, x.sm.round = r → x.active = true)
    ⟨fun h => ⟨h.1, h.2⟩, fun h => ⟨h.start, h.active⟩⟩

/-- A wrong header is reported. -/
theorem reported_iff_wrongHeader : ∃ w, World.Reachable exactEnv ⟨1, 2⟩ w ∧
    Reported exactEnv ⟨1, 2⟩ w.session 0 (twoRound pairCrypto [emptyPadded, wrongHeader])
      pairCrypto := by
  obtain ⟨w, hw, htest⟩ : ∃ w, run (World.step exactEnv ⟨1, 2⟩) {}
        (maliciousActions wrongHeader) = .ok w ∧
      decide (⟨twoDone pairCrypto [emptyPadded, wrongHeader], true⟩ ∈ w.session.reads ∧
        Attends w.session 0) = true :=
    exists_of_endsWith (by decide +kernel)
  obtain ⟨hx, hatt⟩ := of_decide_eq_true htest
  refine ⟨w, ⟨_, hw⟩, (reported_iff ⟨_, hw⟩ hx rfl rfl (by decide) hatt rfl).2 (Or.inr ⟨?_, ?_⟩)⟩
  · decide +kernel
  · have hfind : (((twoRound pairCrypto [emptyPadded, wrongHeader]).values pairCrypto).map
        Msg.text).find? (fun b => ¬ Marked b) = some (List.replicate 16 9) := by decide +kernel
    simp only [Judgeable, hfind]
    decide

/-- A value without a zero byte stops the client. -/
theorem not_reported_unpadded :
    (∃ w, World.Reachable exactEnv ⟨1, 2⟩ w ∧
      ⟨twoDone pairCrypto [emptyPadded, ⟨[5]⟩], true⟩ ∈ w.session.reads ∧ Attends w.session 0 ∧
      w.session.results exactEnv ⟨1, 2⟩ 0 = [.error .noZeroInMessage]) ∧
    ¬ ∀ (env : Env) (c : Client) (w : World), World.Reachable env c w → ∀ x ∈ w.session.reads,
      ∀ r ri mo, x.sm.getRoundInfo r = .ok ri → ri.phase = .done → c.id ∈ ri.participants →
        Attends w.session r → ri.crypto = some mo →
        mo.verify env (c.messageSize + 16) = .ok () →
        ri.messages.length = ri.participants.length → Reported env c w.session r ri mo := by
  obtain ⟨w, hw, htest⟩ : ∃ w, run (World.step exactEnv ⟨1, 2⟩) {} (maliciousActions ⟨[5]⟩) =
        .ok w ∧
      decide (⟨twoDone pairCrypto [emptyPadded, ⟨[5]⟩], true⟩ ∈ w.session.reads ∧
        Attends w.session 0 ∧
        w.session.results exactEnv ⟨1, 2⟩ 0 = [.error .noZeroInMessage]) = true :=
    exists_of_endsWith (by decide +kernel)
  obtain ⟨hx, hatt, hres⟩ := of_decide_eq_true htest
  refine ⟨⟨w, ⟨_, hw⟩, hx, hatt, hres⟩, fun h => ?_⟩
  have hrep := h exactEnv ⟨1, 2⟩ w ⟨_, hw⟩ _ hx 0 (twoRound pairCrypto [emptyPadded, ⟨[5]⟩])
    pairCrypto rfl rfl (by decide) hatt rfl verify_pairCrypto rfl
  exact not_reported_of_panic hres hrep

end EggScrambler
