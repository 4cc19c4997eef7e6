import Mathlib
import EggScrambler.Verdict

/-!
# What a success says about duplicates

A copied message is found by its header, which is drawn at random: no two messages of a round have
the same one.  `sendRoundResult` compares the headers pairwise, but only of the messages that have a
body; a copy of an empty message passes (`distinct_headers_iff`).

Nothing is assumed of the state machine or of what the client remembers: the lemmas read off the
loops what they have let through.
-/

namespace EggScrambler

open StateMachine Transition

/-! ## What the loops let through -/

namespace Client

variable {env : Env} {c : Client}

theorem eq_of_revealMessage {mo : Crypto} {keys : List PrivateKey} {hashes : List Bytes}
    {m om : Msg} (h : revealMessage env (some mo) keys hashes m = .ok (.ok om)) :
    om = keys.foldl (fun m key => mo.decrypt key m) m := by
  induction keys generalizing hashes m with
  | nil =>
    cases h
    rfl
  | cons key keys ih =>
    cases hashes with
    | nil => cases h
    | cons hash hashes =>
      rw [revealMessage] at h
      split_ifs at h with hk
      · exact ih h
      · cases h

/-- Each text is extracted from a message that was decrypted with all revealed keys. -/
theorem forall₂_of_revealMessages {crypto : Option Crypto} {keys : List PrivateKey}
    {hashes : List Bytes} {ms : List Msg} {texts : List Bytes}
    (h : revealMessages env crypto keys hashes ms = .ok (.ok texts)) :
    List.Forall₂ (fun m b => ∃ mo, crypto = some mo ∧
      mo.extractMsg (keys.foldl (fun m key => mo.decrypt key m) m) = .ok b) ms texts := by
  induction ms generalizing texts with
  | nil =>
    cases h
    exact .nil
  | cons m ms ih =>
    obtain ⟨x, hx, h⟩ := bind_eq_ok_iff.1 h
    cases x with
    | error e => cases h
    | ok om =>
      obtain ⟨mo, hmo, h⟩ := bind_eq_ok_iff.1 h
      obtain ⟨b, hb, h⟩ := bind_eq_ok_iff.1 h
      obtain ⟨rest, hrest, h⟩ := bind_eq_ok_iff.1 h
      cases rest with
      | error e => cases h
      | ok messages =>
        cases h
        obtain rfl := deref_eq_ok_iff.1 hmo
        rw [eq_of_revealMessage hx] at hb
        exact .cons ⟨mo, rfl, hb⟩ (ih hrest)

/-- Texts that pass are marked, and those with a body have different headers. -/
theorem of_verifyTexts {texts out : List Bytes} (h : verifyTexts env texts = .ok (.ok out)) :
    (∀ b ∈ texts, Marked b) ∧ ((entries texts).map Prod.fst).Nodup := by
  have hall : ∀ b ∈ texts, Marked b := by
    by_contra hne
    simp only [not_forall] at hne
    obtain ⟨b, hb, hm⟩ := hne
    have hsome : (texts.find? fun b => ¬ Marked b).isSome := by
      rw [List.find?_isSome]
      exact ⟨b, hb, by simpa using hm⟩
    obtain ⟨b', hb'⟩ := Option.isSome_iff_exists.1 hsome
    rcases verifyTexts_of_unmarked env hb' with ⟨-, hv⟩ | ⟨-, e, hv⟩
    · rw [h] at hv
      cases hv
    · rw [h] at hv
      cases hv
  refine ⟨hall, ?_⟩
  rcases verifyTexts_of_marked env hall with ⟨hn, -⟩ | ⟨-, e, hv⟩
  · exact hn
  · rw [h] at hv
    cases hv

theorem of_verifyRound {ri : RoundInfo} {snap : Snapshot} {out : List Bytes}
    (h : verifyRound env ri snap = .ok (.ok out)) :
    ri.messages.length = snap.numberOfMessagesWhenScrambled ∧
      ∃ texts, revealMessages env ri.crypto ri.revealedKeys snap.revealKeyHashes ri.messages =
        .ok (.ok texts) ∧ verifyTexts env texts = .ok (.ok out) := by
  rw [verifyRound] at h
  split_ifs at h with hn
  · cases h
  · obtain ⟨unchanged, -, h⟩ := bind_eq_ok_iff.1 h
    cases unchanged with
    | error e => cases h
    | ok _ =>
      obtain ⟨revealed, hrev, h⟩ := bind_eq_ok_iff.1 h
      cases revealed with
      | error e => cases h
      | ok texts => exact ⟨not_not.1 hn, texts, hrev, h⟩

end Client

/-- The headers of texts with a body are compared by the loop; what is left are the pairs in which
one text is a header only. -/
theorem nodup_headers_iff {texts : List Bytes} (hm : ∀ b ∈ texts, Marked b)
    (hn : ((entries texts).map Prod.fst).Nodup) :
    (texts.map (List.take 16)).Nodup ↔ texts.Pairwise fun a b =>
      a.length = 16 ∨ b.length = 16 → a.take 16 ≠ b.take 16 := by
  have hbody : texts.Pairwise fun a b => 16 < a.length → 16 < b.length → a.take 16 ≠ b.take 16 := by
    rw [entries, List.map_map, List.nodup_iff_pairwise_ne, List.pairwise_map,
      List.pairwise_filter] at hn
    simpa using hn
  rw [List.nodup_iff_pairwise_ne, List.pairwise_map]
  constructor
  · intro h
    refine h.imp fun {a b} hne _ => ?_
    exact hne
  · intro h
    refine (h.and hbody).imp_of_mem fun {a b} ha hb hab => ?_
    have ha₁ := (hm a ha).1
    have hb₁ := (hm b hb).1
    by_cases hlen : a.length = 16 ∨ b.length = 16
    · exact hab.1 hlen
    · exact hab.2 (by omega) (by omega)

/-- **Success and duplicates.** If the client reports that a round succeeded, there are as many
messages as when it scrambled, and all of them, decrypted and extracted, begin with a header; the
headers are pairwise different if and only if no message with an empty body has the header of
another message. -/
theorem distinct_headers_iff {env : Env} {c : Client} {sm : StateMachine} {round : ℤ}
    {snap : Snapshot} {ri : RoundInfo} {res : RoundResult}
    (hri : sm.getRoundInfo (round - 1) = .ok ri) (hph : ri.phase = .done)
    (hme : c.id ∈ ri.participants) (hres : c.sendRoundResult env sm round snap = .ok (some res))
    (hsucc : res.succeeded = true) (herr : res.maliciousError = none) :
    ri.messages.length = snap.numberOfMessagesWhenScrambled ∧
      ∃ texts, List.Forall₂ (fun m b => ∃ mo, ri.crypto = some mo ∧
          mo.extractMsg (ri.decryptAll mo m) = .ok b) ri.messages texts ∧
        (∀ b ∈ texts, Marked b) ∧
        ((texts.map (List.take 16)).Nodup ↔ texts.Pairwise fun a b =>
          a.length = 16 ∨ b.length = 16 → a.take 16 ≠ b.take 16) := by
  rw [Client.sendRoundResult_of_done snap hri hph hme] at hres
  obtain ⟨-, -, hres⟩ := bind_eq_ok_iff.1 hres
  rcases hv : Client.verifyRound env ri snap with e | (e | out)
  · rw [hv] at hres
    cases hres
  · rw [hv] at hres
    cases hres
    cases hsucc
  · obtain ⟨hlen, texts, hrev, htexts⟩ := Client.of_verifyRound hv
    obtain ⟨hm, hn⟩ := Client.of_verifyTexts htexts
    exact ⟨hlen, texts, Client.forall₂_of_revealMessages hrev, hm, nodup_headers_iff hm hn⟩

/-- What participant 1 of `maliciousActions` remembers when the round is done. -/
def twoSnapshot (messages : List Msg) : Snapshot where
  revealKeyHashes := [keyOne.hash exactEnv, keyOne.hash exactEnv]
  revealKeyHashesRound := 0
  messagesBeforeReveal := messages
  numberOfMessagesWhenScrambled := 2

/-- A message of one byte, padded. -/
def onePadded : Msg := ⟨[1, 1, 0] ++ List.replicate 8 13 ++ List.replicate 8 9 ++ [65]⟩

/-- An empty message and one of one byte. -/
theorem distinct_headers_iff_two :
    Client.sendRoundResult exactEnv ⟨1, 2⟩ (twoDone pairCrypto [emptyPadded, onePadded]) 1
        (twoSnapshot [emptyPadded, onePadded]) =
      .ok (some { round := 0, succeeded := true, messages := [[65]] }) ∧
    ∃ texts, List.Forall₂ (fun m b => ∃ mo, some pairCrypto = some mo ∧
        mo.extractMsg ((twoRound pairCrypto [emptyPadded, onePadded]).decryptAll mo m) = .ok b)
        [emptyPadded, onePadded] texts ∧
      (∀ b ∈ texts, Marked b) ∧
      ((texts.map (List.take 16)).Nodup ↔ texts.Pairwise fun a b =>
        a.length = 16 ∨ b.length = 16 → a.take 16 ≠ b.take 16) := by
  have hres : Client.sendRoundResult exactEnv ⟨1, 2⟩
      (twoDone pairCrypto [emptyPadded, onePadded]) 1 (twoSnapshot [emptyPadded, onePadded]) =
      .ok (some { round := 0, succeeded := true, messages := [[65]] }) := by decide +kernel
  exact ⟨hres, (distinct_headers_iff rfl rfl (by decide) hres rfl rfl).2⟩

/-- Participant 2 copies the empty message of participant 1, and participant 1 reports a success. -/
theorem not_distinct_headers_copied :
    (∃ w, World.Reachable exactEnv ⟨1, 2⟩ w ∧ Attends w.session 0 ∧
      Task.sendRoundResult (twoDone pairCrypto [emptyPadded, emptyPadded]) 1
        (twoSnapshot [emptyPadded, emptyPadded]) ∈ w.session.tasks ∧
      w.session.results exactEnv ⟨1, 2⟩ 0 = [.ok (some { round := 0, succeeded := true })]) ∧
    ¬ ∀ (env : Env) (c : Client) (sm : StateMachine) (round : ℤ) (snap : Snapshot)
      (ri : RoundInfo) (res : RoundResult), sm.getRoundInfo (round - 1) = .ok ri →
      ri.phase = .done → c.id ∈ ri.participants →
      c.sendRoundResult env sm round snap = .ok (some res) → res.succeeded = true →
      res.maliciousError = none →
      ri.messages.length = snap.numberOfMessagesWhenScrambled ∧
        ∃ texts, List.Forall₂ (fun m b => ∃ mo, ri.crypto = some mo ∧
            mo.extractMsg (ri.decryptAll mo m) = .ok b) ri.messages texts ∧
          (∀ b ∈ texts, Marked b) ∧ (texts.map (List.take 16)).Nodup := by
  obtain ⟨w, hw, htest⟩ : ∃ w, run (World.step exactEnv ⟨1, 2⟩) {}
        (maliciousActions emptyPadded) = .ok w ∧
      decide (Attends w.session 0 ∧
        Task.sendRoundResult (twoDone pairCrypto [emptyPadded, emptyPadded]) 1
          (twoSnapshot [emptyPadded, emptyPadded]) ∈ w.session.tasks ∧
        w.session.results exactEnv ⟨1, 2⟩ 0 = [.ok (some { round := 0, succeeded := true })]) =
        true :=
    exists_of_endsWith (by decide +kernel)
  refine ⟨⟨w, ⟨_, hw⟩, of_decide_eq_true htest⟩, fun h => ?_⟩
  obtain ⟨-, texts, htexts, -, hn⟩ := h exactEnv ⟨1, 2⟩
    (twoDone pairCrypto [emptyPadded, emptyPadded]) 1 (twoSnapshot [emptyPadded, emptyPadded])
    (twoRound pairCrypto [emptyPadded, emptyPadded]) { round := 0, succeeded := true } rfl rfl
    (by decide) (by decide +kernel) rfl rfl
  -- both texts are extracted from the same message
  obtain ⟨a, rest, ⟨mo, hmo, ha⟩, hrest, rfl⟩ := List.forall₂_cons_left_iff.1 htexts
  obtain ⟨b, rest, ⟨mo', hmo', hb⟩, hrest, rfl⟩ := List.forall₂_cons_left_iff.1 hrest
  obtain rfl := Option.some.inj (hmo.symm.trans hmo')
  obtain rfl := Except.ok.inj (ha.symm.trans hb)
  simp at hn

end EggScrambler
