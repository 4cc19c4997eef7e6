import Mathlib
import EggScrambler.Order

/-!
# Submissions and reveals in any order

In the submit phase and in the reveal phase every participant fills its own entry of a list, and
the last entry that was missing ends the phase.  Operations that fill different entries can be
exchanged: an operation that is still to come has an empty entry, so the phase cannot end before it.

`Slots` is what the two phases have in common.
-/

namespace EggScrambler

open StateMachine Transition

/-- A phase in which participants fill entries, each with one payload. -/
structure Slots (α : Type) where
  phase : Phase
  op : UUID → ℤ → α → Op
  /-- The round after entry `p` was filled. -/
  put : RoundInfo → ℕ → α → RoundInfo
  /-- Entry `p` is still missing. -/
  Missing : RoundInfo → ℕ → Prop
  unfinished : ¬ (phase = .done ∨ phase = .failed)
  round_op : ∀ id r a, (op id r a).round = r
  accepts : ∀ {ri id p}, RoundInv ri → ri.phase = phase → ri.participantIndex id = some p →
    ∀ r a, Accepts ri (op id r a) (put ri p a)
  participants_put : ∀ ri p a, (put ri p a).participants = ri.participants
  /-- While another entry is missing, the phase goes on. -/
  phase_put : ∀ {ri p q a}, ri.phase = phase → p ≠ q → Missing ri q → (put ri p a).phase = phase
  missing_put : ∀ {ri p q a}, p ≠ q → Missing ri q → Missing (put ri p a) q
  put_comm : ∀ {ri p q a b}, p ≠ q → (put ri p a).phase = ri.phase → (put ri q b).phase = ri.phase →
    put (put ri p a) q b = put (put ri q b) p a

namespace Slots

variable {α : Type} (S : Slots α)

/-- The operations of a list can be applied, in any order. -/
structure Open (r : ℤ) (sm : StateMachine) (xs : List (UUID × α)) : Prop where
  inv : Inv sm
  nodup : (xs.map Prod.fst).Nodup
  missing : ∀ x ∈ xs, sm.round = r ∧ sm.currentRoundInfo.phase = S.phase ∧
    ∃ p, sm.currentRoundInfo.participantIndex x.1 = some p ∧ S.Missing sm.currentRoundInfo p

variable {S} {r : ℤ} {sm : StateMachine} {x y : UUID × α} {xs : List (UUID × α)}

theorem Open.perm {ys : List (UUID × α)} (hp : xs.Perm ys) (h : S.Open r sm xs) :
    S.Open r sm ys where
  inv := h.inv
  nodup := (hp.map Prod.fst).nodup_iff.1 h.nodup
  missing z hz := h.missing z (hp.mem_iff.2 hz)

/-- Different participants have different entries. -/
theorem index_ne {ri : RoundInfo} {id id' : UUID} {p q : ℕ} (hid : id ≠ id')
    (hp : ri.participantIndex id = some p) (hq : ri.participantIndex id' = some q) : p ≠ q := by
  rintro rfl
  have heq := (RoundInfo.participantIndex_eq_some hp).symm.trans
    (RoundInfo.participantIndex_eq_some hq)
  exact hid (Option.some.inj heq)

theorem participantIndex_put (ri : RoundInfo) (p : ℕ) (a : α) (id : UUID) :
    (S.put ri p a).participantIndex id = ri.participantIndex id := by
  rw [RoundInfo.participantIndex, S.participants_put]
  rfl

theorem Open.index (h : S.Open r sm (x :: xs)) :
    ∃ p, sm.currentRoundInfo.participantIndex x.1 = some p := by
  obtain ⟨-, -, p, hp, -⟩ := h.missing x List.mem_cons_self
  exact ⟨p, hp⟩

/-- The first operation is accepted. -/
theorem Open.apply (h : S.Open r sm (x :: xs)) {p : ℕ}
    (hp : sm.currentRoundInfo.participantIndex x.1 = some p) :
    sm.apply (S.op x.1 r x.2) = .ok (sm.advance (S.put sm.currentRoundInfo p x.2), true) ∧
      Inv (sm.advance (S.put sm.currentRoundInfo p x.2)) := by
  obtain ⟨hr, hph, -⟩ := h.missing x List.mem_cons_self
  have ha := S.accepts h.inv.current hph hp r x.2
  exact ⟨apply_of_accepts ((S.round_op _ _ _).trans hr.symm) ha, h.inv.advance ha⟩

/-- If another operation is to come, the phase goes on. -/
theorem Open.advance (h : S.Open r sm (x :: xs)) (hy : y ∈ xs) {p : ℕ}
    (hp : sm.currentRoundInfo.participantIndex x.1 = some p) :
    (S.put sm.currentRoundInfo p x.2).phase = S.phase ∧
      sm.advance (S.put sm.currentRoundInfo p x.2) =
        sm.setCurrent (S.put sm.currentRoundInfo p x.2) ∧
      ∃ q, p ≠ q ∧ sm.currentRoundInfo.participantIndex y.1 = some q ∧
        S.Missing (S.put sm.currentRoundInfo p x.2) q := by
  obtain ⟨-, hph, q, hq, hmiss⟩ := h.missing y (List.mem_cons_of_mem _ hy)
  have hid : x.1 ≠ y.1 := fun heq =>
    (List.nodup_cons.1 h.nodup).1 (heq ▸ List.mem_map_of_mem hy)
  have hpq := index_ne hid hp hq
  have hput := S.phase_put (a := x.2) hph hpq hmiss
  exact ⟨hput, advance_unfinished (hput ▸ S.unfinished), q, hpq, hq, S.missing_put hpq hmiss⟩

theorem Open.advanced (h : S.Open r sm (x :: xs)) {p : ℕ}
    (hp : sm.currentRoundInfo.participantIndex x.1 = some p) :
    S.Open r (sm.advance (S.put sm.currentRoundInfo p x.2)) xs := by
  refine ⟨(h.apply hp).2, (List.nodup_cons.1 h.nodup).2, fun y hy => ?_⟩
  obtain ⟨hput, hadv, q, -, hq, hmiss⟩ := h.advance hy hp
  rw [hadv, round_setCurrent, currentRoundInfo_setCurrent h.inv.round_nonneg, participantIndex_put]
  exact ⟨(h.missing x List.mem_cons_self).1, hput, q, hq, hmiss⟩

/-- The first operation is accepted and leaves the others open. -/
theorem Open.step (h : S.Open r sm (x :: xs)) :
    ∃ t b, sm.apply (S.op x.1 r x.2) = .ok (t, b) ∧ S.Open r t xs := by
  obtain ⟨p, hp⟩ := h.index
  exact ⟨_, true, (h.apply hp).1, h.advanced hp⟩

/-- Two operations, one after the other. -/
theorem Open.run_two (h : S.Open r sm (x :: y :: xs)) {p q : ℕ}
    (hp : sm.currentRoundInfo.participantIndex x.1 = some p)
    (hq : sm.currentRoundInfo.participantIndex y.1 = some q) :
    run (fun sm x => sm.apply (S.op x.1 r x.2)) sm [x, y] =
      .ok (sm.advance (S.put (S.put sm.currentRoundInfo p x.2) q y.2)) := by
  have hadv := (h.advance List.mem_cons_self hp).2.1
  have hnext := h.advanced hp
  rw [hadv] at hnext
  have hcur := currentRoundInfo_setCurrent h.inv.round_nonneg (S.put sm.currentRoundInfo p x.2)
  have happly := (hnext.apply (p := q) (by rw [hcur, participantIndex_put]; exact hq)).1
  rw [hcur, advance_setCurrent h.inv.round_nonneg] at happly
  refine run_cons_iff.2 ⟨_, (h.apply hp).1, ?_⟩
  rw [hadv]
  exact run_cons_iff.2 ⟨_, happly, rfl⟩

/-- They can be exchanged. -/
theorem Open.swap (h : S.Open r sm (x :: y :: xs)) :
    run (fun sm x => sm.apply (S.op x.1 r x.2)) sm [x, y] =
      run (fun sm x => sm.apply (S.op x.1 r x.2)) sm [y, x] := by
  have h' := h.perm (List.Perm.swap y x xs)
  obtain ⟨p, hp⟩ := h.index
  obtain ⟨q, hq⟩ := h'.index
  obtain ⟨hph, _, q', hpq, hq', _⟩ := h.advance List.mem_cons_self hp
  have hph' := (h'.advance List.mem_cons_self hq).1
  have hcur := (h.missing x List.mem_cons_self).2.1
  cases hq.symm.trans hq'
  rw [h.run_two hp hq, h'.run_two hq hp,
    S.put_comm hpq (hph.trans hcur.symm) (hph'.trans hcur.symm)]

/-- All orders end in one state. -/
theorem Open.exists_run (h : S.Open r sm xs) : ∃ t, ∀ ys : List (UUID × α), ys.Perm xs →
    run StateMachine.apply sm (ys.map fun x => S.op x.1 r x.2) = .ok t := by
  obtain ⟨t, ht⟩ := Transition.exists_run (fun _ _ _ => Open.step) h
  refine ⟨t, fun ys hperm => ?_⟩
  rw [run_map, ← ht]
  exact (run_perm (fun _ _ _ => Open.step) (fun _ _ _ hp => Open.perm hp)
    (fun _ _ _ _ => Open.swap) hperm.symm h).symm

end Slots

theorem any_set_of_ne {α : Type} {f : α → Bool} {xs : List α} {p q : ℕ} {a x : α} (hpq : p ≠ q)
    (hq : xs[q]? = some x) (hx : f x = true) : (xs.set p a).any f = true := by
  refine List.any_eq_true.2 ⟨x, ?_, hx⟩
  exact List.mem_of_getElem? ((List.getElem?_set_ne hpq).trans hq)

/-- The submit phase, with messages and hashes. -/
def Slots.messages : Slots (Msg × Bytes) where
  phase := .submit
  op id r x := .message id r x.1 x.2
  put ri p x := ri.putMessage p x.1 x.2
  Missing ri p := ∃ m, ri.messages[p]? = some m ∧ m.isNil = true
  unfinished := by simp
  round_op _ _ _ := rfl
  accepts h hph hp r x := by
    have hlt := RoundInfo.participantIndex_lt hp
    exact .message hph hp (by rw [h.messages_length (by rw [hph]; decide)]; exact hlt)
      (by rw [h.hashes_length]; exact hlt)
  participants_put _ _ _ := rfl
  phase_put := by
    rintro ri p q x hph hpq ⟨m, hm, hnil⟩
    rw [RoundInfo.putMessage, any_set_of_ne hpq hm hnil]
    exact hph
  missing_put := by
    rintro ri p q x hpq ⟨m, hm, hnil⟩
    exact ⟨m, (List.getElem?_set_ne hpq).trans hm, hnil⟩
  put_comm := by
    intro ri p q x y hpq hx hy
    have hmessages : (ri.messages.set p x.1).set q y.1 = (ri.messages.set q y.1).set p x.1 :=
      List.set_comm _ _ hpq
    have hhashes : (ri.revealKeyHashes.set p x.2).set q y.2 =
        (ri.revealKeyHashes.set q y.2).set p x.2 := List.set_comm _ _ hpq
    simp only [RoundInfo.putMessage] at hx hy ⊢
    simp only [hx, hy, hmessages, hhashes]

/-- The reveal phase, with keys. -/
def Slots.keys : Slots PrivateKey where
  phase := .reveal
  op id r key := .reveal id r key
  put := RoundInfo.putKey
  Missing ri p := ∃ k, ri.revealedKeys[p]? = some k ∧ k.isNil = true
  unfinished := by simp
  round_op _ _ _ := rfl
  accepts h hph hp r key := .reveal hph hp (by
    rw [h.keys_length]
    exact RoundInfo.participantIndex_lt hp)
  participants_put _ _ _ := rfl
  phase_put := by
    rintro ri p q key hph hpq ⟨k, hk, hnil⟩
    rw [RoundInfo.putKey, any_set_of_ne hpq hk hnil]
    exact hph
  missing_put := by
    rintro ri p q key hpq ⟨k, hk, hnil⟩
    exact ⟨k, (List.getElem?_set_ne hpq).trans hk, hnil⟩
  put_comm := by
    intro ri p q x y hpq hx hy
    have hkeys : (ri.revealedKeys.set p x).set q y = (ri.revealedKeys.set q y).set p x :=
      List.set_comm _ _ hpq
    simp only [RoundInfo.putKey] at hx hy ⊢
    simp only [hx, hy, hkeys]

/-- **Independent operations commute.** In a reachable submit phase, messages of different
participants whose entries are still empty lead to the same state in any order; and so do keys in a
reachable reveal phase, also when the last one ends the round. -/
theorem submissions_and_reveals_commute {sm : StateMachine} (h : Reachable sm) :
    (sm.currentRoundInfo.phase = .submit → ∀ xs : List (UUID × Msg × Bytes),
      (xs.map Prod.fst).Nodup →
      (∀ x ∈ xs, ∃ p m, sm.currentRoundInfo.participantIndex x.1 = some p ∧
        sm.currentRoundInfo.messages[p]? = some m ∧ m.isNil = true) →
      ∃ t, ∀ ys : List (UUID × Msg × Bytes), ys.Perm xs →
        run apply sm (ys.map fun x => .message x.1 sm.round x.2.1 x.2.2) = .ok t) ∧
    (sm.currentRoundInfo.phase = .reveal → ∀ xs : List (UUID × PrivateKey),
      (xs.map Prod.fst).Nodup →
      (∀ x ∈ xs, ∃ p k, sm.currentRoundInfo.participantIndex x.1 = some p ∧
        sm.currentRoundInfo.revealedKeys[p]? = some k ∧ k.isNil = true) →
      ∃ t, ∀ ys : List (UUID × PrivateKey), ys.Perm xs →
        run apply sm (ys.map fun x => .reveal x.1 sm.round x.2) = .ok t) := by
  refine ⟨fun hph xs hnd hmiss => ?_, fun hph xs hnd hmiss => ?_⟩
  · refine Slots.Open.exists_run (S := Slots.messages) ⟨h.inv, hnd, fun x hx => ?_⟩
    obtain ⟨p, m, hp, hm, hnil⟩ := hmiss x hx
    exact ⟨rfl, hph, p, hp, m, hm, hnil⟩
  · refine Slots.Open.exists_run (S := Slots.keys) ⟨h.inv, hnd, fun x hx => ?_⟩
    obtain ⟨p, k, hp, hk, hnil⟩ := hmiss x hx
    exact ⟨rfl, hph, p, hp, k, hk, hnil⟩

theorem reachable_begun : Reachable (begun [1, 2] ⟨[7]⟩) :=
  ⟨[.join 1 0, .join 2 0, .start 1 0 (some ⟨[7]⟩)], run_of_endsIn (by decide +kernel)⟩

/-- Two participants get to the reveal phase. -/
def revealLog : List Op :=
  let ms : List Msg := [⟨[5]⟩, ⟨[3]⟩]
  [.join 1 0, .join 2 0, .start 1 0 (some ⟨[7]⟩), .message 1 0 ⟨[5]⟩ [8], .message 2 0 ⟨[3]⟩ [9],
    .encrypted 1 0 ms 0, .encrypted 2 0 ms 1, .scrambled 1 0 ms, .scrambled 2 0 ms,
    .decrypted 1 0 ms 0, .decrypted 2 0 ms 1]

/-- Two participants submit, and two reveal, after which the round is over. -/
theorem submissions_and_reveals_commute_two :
    (∃ t, ∀ ys : List (UUID × Msg × Bytes), ys.Perm [(1, ⟨[5]⟩, [8]), (2, ⟨[3]⟩, [9])] →
      run apply (begun [1, 2] ⟨[7]⟩) (ys.map fun x => .message x.1 0 x.2.1 x.2.2) = .ok t) ∧
    ∃ sm, run apply newStateMachine revealLog = .ok sm ∧ sm.currentRoundInfo.phase = .reveal ∧
      ∃ t, ∀ ys : List (UUID × PrivateKey), ys.Perm [(1, ⟨[1], [1]⟩), (2, ⟨[2], [3]⟩)] →
        run apply sm (ys.map fun x => .reveal x.1 sm.round x.2) = .ok t := by
  constructor
  · refine (submissions_and_reveals_commute reachable_begun).1 (by decide) _ (by decide) ?_
    rw [List.forall_mem_cons, List.forall_mem_singleton]
    exact ⟨⟨0, nilMsg, by decide, by decide, rfl⟩, ⟨1, nilMsg, by decide, by decide, rfl⟩⟩
  · obtain ⟨sm, hsm, htest⟩ := exists_of_endsWith (by decide +kernel :
      endsWith apply newStateMachine revealLog (fun sm =>
        decide (sm.currentRoundInfo.phase = .reveal ∧
          sm.currentRoundInfo.participantIndex 1 = some 0 ∧
          sm.currentRoundInfo.participantIndex 2 = some 1 ∧
          sm.currentRoundInfo.revealedKeys = [nilPrivateKey, nilPrivateKey])) = true)
    obtain ⟨hph, hp₁, hp₂, hkeys⟩ := of_decide_eq_true htest
    refine ⟨sm, hsm, hph,
      (submissions_and_reveals_commute ⟨_, hsm⟩).2 hph _ (by decide) ?_⟩
    rw [List.forall_mem_cons, List.forall_mem_singleton]
    exact ⟨⟨0, nilPrivateKey, hp₁, by rw [hkeys]; rfl, rfl⟩,
      ⟨1, nilPrivateKey, hp₂, by rw [hkeys]; rfl, rfl⟩⟩

end EggScrambler
