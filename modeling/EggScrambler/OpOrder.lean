import Mathlib
import EggScrambler.EliminationQueue

/-!
# The order of operations

`compare` of `anonbcast/eliminationqueue.go` once more, with what can go wrong in it: the type
assertions on `b` and the assertion at its end.  None of them fails, so the results are those of
`compare`, which the queue uses (`compareChecked_eq`); and `compare` is the order of the ranks, from
which its laws are read off (`compare_totalPreorder`).
-/

namespace EggScrambler

/-- `b.(EncryptedOp)`, of which `Prev` is read. -/
def asEncryptedOp : Op → Go ℤ
  | .encrypted _ _ _ prev => .ok prev
  | _ => .error .typeAssertion

/-- `b.(DecryptedOp)`, of which `Prev` is read. -/
def asDecryptedOp : Op → Go ℤ
  | .decrypted _ _ _ prev => .ok prev
  | _ => .error .typeAssertion

/-- The two early returns on counters. -/
def comparePrev (prev prev' : ℤ) : Option OpComparison :=
  if prev < prev' then some .older
  else if prev > prev' then some .newer
  else none

/-- The type switch of `compare`: only the operations with a counter have an order among
themselves. -/
def compareWithin (a b : Op) : Go (Option OpComparison) :=
  match a with
  | .encrypted _ _ _ prev => (asEncryptedOp b).map (comparePrev prev)
  | .decrypted _ _ _ prev => (asDecryptedOp b).map (comparePrev prev)
  | _ => .ok none

/-- `compare`, which panics if a type assertion or, in debug mode, the last assertion fails. -/
def compareChecked (env : Env) (a b : Op) : Go OpComparison :=
  if a.round < b.round then .ok .older
  else if a.round > b.round then .ok .newer
  else if opIndex a < opIndex b then .ok .older
  else if opIndex a > opIndex b then .ok .newer
  else do
    match ← compareWithin a b with
    | some result => return result
    | none =>
      if a.type = b.type then return .equal
      else do
        assertf env False
        return .incomparable

theorem comparePrev_getD (prev prev' : ℤ) : (comparePrev prev prev').getD .equal =
    if prev < prev' then .older else if prev > prev' then .newer else .equal := by
  unfold comparePrev
  split_ifs <;> rfl

/-- In the type switch, operations of one type do not fail a type assertion. -/
theorem compareWithin_of_type {a b : Op} (h : a.type = b.type) :
    ∃ result, compareWithin a b = .ok result ∧ compareSameIndex a b = result.getD .equal := by
  cases a <;> cases b <;> first
    | exact ⟨none, rfl, rfl⟩
    | exact ⟨_, rfl, (comparePrev_getD _ _).symm⟩
    | cases h

/-- No assertion fails. -/
theorem compareChecked_eq (env : Env) (a b : Op) : compareChecked env a b = .ok (compare a b) := by
  by_cases hindex : a.round = b.round ∧ opIndex a = opIndex b
  · obtain ⟨hround, hindex⟩ := hindex
    have htype := type_eq_of_opIndex hindex
    obtain ⟨result, hwithin, hsame⟩ := compareWithin_of_type htype
    simp only [compareChecked, compare, hround, hindex, lt_irrefl, if_false, hwithin, hsame,
      htype, if_true]
    cases result <;> rfl
  · unfold compareChecked compare
    split_ifs <;> first
      | rfl
      | omega

theorem compare_congr {a a' b b' : Op} (ha : rank a = rank a') (hb : rank b = rank b') :
    compare a b = compare a' b' := by
  rcases compare_cases a' b' with ⟨hr, hc⟩ | ⟨hr, hc⟩ | ⟨hr, hc⟩
  · rw [hc, compare_older_iff, ha, hb]
    exact hr
  · rw [hc, compare_equal_iff, ha, hb]
    exact hr
  · rw [hc, compare_newer_iff, ha, hb]
    exact hr

theorem compare_ne_older_iff {a b : Op} : compare a b ≠ .older ↔ rank b ≤ rank a := by
  rw [Ne, compare_older_iff, not_lt]

/-- **A total preorder.** For any operations, `compare` does not panic and never answers that they
are incomparable; `newer` and `older` are converse to each other, to be equal is an equivalence
relation that respects all answers, to be newer is transitive, and to be at least as new is total
and transitive. -/
theorem compare_totalPreorder (a b c : Op) :
    (∀ env : Env, compareChecked env a b = .ok (compare a b)) ∧ compare a b ≠ .incomparable ∧
    (compare a b = .newer ↔ compare b a = .older) ∧
    Equivalence (fun a b => compare a b = .equal) ∧
    (compare a b = .equal → compare a c = compare b c ∧ compare c a = compare c b) ∧
    (compare a b = .newer → compare b c = .newer → compare a c = .newer) ∧
    (compare a b ≠ .older ∨ compare b a ≠ .older) ∧
    (compare a b ≠ .older → compare b c ≠ .older → compare a c ≠ .older) := by
  refine ⟨fun env => compareChecked_eq env a b, ?_, ?_, ?_, fun hab => ?_, ?_, ?_, ?_⟩
  · rcases compare_cases a b with ⟨-, hc⟩ | ⟨-, hc⟩ | ⟨-, hc⟩ <;> simp [hc]
  · rw [compare_newer_iff, compare_older_iff]
  · simp only [compare_equal_iff]
    exact ⟨fun _ => rfl, Eq.symm, Eq.trans⟩
  · rw [compare_equal_iff] at hab
    exact ⟨compare_congr hab rfl, compare_congr rfl hab⟩
  · simp only [compare_newer_iff]
    exact fun hab hbc => hbc.trans hab
  · simp only [compare_ne_older_iff]
    exact le_total _ _
  · simp only [compare_ne_older_iff]
    exact fun hab hbc => hbc.trans hab

/-- Three operations of one round, the newest first. -/
theorem compare_totalPreorder_three :
    compare (.abort 0) (.encrypted 1 0 [] 2) = .newer ∧
      compare (.encrypted 1 0 [] 2) (.encrypted 2 0 [] 1) = .newer ∧
      compare (.abort 0) (.encrypted 2 0 [] 1) = .newer :=
  have h₁ : compare (.abort 0) (.encrypted 1 0 [] 2) = .newer := by decide
  have h₂ : compare (.encrypted 1 0 [] 2) (.encrypted 2 0 [] 1) = .newer := by decide
  ⟨h₁, h₂, (compare_totalPreorder _ _ _).2.2.2.2.2.1 h₁ h₂⟩

end EggScrambler
