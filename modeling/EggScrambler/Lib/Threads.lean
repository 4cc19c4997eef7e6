import Mathlib

/-!
# Lists of threads

The local states of threads as a list, in which one thread at a time goes on.

* `exists_split`: a thread and the others.
* `getElem?_set_cases`, `mem_set_of_ne`: who is where after a thread went on.
* `sum_map_set`: what a sum over all threads becomes.
* `filterMap_set`, `perm_filterMap_set`, `eq_of_nodup_filterMap`: what threads own.
* `Holder`: the lock `mu` is held by the thread that is in its critical section, and by no other;
  the rules say what has to be seen to when a thread goes on.
-/

namespace Threads

variable {α : Type} {l : List α} {i k : ℕ} {x y z : α}

theorem exists_split (h : l[k]? = some x) :
    ∃ l₁ l₂, l = l₁ ++ x :: l₂ ∧ ∀ y, l.set k y = l₁ ++ y :: l₂ := by
  obtain ⟨hlt, rfl⟩ := List.getElem?_eq_some_iff.1 h
  refine ⟨l.take k, l.drop (k + 1), by simp, fun y => ?_⟩
  rw [List.set_eq_take_append_cons_drop, if_pos hlt]

theorem getElem?_set_self (h : l[k]? = some x) (y : α) : (l.set k y)[k]? = some y := by
  rw [List.getElem?_set, if_pos rfl, if_pos (List.getElem?_eq_some_iff.1 h).1]

theorem getElem?_set_cases (h : (l.set k y)[i]? = some z) :
    (i = k ∧ z = y) ∨ (i ≠ k ∧ l[i]? = some z) := by
  rw [List.getElem?_set] at h
  split_ifs at h with hik hlt
  · exact Or.inl ⟨hik.symm, (Option.some.inj h).symm⟩
  · exact Or.inr ⟨Ne.symm hik, h⟩

theorem sum_map_set (f : α → ℕ) (h : l[k]? = some x) (y : α) :
    ((l.set k y).map f).sum + f x = (l.map f).sum + f y := by
  obtain ⟨l₁, l₂, hl, hset⟩ := exists_split h
  rw [hset, hl]
  simp only [List.map_append, List.map_cons, List.sum_append, List.sum_cons]
  omega

/-- The others stay. -/
theorem mem_set_of_ne (h : l[k]? = some x) (hz : z ∈ l) (hne : z ≠ x) (y : α) :
    z ∈ l.set k y := by
  obtain ⟨l₁, l₂, hl, hset⟩ := exists_split h
  rw [hl, List.mem_append, List.mem_cons] at hz
  rw [hset, List.mem_append, List.mem_cons]
  exact hz.imp_right fun hz => Or.inr (hz.resolve_left hne)

/-- A thread goes on and owns what it owned. -/
theorem filterMap_set {β : Type} {f : α → Option β} (h : l[k]? = some x) (hy : f y = f x) :
    (l.set k y).filterMap f = l.filterMap f := by
  obtain ⟨l₁, l₂, hl, hset⟩ := exists_split h
  rw [hset, hl, List.filterMap_append, List.filterMap_append, List.filterMap_cons,
    List.filterMap_cons, hy]

/-- A thread gets something. -/
theorem perm_filterMap_set {β : Type} {f : α → Option β} (h : l[k]? = some x) (hx : f x = none)
    {b : β} (hy : f y = some b) : ((l.set k y).filterMap f).Perm (l.filterMap f ++ [b]) := by
  obtain ⟨l₁, l₂, hl, hset⟩ := exists_split h
  rw [hset, hl, List.filterMap_append, List.filterMap_append, List.filterMap_cons_some hy,
    List.filterMap_cons_none hx]
  exact List.perm_middle.trans (List.perm_append_singleton _ _).symm

/-- No two threads own one thing. -/
theorem eq_of_nodup_filterMap {β : Type} {f : α → Option β} (hnd : (l.filterMap f).Nodup)
    (hi : l[i]? = some x) (hk : l[k]? = some y) {b : β} (hx : f x = some b) (hy : f y = some b) :
    i = k := by
  rw [List.Nodup, List.pairwise_filterMap, List.pairwise_iff_getElem] at hnd
  obtain ⟨hilt, rfl⟩ := List.getElem?_eq_some_iff.1 hi
  obtain ⟨hklt, rfl⟩ := List.getElem?_eq_some_iff.1 hk
  rcases lt_trichotomy i k with hlt | heq | hlt
  · exact absurd rfl (hnd i k hilt hklt hlt b hx b hy)
  · exact heq
  · exact absurd rfl (hnd k i hklt hilt hlt b hy b hx)

/-- The owner of the lock is the thread at a place that satisfies `P`. -/
def Holder (P : α → Prop) (mu : Option ℕ) (l : List α) : Prop :=
  ∀ k, mu = some k ↔ ∃ x, l[k]? = some x ∧ P x

namespace Holder

variable {P : α → Prop} {mu mu' : Option ℕ}

theorem nil (P : α → Prop) : Holder P none [] := fun k => by simp

theorem eq_some (h : Holder P mu l) (hk : l[k]? = some x) (hx : P x) : mu = some k :=
  (h k).2 ⟨x, hk, hx⟩

theorem unique (h : Holder P mu l) (hk : l[k]? = some x) (hx : P x) (hi : l[i]? = some y)
    (hy : P y) : i = k :=
  Option.some.inj ((h.eq_some hi hy).symm.trans (h.eq_some hk hx))

theorem not_of_none (h : Holder P none l) (hk : l[k]? = some x) : ¬ P x := fun hx => by
  cases h.eq_some hk hx

/-- A new thread is not in its critical section. -/
theorem append (h : Holder P mu l) (hy : ¬ P y) : Holder P mu (l ++ [y]) := by
  intro k
  rw [h k]
  constructor
  · rintro ⟨x, hk, hx⟩
    exact ⟨x, by rwa [List.getElem?_append_left (List.getElem?_eq_some_iff.1 hk).1], hx⟩
  · rintro ⟨x, hk, hx⟩
    rw [List.getElem?_append] at hk
    split_ifs at hk
    · exact ⟨x, hk, hx⟩
    · rw [List.mem_singleton.1 (List.mem_of_getElem? hk)] at hx
      exact absurd hx hy

/-- A thread goes on, and the lock changes hands at most with it. -/
theorem set (h : Holder P mu l) (hk : l[k]? = some x) (hself : mu' = some k ↔ P y)
    (hother : ∀ j ≠ k, mu' = some j ↔ mu = some j) : Holder P mu' (l.set k y) := by
  intro j
  rcases eq_or_ne j k with rfl | hne
  · simp [getElem?_set_self hk, hself]
  · rw [List.getElem?_set_ne hne.symm]
    exact (hother j hne).trans (h j)

/-- A thread gets the lock. -/
theorem acquire (h : Holder P none l) (hk : l[k]? = some x) (hy : P y) :
    Holder P (some k) (l.set k y) :=
  h.set hk (by simp [hy]) fun j hne => by simp [hne.symm]

/-- The owner gives the lock back. -/
theorem release (h : Holder P mu l) (hk : l[k]? = some x) (hx : P x) (hy : ¬ P y) :
    Holder P none (l.set k y) :=
  h.set hk (by simp [hy]) fun j hne => by simp [h.eq_some hk hx, hne.symm]

/-- A thread goes on without the lock. -/
theorem idle (h : Holder P mu l) (hk : l[k]? = some x) (hx : ¬ P x) (hy : ¬ P y) :
    Holder P mu (l.set k y) := by
  refine h.set hk ⟨fun hmu => ?_, fun hy' => absurd hy' hy⟩ fun _ _ => Iff.rfl
  obtain ⟨z, hz, hPz⟩ := (h k).1 hmu
  rw [hk] at hz
  cases hz
  exact absurd hPz hx

/-- The owner goes on and keeps the lock. -/
theorem keep (h : Holder P mu l) (hk : l[k]? = some x) (hx : P x) (hy : P y) :
    Holder P mu (l.set k y) :=
  h.set hk (by simp [h.eq_some hk hx, hy]) fun _ _ => Iff.rfl

end Holder

end Threads
