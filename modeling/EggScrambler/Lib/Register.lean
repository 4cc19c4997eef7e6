import Mathlib

/-!
# Versioned registers

A register that keeps the value with the highest version written so far, the time of that write, and
the time at which the `key` of the held value last changed.  Writes arrive in any order; one with a
version that is not higher than the held one is dropped.

* `version_le_run`, `run_mem`: the register holds the written value with the highest version.
* `changed_run`: if a key that is left is not entered again in the order of the versions (`Convex`),
  the time of the last change is that of the first accepted write with the held key, however writes
  are dropped or reordered.
-/

namespace VersionedRegister

variable {σ τ κ : Type}

/-- In the order of the versions, a key that is left is not entered again. -/
def Convex (key : σ → κ) (xs : List (ℤ × σ)) : Prop :=
  ∀ x ∈ xs, ∀ y ∈ xs, ∀ z ∈ xs, x.1 ≤ y.1 → y.1 ≤ z.1 → key x.2 = key z.2 → key y.2 = key x.2

theorem Convex.mono {key : σ → κ} {xs ys : List (ℤ × σ)} (h : Convex key ys) (hsub : xs ⊆ ys) :
    Convex key xs :=
  fun x hx y hy z hz => h x (hsub hx) y (hsub hy) z (hsub hz)

structure Register (σ τ : Type) where
  value : σ
  version : ℤ
  /-- When the value was written. -/
  stamp : τ
  /-- When the key of the value changed. -/
  changed : τ

structure Write (σ τ : Type) where
  value : σ
  version : ℤ
  now : τ

variable [DecidableEq κ]

def Register.write (key : σ → κ) (r : Register σ τ) (w : Write σ τ) : Register σ τ :=
  if r.version < w.version then
    { value := w.value
      version := w.version
      stamp := w.now
      changed := if key w.value = key r.value then r.changed else w.now }
  else r

/-- The register after some writes. -/
def run (key : σ → κ) (r : Register σ τ) (ws : List (Write σ τ)) : Register σ τ :=
  ws.foldl (Register.write key) r

/-- The writes that are not dropped. -/
def accepted (key : σ → κ) (r : Register σ τ) : List (Write σ τ) → List (Write σ τ)
  | [] => []
  | w :: ws =>
    if r.version < w.version then w :: accepted key (r.write key w) ws else accepted key r ws

section Run

variable {key : σ → κ} {r : Register σ τ} {w : Write σ τ} {ws : List (Write σ τ)}

theorem write_of_lt (h : r.version < w.version) : r.write key w =
    ⟨w.value, w.version, w.now, if key w.value = key r.value then r.changed else w.now⟩ :=
  if_pos h

theorem write_of_le (h : w.version ≤ r.version) : r.write key w = r := if_neg (not_lt.2 h)

theorem run_cons (w : Write σ τ) (ws : List (Write σ τ)) :
    run key r (w :: ws) = run key (r.write key w) ws := rfl

theorem run_append (ws ws' : List (Write σ τ)) :
    run key r (ws ++ ws') = run key (run key r ws) ws' := List.foldl_append

theorem run_append_singleton (ws : List (Write σ τ)) (w : Write σ τ) :
    run key r (ws ++ [w]) = (run key r ws).write key w := run_append ws [w]

theorem accepted_append (ws : List (Write σ τ)) (w : Write σ τ) :
    accepted key r (ws ++ [w]) = accepted key r ws ++
      if (run key r ws).version < w.version then [w] else [] := by
  induction ws generalizing r with
  | nil => rfl
  | cons x ws ih =>
    rw [List.cons_append, accepted, accepted, run_cons]
    by_cases hx : r.version < x.version
    · rw [if_pos hx, if_pos hx, ih, List.cons_append]
    · rw [if_neg hx, if_neg hx, ih, write_of_le (not_lt.1 hx)]

theorem version_le_write (key : σ → κ) (r : Register σ τ) (w : Write σ τ) :
    r.version ≤ (r.write key w).version ∧ w.version ≤ (r.write key w).version := by
  rcases lt_or_ge r.version w.version with h | h
  · rw [write_of_lt h]
    exact ⟨h.le, le_rfl⟩
  · rw [write_of_le h]
    exact ⟨le_rfl, h⟩

/-- Versions never go back, and no written version is higher than the held one. -/
theorem version_le_run (key : σ → κ) (r : Register σ τ) (ws : List (Write σ τ)) :
    r.version ≤ (run key r ws).version ∧ ∀ w ∈ ws, w.version ≤ (run key r ws).version := by
  induction ws generalizing r with
  | nil => simp [run]
  | cons x ws ih =>
    have hx := version_le_write key r x
    have hrest := ih (r.write key x)
    refine ⟨hx.1.trans hrest.1, List.forall_mem_cons.2 ⟨hx.2.trans hrest.1, hrest.2⟩⟩

/-- What can be held: the initial value and the written ones, with their versions. -/
def candidates (r : Register σ τ) (ws : List (Write σ τ)) : List (ℤ × σ) :=
  (r.version, r.value) :: ws.map fun w => (w.version, w.value)

theorem candidates_append (ws ws' : List (Write σ τ)) : candidates r (ws ++ ws') =
    candidates r ws ++ ws'.map fun w => (w.version, w.value) := by simp [candidates]

/-- The held value is one of those. -/
theorem run_mem (key : σ → κ) (r : Register σ τ) (ws : List (Write σ τ)) :
    ((run key r ws).version, (run key r ws).value) ∈ candidates r ws := by
  induction ws using List.reverseRecOn with
  | nil => simp [run, candidates]
  | append_singleton ws w ih =>
    rw [run_append_singleton, candidates_append, List.mem_append]
    by_cases h : (run key r ws).version < w.version
    · right
      rw [write_of_lt h]
      exact List.mem_singleton_self _
    · left
      rwa [write_of_le (not_lt.1 h)]

/-- Accepted writes are among the writes. -/
theorem accepted_subset (key : σ → κ) (r : Register σ τ) (ws : List (Write σ τ)) :
    accepted key r ws ⊆ ws := by
  induction ws generalizing r with
  | nil => simp [accepted]
  | cons x ws ih =>
    rw [accepted]
    split_ifs
    · exact List.cons_subset_cons _ (ih _)
    · exact List.subset_cons_of_subset _ (ih _)

theorem candidates_subset (ws ws' : List (Write σ τ)) :
    candidates r ws ⊆ candidates r (ws ++ ws') := by
  rw [candidates_append]
  exact List.subset_append_left _ _

theorem le_version_of_mem {x : ℤ × σ} (hx : x ∈ candidates r ws) :
    x.1 ≤ (run key r ws).version := by
  rcases List.mem_cons.1 hx with rfl | hx
  · exact (version_le_run key r ws).1
  · obtain ⟨w, hw, rfl⟩ := List.mem_map.1 hx
    exact (version_le_run key r ws).2 w hw

/-- A write that changes the key brings in a key that has not been written before. -/
theorem key_ne_of_change (h : Convex key (candidates r (ws ++ [w])))
    (hlt : (run key r ws).version < w.version)
    (hkey : ¬ key w.value = key (run key r ws).value) :
    ∀ x ∈ candidates r ws, ¬ key x.2 = key w.value := by
  intro x hx heq
  have hw : (w.version, w.value) ∈ candidates r (ws ++ [w]) := by simp [candidates]
  have hsub : candidates r ws ⊆ candidates r (ws ++ [w]) := candidates_subset ws [w]
  have hheld : key (run key r ws).value = key x.2 :=
    h x (hsub hx) _ (hsub (run_mem key r ws)) _ hw (le_version_of_mem hx) hlt.le heq
  exact hkey (heq.symm.trans hheld.symm)

/-- The time at which the held key was first stored by an accepted write, or the time that the
register was created with. -/
theorem changed_run (h : Convex key (candidates r ws)) :
    if key (run key r ws).value = key r.value then (run key r ws).changed = r.changed
    else ((accepted key r ws).find? fun w => key w.value = key (run key r ws).value).map Write.now =
      some (run key r ws).changed := by
  induction ws using List.reverseRecOn with
  | nil => simp [run]
  | append_singleton ws w ih =>
    specialize ih (h.mono (candidates_subset ws [w]))
    rw [run_append_singleton, accepted_append]
    by_cases hlt : (run key r ws).version < w.version
    · rw [write_of_lt hlt, if_pos hlt]
      by_cases hkey : key w.value = key (run key r ws).value
      · -- the key stays
        simp only [hkey, if_true]
        split_ifs at ih ⊢ with h₀
        · exact ih
        · rw [List.find?_append]
          obtain ⟨x, hx, hnow⟩ := Option.map_eq_some_iff.1 ih
          rw [hx, Option.some_or, Option.map_some, hnow]
      · -- the key is new, and so this is the first write of it
        have hnew := key_ne_of_change h hlt hkey
        have hinit : ¬ key w.value = key r.value := fun heq =>
          hnew _ List.mem_cons_self heq.symm
        have hnone : (accepted key r ws).find? (fun x => key x.value = key w.value) = none := by
          rw [List.find?_eq_none]
          intro x hx heq
          have hx' : (x.version, x.value) ∈ candidates r ws :=
            List.mem_cons_of_mem _ (List.mem_map_of_mem (accepted_subset key r ws hx))
          exact hnew _ hx' (of_decide_eq_true heq)
        simp only [if_neg hkey, if_neg hinit, List.find?_append, hnone]
        simp
    · rw [write_of_le (not_lt.1 hlt), if_neg hlt, List.append_nil]
      exact ih

end Run

end VersionedRegister
