import Mathlib

/-!
# Permutations of the positions of a list

`permute σ l` moves the entry at position `σ i` to position `i`.  Every rearrangement of a list is
of this form (`exists_permute_eq`).
-/

namespace Permute

variable {α : Type} {n : ℕ}

/-- Rearrange a list of length `n`; a list of another length is left alone. -/
def permute (σ : Equiv.Perm (Fin n)) (l : List α) : List α :=
  if h : l.length = n then List.ofFn fun i => l.get ((σ i).cast h.symm) else l

theorem permute_perm (σ : Equiv.Perm (Fin n)) (l : List α) : (permute σ l).Perm l := by
  unfold permute
  split_ifs with h
  · subst h
    have hperm := σ.ofFn_comp_perm l.get
    rwa [List.ofFn_get] at hperm
  · exact List.Perm.refl l

/-- Two tuples with the same entries differ by a permutation of their indices. -/
theorem exists_comp_eq {f g : Fin n → α} (h : (List.ofFn f).Perm (List.ofFn g)) :
    ∃ σ : Equiv.Perm (Fin n), f ∘ σ = g := by
  classical
  -- every value is taken equally often
  have hcard : ∀ c, Fintype.card { i // g i = c } = Fintype.card { i // f i = c } := by
    intro c
    have hcount := congrArg (Multiset.count c) (Multiset.coe_eq_coe.2 h)
    rw [← Fin.univ_val_map, ← Fin.univ_val_map, Multiset.count_map, Multiset.count_map] at hcount
    rw [Fintype.card_subtype, Fintype.card_subtype]
    simpa [Finset.card, eq_comm] using hcount.symm
  exact ⟨Equiv.ofFiberEquiv fun c => Fintype.equivOfCardEq (hcard c),
    funext fun i => Equiv.ofFiberEquiv_map _ i⟩

theorem exists_permute_eq {l l' : List α} (h : l.Perm l') (hlen : l.length = n) :
    ∃ σ : Equiv.Perm (Fin n), permute σ l = l' := by
  subst hlen
  have hl' : (List.ofFn fun i : Fin l.length => l'.get (i.cast h.length_eq)) = l' := by
    rw [List.ofFn_congr h.length_eq]
    exact List.ofFn_get l'
  have hget : (List.ofFn l.get).Perm
      (List.ofFn fun i : Fin l.length => l'.get (i.cast h.length_eq)) := by
    rwa [List.ofFn_get, hl']
  obtain ⟨σ, hσ⟩ := exists_comp_eq hget
  refine ⟨σ, ?_⟩
  rw [permute, dif_pos rfl]
  exact (congrArg List.ofFn hσ).trans hl'

end Permute
