import Mathlib

/-!
# Logs applied to a machine

A machine consumes a log one entry at a time; a step may crash (`Except.error`) and reports whether
the entry had an effect.  `run` is the state after a log and `Leads` relates a state of a run to the
later ones.  `History ok init` records all the states of a run, newest first, in which every log
entry was permitted by `ok` given the states so far.

* `run_preserves`, `run_preserves_of`: what one step preserves holds after every log.
* `History.leads`, `History.forall_mem`: the same for recorded runs.
* `trace` computes the states that a log goes through, and `leads_total_of_mem_trace` orders them.
* `Busy.length_le`, `exists_busy_stuck`: with a measure that every effect lowers, runs come to an
  end.
-/

namespace Transition

variable {σ α ε : Type} (step : σ → α → Except ε (σ × Bool))

/-- The state after a log. -/
def run (s : σ) : List α → Except ε σ
  | [] => .ok s
  | a :: log =>
    match step s a with
    | .ok r => run r.1 log
    | .error e => .error e

/-- `t` is a later state of a run through `s`. -/
def Leads (s t : σ) : Prop := ∃ log, run step s log = .ok t

variable {step}

@[simp] theorem run_nil (s : σ) : run step s [] = .ok s := rfl

theorem run_cons_iff {s t : σ} {a : α} {log : List α} :
    run step s (a :: log) = .ok t ↔ ∃ r, step s a = .ok r ∧ run step r.1 log = .ok t := by
  rw [run]
  cases step s a <;> simp

theorem run_append_iff {s t : σ} {log₁ log₂ : List α} :
    run step s (log₁ ++ log₂) = .ok t ↔
      ∃ m, run step s log₁ = .ok m ∧ run step m log₂ = .ok t := by
  induction log₁ generalizing s with
  | nil => simp
  | cons a log₁ ih =>
    simp only [List.cons_append, run_cons_iff, ih]
    constructor
    · rintro ⟨r, hr, m, hm, ht⟩
      exact ⟨m, ⟨r, hr, hm⟩, ht⟩
    · rintro ⟨m, ⟨r, hr, hm⟩, ht⟩
      exact ⟨r, hr, m, hm, ht⟩

theorem run_two_cons (s : σ) (a b : α) (log : List α) : run step s (a :: b :: log) =
    (match run step s [a, b] with
      | .ok t => run step t log
      | .error e => .error e) := by
  simp only [run]
  rcases step s a with e | ⟨t, _⟩
  · rfl
  · rcases h : step t b with e | ⟨u, _⟩ <;> simp [h]

theorem run_map {β : Type} (f : β → α) (s : σ) (log : List β) :
    run step s (log.map f) = run (fun s b => step s (f b)) s log := by
  induction log generalizing s with
  | nil => rfl
  | cons b log ih =>
    rw [List.map_cons, run, run]
    rcases step s (f b) with e | r
    · rfl
    · exact ih _

theorem Leads.refl (s : σ) : Leads step s s := ⟨[], rfl⟩

theorem Leads.trans {s t u : σ} (h₁ : Leads step s t) (h₂ : Leads step t u) : Leads step s u := by
  obtain ⟨log₁, h₁⟩ := h₁
  obtain ⟨log₂, h₂⟩ := h₂
  exact ⟨log₁ ++ log₂, run_append_iff.2 ⟨t, h₁, h₂⟩⟩

theorem Leads.of_step {s t : σ} {a : α} {b : Bool} (h : step s a = .ok (t, b)) : Leads step s t :=
  ⟨[a], run_cons_iff.2 ⟨(t, b), h, rfl⟩⟩

/-- What the permitted steps preserve holds after every log of them. -/
theorem run_preserves_of (ok : α → Prop) {I : σ → Prop}
    (hstep : ∀ s a t b, I s → ok a → step s a = .ok (t, b) → I t) {s t : σ} {log : List α}
    (hlog : ∀ a ∈ log, ok a) (hs : I s) (h : run step s log = .ok t) : I t := by
  induction log generalizing s with
  | nil =>
    cases h
    exact hs
  | cons a log ih =>
    rw [List.forall_mem_cons] at hlog
    obtain ⟨r, hr, ht⟩ := run_cons_iff.1 h
    exact ih hlog.2 (hstep s a r.1 r.2 hs hlog.1 hr) ht

/-- What one step preserves holds after every log. -/
theorem run_preserves {I : σ → Prop}
    (hstep : ∀ s a t b, I s → step s a = .ok (t, b) → I t) {s t : σ} {log : List α}
    (hs : I s) (h : run step s log = .ok t) : I t :=
  run_preserves_of (fun _ => True) (fun s a t b hs _ => hstep s a t b hs) (fun _ _ => trivial) hs h

/-- The same for what is known of the log and the state. -/
theorem run_induction {I : List α → σ → Prop} {s t : σ} {log : List α} (hs : I [] s)
    (hstep : ∀ log t a u b, run step s log = .ok t → I log t → step t a = .ok (u, b) →
      I (log ++ [a]) u) (h : run step s log = .ok t) : I log t := by
  induction log using List.reverseRecOn generalizing t with
  | nil =>
    cases h
    exact hs
  | append_singleton log a ih =>
    obtain ⟨u, hu, h⟩ := run_append_iff.1 h
    obtain ⟨r, hr, h⟩ := run_cons_iff.1 h
    cases h
    exact hstep log u a r.1 r.2 hu (ih hu) hr

/-- If a step from an invariant state never crashes, no log crashes. -/
theorem run_total {I : σ → Prop}
    (hstep : ∀ s a, I s → ∃ t b, step s a = .ok (t, b) ∧ I t) {s : σ} (hs : I s)
    (log : List α) : ∃ t, run step s log = .ok t ∧ I t := by
  induction log generalizing s with
  | nil => exact ⟨s, rfl, hs⟩
  | cons a log ih =>
    obtain ⟨t, b, ht, hI⟩ := hstep s a hs
    obtain ⟨u, hu, hIu⟩ := ih hI
    exact ⟨u, run_cons_iff.2 ⟨(t, b), ht, hu⟩, hIu⟩

/-- **The turning point.** A run to a state with a property passes from a state without it to
a state with it in one step. -/
theorem Leads.exists_turn {P : σ → Prop} {s t : σ} (h : Leads step s t) (hs : ¬ P s) (ht : P t) :
    ∃ u v a b, Leads step s u ∧ step u a = .ok (v, b) ∧ Leads step v t ∧ ¬ P u ∧ P v := by
  obtain ⟨log, h⟩ := h
  induction log generalizing s with
  | nil =>
    cases h
    exact absurd ht hs
  | cons a log ih =>
    obtain ⟨⟨v, b⟩, hv, h⟩ := run_cons_iff.1 h
    by_cases hP : P v
    · exact ⟨s, v, a, b, Leads.refl s, hv, ⟨log, h⟩, hs, hP⟩
    · obtain ⟨u, u', a', b', hu, hrest⟩ := ih hP h
      exact ⟨u, u', a', b', (Leads.of_step hv).trans hu, hrest⟩

section Reordering

-- `I s log` says that the entries of `log` can be applied from `s`, in any order
variable {I : σ → List α → Prop}
  (hstep : ∀ s a log, I s (a :: log) → ∃ t b, step s a = .ok (t, b) ∧ I t log)
include hstep

theorem exists_run {s : σ} {log : List α} (hI : I s log) : ∃ t, run step s log = .ok t := by
  induction log generalizing s with
  | nil => exact ⟨s, rfl⟩
  | cons a log ih =>
    obtain ⟨t, b, ht, hIt⟩ := hstep s a log hI
    obtain ⟨u, hu⟩ := ih hIt
    exact ⟨u, run_cons_iff.2 ⟨(t, b), ht, hu⟩⟩

/-- **Reordering.** If the first two entries can be exchanged, all orders end in one state. -/
theorem run_perm (hperm : ∀ s log log', log.Perm log' → I s log → I s log')
    (hswap : ∀ s a b log, I s (a :: b :: log) → run step s [a, b] = run step s [b, a])
    {s : σ} {log log' : List α} (h : log.Perm log') (hI : I s log) :
    run step s log = run step s log' := by
  induction h generalizing s with
  | nil => rfl
  | cons a _ ih =>
    obtain ⟨t, b, ht, hIt⟩ := hstep s a _ hI
    rw [run, run, ht]
    exact ih hIt
  | swap a b log => rw [run_two_cons s b a log, run_two_cons s a b log, hswap s b a log hI]
  | trans h₁ h₂ ih₁ ih₂ => rw [ih₁ hI, ih₂ (hperm _ _ _ h₁ hI)]

end Reordering

/-- Whether the state after a log passes a test, by computation. -/
def endsWith (step : σ → α → Except ε (σ × Bool)) (s : σ) (log : List α) (p : σ → Bool) : Bool :=
  match run step s log with
  | .ok t => p t
  | .error _ => false

theorem exists_of_endsWith {s : σ} {log : List α} {p : σ → Bool}
    (h : endsWith step s log p = true) : ∃ t, run step s log = .ok t ∧ p t = true := by
  unfold endsWith at h
  split at h
  · rename_i t ht
    exact ⟨t, ht, h⟩
  · cases h

/-- Whether a log ends in the given state, by computation. -/
def endsIn [DecidableEq σ] (step : σ → α → Except ε (σ × Bool)) (s : σ) (log : List α) (t : σ) :
    Bool := endsWith step s log fun u => decide (u = t)

theorem run_of_endsIn [DecidableEq σ] {s t : σ} {log : List α} (h : endsIn step s log t = true) :
    run step s log = .ok t := by
  obtain ⟨u, hu, ht⟩ := exists_of_endsWith h
  rw [hu, of_decide_eq_true ht]

/-! ## The states that a log goes through -/

/-- The states that a log goes through, newest first; a crash ends it. -/
def trace (step : σ → α → Except ε (σ × Bool)) (s : σ) : List α → List σ
  | [] => [s]
  | a :: log =>
    match step s a with
    | .ok r => trace step r.1 log ++ [s]
    | .error _ => [s]

theorem trace_cons {s : σ} {a : α} {r : σ × Bool} (h : step s a = .ok r) (log : List α) :
    trace step s (a :: log) = trace step r.1 log ++ [s] := by
  rw [trace, h]

theorem mem_trace_self (s : σ) (log : List α) : s ∈ trace step s log := by
  cases log with
  | nil => exact List.mem_singleton_self s
  | cons a log =>
    rw [trace]
    split <;> simp

theorem exists_trace_eq {s t : σ} {log : List α} (h : run step s log = .ok t) :
    ∃ rest, trace step s log = t :: rest := by
  induction log generalizing s with
  | nil =>
    cases h
    exact ⟨[], rfl⟩
  | cons a log ih =>
    obtain ⟨r, hr, h⟩ := run_cons_iff.1 h
    obtain ⟨rest, hrest⟩ := ih h
    exact ⟨rest ++ [s], by rw [trace_cons hr, hrest, List.cons_append]⟩

theorem mem_trace_of_run {s t : σ} {log : List α} (h : run step s log = .ok t) :
    t ∈ trace step s log := by
  obtain ⟨rest, hrest⟩ := exists_trace_eq h
  rw [hrest]
  exact List.mem_cons_self

theorem trace_concat {s t u : σ} {log : List α} {a : α} {b : Bool} (h : run step s log = .ok t)
    (hu : step t a = .ok (u, b)) : trace step s (log ++ [a]) = u :: trace step s log := by
  induction log generalizing s with
  | nil =>
    cases h
    exact trace_cons hu []
  | cons a' log ih =>
    obtain ⟨r, hr, h⟩ := run_cons_iff.1 h
    rw [List.cons_append, trace_cons hr, trace_cons hr, ih h, List.cons_append]

theorem trace_subset_append (s : σ) (log log' : List α) :
    trace step s log ⊆ trace step s (log ++ log') := by
  induction log generalizing s with
  | nil =>
    intro v hv
    rw [List.mem_singleton.1 hv]
    exact mem_trace_self s _
  | cons a log ih =>
    rw [List.cons_append, trace, trace]
    rcases step s a with e | r
    · exact List.Subset.refl _
    · exact List.append_subset.2 ⟨List.subset_append_of_subset_left _ (ih r.1),
        List.subset_append_right _ _⟩

theorem leads_of_mem_trace {s t v : σ} {log : List α} (h : run step s log = .ok t)
    (hv : v ∈ trace step s log) : Leads step s v ∧ Leads step v t := by
  induction log generalizing s with
  | nil =>
    cases h
    rw [List.mem_singleton.1 hv]
    exact ⟨Leads.refl _, Leads.refl _⟩
  | cons a log ih =>
    have hst : Leads step s t := ⟨_, h⟩
    obtain ⟨r, hr, h⟩ := run_cons_iff.1 h
    rw [trace_cons hr] at hv
    rcases List.mem_append.1 hv with hv | hv
    · exact ⟨(Leads.of_step hr).trans (ih h hv).1, (ih h hv).2⟩
    · rw [List.mem_singleton.1 hv]
      exact ⟨Leads.refl _, hst⟩

/-- The states of a log are ordered. -/
theorem leads_total_of_mem_trace {s t u v : σ} {log : List α} (h : run step s log = .ok t)
    (hu : u ∈ trace step s log) (hv : v ∈ trace step s log) : Leads step u v ∨ Leads step v u := by
  induction log generalizing s with
  | nil =>
    rw [List.mem_singleton.1 hu, List.mem_singleton.1 hv]
    exact Or.inl (Leads.refl _)
  | cons a log ih =>
    have hsu := (leads_of_mem_trace h hu).1
    have hsv := (leads_of_mem_trace h hv).1
    obtain ⟨r, hr, h⟩ := run_cons_iff.1 h
    rw [trace_cons hr] at hu hv
    rcases List.mem_append.1 hu with hu | hu
    · rcases List.mem_append.1 hv with hv | hv
      · exact ih h hu hv
      · rw [List.mem_singleton.1 hv]
        exact Or.inr hsu
    · rw [List.mem_singleton.1 hu]
      exact Or.inl hsv

/-- A run all of whose states have a property. -/
def Along (step : σ → α → Except ε (σ × Bool)) (P : σ → Prop) (s : σ) (log : List α) (t : σ) :
    Prop := run step s log = .ok t ∧ ∀ u ∈ trace step s log, P u

namespace Along

variable {P : σ → Prop} {s t u : σ}

theorem nil (hs : P s) : Along step P s [] s :=
  ⟨rfl, fun u hu => by rwa [List.mem_singleton.1 hu]⟩

theorem cons {a : α} {b : Bool} {log : List α} (hs : P s) (ht : step s a = .ok (t, b))
    (h : Along step P t log u) : Along step P s (a :: log) u := by
  refine ⟨run_cons_iff.2 ⟨_, ht, h.1⟩, fun v hv => ?_⟩
  rw [trace_cons ht, List.mem_append, List.mem_singleton] at hv
  rcases hv with hv | rfl
  · exact h.2 v hv
  · exact hs

theorem append {log₁ log₂ : List α} (h₁ : Along step P s log₁ t) (h₂ : Along step P t log₂ u) :
    Along step P s (log₁ ++ log₂) u := by
  obtain ⟨hrun, hP⟩ := h₁
  induction log₁ generalizing s with
  | nil =>
    cases hrun
    exact h₂
  | cons a log₁ ih =>
    obtain ⟨⟨r, b⟩, hr, hrun⟩ := run_cons_iff.1 hrun
    rw [trace_cons hr, List.forall_mem_append] at hP
    exact cons (hP.2 s (List.mem_singleton_self s)) hr (ih hrun hP.1)

end Along

/-! ## Runs in which every entry has an effect -/

/-- A run of permitted entries, each of which has an effect. -/
inductive Busy (step : σ → α → Except ε (σ × Bool)) (ok : α → Prop) : σ → List α → σ → Prop
  | nil (s : σ) : Busy step ok s [] s
  | cons {s t u : σ} {a : α} {log : List α} (ha : ok a) (hs : step s a = .ok (t, true))
      (h : Busy step ok t log u) : Busy step ok s (a :: log) u

/-- No permitted entry has an effect. -/
def Stuck (step : σ → α → Except ε (σ × Bool)) (ok : α → Prop) (s : σ) : Prop :=
  ∀ a, ok a → ∀ t, step s a ≠ .ok (t, true)

section Measure

variable {ok : α → Prop} {I : σ → Prop} {μ : σ → ℕ}
  (hstep : ∀ s a t, I s → ok a → step s a = .ok (t, true) → I t ∧ μ t < μ s)
include hstep

theorem Busy.preserves {s t : σ} {log : List α} (h : Busy step ok s log t) (hs : I s) : I t := by
  induction h with
  | nil s => exact hs
  | cons ha hst h ih => exact ih (hstep _ _ _ hs ha hst).1

/-- A busy run is no longer than the measure. -/
theorem Busy.length_le {s t : σ} {log : List α} (h : Busy step ok s log t) (hs : I s) :
    log.length + μ t ≤ μ s := by
  induction h with
  | nil s => simp
  | cons ha hst h ih =>
    obtain ⟨ht, hlt⟩ := hstep _ _ _ hs ha hst
    have := ih ht
    rw [List.length_cons]
    omega

/-- Every busy run can be continued until it is stuck. -/
theorem exists_busy_stuck {s : σ} (hs : I s) :
    ∃ log t, Busy step ok s log t ∧ Stuck step ok t := by
  induction hμ : μ s using Nat.strong_induction_on generalizing s with
  | _ n ih =>
    by_cases hstuck : Stuck step ok s
    · exact ⟨[], s, .nil s, hstuck⟩
    · unfold Stuck at hstuck
      push Not at hstuck
      obtain ⟨a, ha, t, ht⟩ := hstuck
      obtain ⟨hIt, hlt⟩ := hstep s a t hs ha ht
      obtain ⟨log, u, hlog, hu⟩ := ih (μ t) (hμ ▸ hlt) hIt rfl
      exact ⟨a :: log, u, .cons ha ht hlog, hu⟩

end Measure

/-! ## Recorded runs -/

/-- The states of a run, newest first, whose every log entry is permitted by `ok`. -/
inductive History (step : σ → α → Except ε (σ × Bool)) (ok : List σ → α → Prop) (init : σ) :
    List σ → Prop
  | init : History step ok init [init]
  | next {s t : σ} {hist : List σ} {a : α} {b : Bool} (h : History step ok init (s :: hist))
      (ha : ok (s :: hist) a) (hs : step s a = .ok (t, b)) : History step ok init (t :: s :: hist)

namespace History

variable {ok : List σ → α → Prop} {init : σ}

/-- Every recorded state leads to the newest one. -/
theorem leads {s v : σ} {hist : List σ} (h : History step ok init (s :: hist))
    (hv : v ∈ s :: hist) : Leads step v s := by
  generalize hl : s :: hist = l at h hv
  induction h generalizing s hist with
  | init =>
    cases hl
    rw [List.mem_singleton.1 hv]
    exact Leads.refl _
  | next h ha hs ih =>
    cases hl
    rcases List.mem_cons.1 hv with rfl | hv
    · exact Leads.refl _
    · exact (ih rfl hv).trans (Leads.of_step hs)

/-- Every recorded state is reached from the initial one. -/
theorem leads_of_mem {v : σ} {hist : List σ} (h : History step ok init hist) (hv : v ∈ hist) :
    Leads step init v := by
  induction h generalizing v with
  | init =>
    rw [List.mem_singleton.1 hv]
    exact Leads.refl _
  | next h ha hs ih =>
    rcases List.mem_cons.1 hv with rfl | hv
    · exact (ih List.mem_cons_self).trans (Leads.of_step hs)
    · exact ih hv

/-- A run ends in each of its states, if it is cut off there. -/
theorem of_mem {v : σ} {hist : List σ} (h : History step ok init hist) (hv : v ∈ hist) :
    ∃ hist', History step ok init (v :: hist') := by
  induction h with
  | init =>
    rw [List.mem_singleton.1 hv]
    exact ⟨[], .init⟩
  | next h ha hs ih =>
    rcases List.mem_cons.1 hv with rfl | hv
    · exact ⟨_, .next h ha hs⟩
    · exact ih hv

/-- A property of the initial state that every permitted step hands on holds of every state. -/
theorem forall_mem {P : σ → Prop} {hist : List σ} (h : History step ok init hist) (h₀ : P init)
    (hstep : ∀ s hist a t b, History step ok init (s :: hist) → (∀ v ∈ s :: hist, P v) →
      ok (s :: hist) a → step s a = .ok (t, b) → P t) : ∀ v ∈ hist, P v := by
  induction h with
  | init =>
    intro v hv
    rwa [List.mem_singleton.1 hv]
  | next h ha hs ih =>
    intro v hv
    rcases List.mem_cons.1 hv with rfl | hv
    · exact hstep _ _ _ _ _ h ih ha hs
    · exact ih v hv

/-- A log of entries that are always permitted continues a run. -/
theorem of_run {s t : σ} {hist : List σ} {log : List α} (h : History step ok init (s :: hist))
    (hok : ∀ a ∈ log, ∀ hist, ok hist a) (hrun : run step s log = .ok t) :
    ∃ hist', History step ok init (t :: hist') := by
  induction log generalizing s hist with
  | nil =>
    cases hrun
    exact ⟨hist, h⟩
  | cons a log ih =>
    rw [List.forall_mem_cons] at hok
    obtain ⟨r, hr, hrun⟩ := run_cons_iff.1 hrun
    exact ih (.next h (hok.1 _) hr) hok.2 hrun

/-- A run that permits less is a run that permits more. -/
theorem mono {ok' : List σ → α → Prop} {hist : List σ} (h : History step ok init hist)
    (hok : ∀ hist a, ok hist a → ok' hist a) : History step ok' init hist := by
  induction h with
  | init => exact .init
  | next h ha hs ih => exact .next ih (hok _ _ ha) hs

end History

end Transition
