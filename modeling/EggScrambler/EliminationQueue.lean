import Mathlib
import EggScrambler.StateMachine

/-!
# The pending operations of a client

`anonbcast/eliminationqueue.go`.  A client keeps at most one operation that it still has to submit:
`add` keeps the newer one of two, in the order `compare`, and drops what is not newer than the last
operation that was submitted.  `rank` is the key by which `compare` orders operations.

`Submission` puts the queue between any number of goroutines that call `add` and the loop of
`submitOps`, which gets an operation, tries to submit it and, if that succeeds, finishes it.  While
an operation is in flight others may be added, so that it need not be the pending one any more when
it is finished.  `Submission.Tidy` is the invariant: the operation in flight is never newer than the
pending one.
-/

namespace EggScrambler

inductive OpComparison where
  | newer
  | older
  | equal
  | incomparable
  deriving DecidableEq, Repr

def opIndex (op : Op) : ℕ :=
  match op.type with
  | .join => 0
  | .start => 1
  | .message => 2
  | .encrypted => 3
  | .scrambled => 4
  | .decrypted => 5
  | .reveal => 6
  | .abort => 7

/-- The counter of an operation that has one. -/
def Op.prev : Op → ℤ
  | encrypted _ _ _ prev | decrypted _ _ _ prev => prev
  | _ => 0

/-- The end of `compare`: only the operations with a counter have an order among themselves.  The
last branch, which the source asserts to be unreachable, is not reached if the types agree. -/
def compareSameIndex (a b : Op) : OpComparison :=
  match a, b with
  | .encrypted _ _ _ prev, .encrypted _ _ _ prev'
  | .decrypted _ _ _ prev, .decrypted _ _ _ prev' =>
    if prev < prev' then .older else if prev > prev' then .newer else .equal
  | _, _ => if a.type = b.type then .equal else .incomparable

/-- How new `a` is in relation to `b`, from the perspective of the client. -/
def compare (a b : Op) : OpComparison :=
  if a.round < b.round then .older
  else if a.round > b.round then .newer
  else if opIndex a < opIndex b then .older
  else if opIndex a > opIndex b then .newer
  else compareSameIndex a b

/-- What `compare` compares: the round, then the index, then the counter. -/
def rank (op : Op) : ℤ ×ₗ ℕ ×ₗ ℤ := toLex (op.round, toLex (opIndex op, op.prev))

theorem rank_lt_iff {a b : Op} : rank a < rank b ↔ a.round < b.round ∨ a.round = b.round ∧
    (opIndex a < opIndex b ∨ opIndex a = opIndex b ∧ a.prev < b.prev) := by
  simp only [rank, Prod.Lex.toLex_lt_toLex]

theorem rank_eq_iff {a b : Op} :
    rank a = rank b ↔ a.round = b.round ∧ opIndex a = opIndex b ∧ a.prev = b.prev := by
  simp [rank]

theorem type_eq_of_opIndex {a b : Op} (h : opIndex a = opIndex b) : a.type = b.type := by
  unfold opIndex at h
  cases ha : a.type <;> cases hb : b.type <;> simp_all

theorem compareSameIndex_cases {a b : Op} (h : a.type = b.type) :
    a.prev < b.prev ∧ compareSameIndex a b = .older ∨
      a.prev = b.prev ∧ compareSameIndex a b = .equal ∨
      b.prev < a.prev ∧ compareSameIndex a b = .newer := by
  unfold compareSameIndex
  split
  · simp only [Op.prev]
    split_ifs <;> simp <;> omega
  · simp only [Op.prev]
    split_ifs <;> simp <;> omega
  · rename_i henc hdec
    refine Or.inr (Or.inl ⟨?_, if_pos h⟩)
    cases a <;> cases b <;> first
      | rfl
      | exact (henc _ _ _ _ _ _ _ _ rfl rfl).elim
      | exact (hdec _ _ _ _ _ _ _ _ rfl rfl).elim
      | cases h

/-- `compare` is the order of the ranks, so any two operations are comparable. -/
theorem compare_cases (a b : Op) : rank a < rank b ∧ compare a b = .older ∨
    rank a = rank b ∧ compare a b = .equal ∨ rank b < rank a ∧ compare a b = .newer := by
  simp only [rank_lt_iff, rank_eq_iff]
  unfold compare
  split_ifs with h₁ h₂ h₃ h₄
  · exact Or.inl ⟨Or.inl h₁, rfl⟩
  · exact Or.inr (Or.inr ⟨Or.inl h₂, rfl⟩)
  · exact Or.inl ⟨Or.inr ⟨by omega, Or.inl h₃⟩, rfl⟩
  · exact Or.inr (Or.inr ⟨Or.inr ⟨by omega, Or.inl h₄⟩, rfl⟩)
  · have hr : a.round = b.round := by omega
    have hi : opIndex a = opIndex b := by omega
    rcases compareSameIndex_cases (type_eq_of_opIndex hi) with ⟨hp, hc⟩ | ⟨hp, hc⟩ | ⟨hp, hc⟩
    · exact Or.inl ⟨Or.inr ⟨hr, Or.inr ⟨hi, hp⟩⟩, hc⟩
    · exact Or.inr (Or.inl ⟨⟨hr, hi, hp⟩, hc⟩)
    · exact Or.inr (Or.inr ⟨Or.inr ⟨hr.symm, Or.inr ⟨hi.symm, hp⟩⟩, hc⟩)

theorem compare_older_iff {a b : Op} : compare a b = .older ↔ rank a < rank b := by
  rcases compare_cases a b with ⟨hr, hc⟩ | ⟨hr, hc⟩ | ⟨hr, hc⟩
  · simp [hr, hc]
  · simp [hr, hc]
  · simp [hr.le, hc]

theorem compare_newer_iff {a b : Op} : compare a b = .newer ↔ rank b < rank a := by
  rcases compare_cases a b with ⟨hr, hc⟩ | ⟨hr, hc⟩ | ⟨hr, hc⟩
  · simp [hr.le, hc]
  · simp [hr, hc]
  · simp [hr, hc]

theorem compare_equal_iff {a b : Op} : compare a b = .equal ↔ rank a = rank b := by
  rcases compare_cases a b with ⟨hr, hc⟩ | ⟨hr, hc⟩ | ⟨hr, hc⟩
  · simp [hr.ne, hc]
  · simp [hr, hc]
  · simp [hr.ne', hc]

/-! ## The queue -/

structure EliminationQueue where
  ops : List Op := []
  lastFinished : Op := .abort (-1)
  deriving DecidableEq

namespace EliminationQueue

def add (p : EliminationQueue) (op : Op) : EliminationQueue :=
  if compare op p.lastFinished ≠ .newer then p
  else
    match p.ops with
    | [] => { p with ops := [op] }
    | first :: rest =>
      match compare first op with
      | .newer | .equal => p
      | _ => { p with ops := op :: rest }

/-- The pending operation; `none` while `get` blocks. -/
def get (p : EliminationQueue) : Option Op := p.ops.head?

def finish (p : EliminationQueue) (op : Op) : EliminationQueue where
  ops :=
    match p.ops with
    | [] => []
    | first :: _ => if compare first op = .equal then [] else p.ops
  lastFinished := if compare p.lastFinished op = .older then op else p.lastFinished

theorem get_finish {p : EliminationQueue} (h : p.get = none) (op : Op) :
    (p.finish op).get = none := by
  have hops : p.ops = [] := List.head?_eq_none_iff.1 h
  simp [get, finish, hops]

end EliminationQueue

/-! ## Producers and the consumer -/

/-- The queue, the operation that the loop of `submitOps` has got, and what happened so far. -/
structure Submission where
  pending : EliminationQueue := {}
  inFlight : Option Op := none
  /-- The operations that were passed to `add`. -/
  added : List Op := []
  /-- The operations that were submitted successfully. -/
  finished : List Op := []

inductive SubmissionEvent where
  /-- A goroutine calls `add`. -/
  | add (op : Op)
  /-- The loop calls `get`. -/
  | get
  /-- The submission fails. -/
  | fail
  /-- The submission succeeds and the loop calls `finish`. -/
  | finish

namespace Submission

/-- One event; the loop is sequential, so it gets an operation only after it is through with the
one before. -/
def step (s : Submission) : SubmissionEvent → Submission
  | .add op => { s with pending := s.pending.add op, added := op :: s.added }
  | .get =>
    match s.inFlight with
    | none => { s with inFlight := s.pending.get }
    | some _ => s
  | .fail => { s with inFlight := none }
  | .finish =>
    match s.inFlight with
    | none => s
    | some op =>
      { s with pending := s.pending.finish op, inFlight := none, finished := op :: s.finished }

def run (s : Submission) (events : List SubmissionEvent) : Submission := events.foldl step s

end Submission

/-! ## The invariant -/

namespace EliminationQueue

/-- The operation that stands for the newest one: the pending one or else the last finished one. -/
def newest (p : EliminationQueue) : Op := p.get.getD p.lastFinished

/-- At most one operation is pending, and it is newer than the last finished one. -/
structure Ordered (p : EliminationQueue) : Prop where
  length_le : p.ops.length ≤ 1
  newer : ∀ op ∈ p.ops, rank p.lastFinished < rank op

variable {p : EliminationQueue}

theorem Ordered.cases (h : p.Ordered) : p.ops = [] ∧ p.newest = p.lastFinished ∨
    ∃ x, p.ops = [x] ∧ p.newest = x ∧ rank p.lastFinished < rank x := by
  have hlen := h.length_le
  rcases hops : p.ops with _ | ⟨x, rest⟩
  · exact Or.inl ⟨rfl, by simp [newest, get, hops]⟩
  · rw [hops, List.length_cons] at hlen
    obtain rfl : rest = [] := List.length_eq_zero_iff.1 (by omega)
    exact Or.inr ⟨x, rfl, by simp [newest, get, hops], h.newer x (by simp [hops])⟩

theorem Ordered.lastFinished_le (h : p.Ordered) : rank p.lastFinished ≤ rank p.newest := by
  rcases h.cases with ⟨-, heq⟩ | ⟨x, -, heq, hlt⟩
  · rw [heq]
  · rw [heq]
    exact hlt.le

/-- `add` drops an operation that is not newer, and makes a newer one the pending one. -/
theorem Ordered.add_eq (h : p.Ordered) (op : Op) :
    p.add op = if rank op ≤ rank p.newest then p else { p with ops := [op] } := by
  unfold add
  rcases h.cases with ⟨hops, heq⟩ | ⟨x, hops, heq, hlt⟩
  · simp only [hops, heq, ne_eq, compare_newer_iff, not_lt]
  · simp only [hops, heq, ne_eq, compare_newer_iff, not_lt]
    rcases compare_cases x op with ⟨hr, hc⟩ | ⟨hr, hc⟩ | ⟨hr, hc⟩
    · rw [if_neg (not_le.2 (hlt.trans hr)), if_neg (not_le.2 hr), hc]
    · rw [if_pos hr.ge, hc, ite_self]
    · rw [if_pos hr.le, hc, ite_self]

theorem Ordered.add (h : p.Ordered) (op : Op) : (p.add op).Ordered := by
  rw [h.add_eq]
  split_ifs with hle
  · exact h
  · refine ⟨le_rfl, fun x hx => ?_⟩
    rw [List.mem_singleton.1 hx]
    exact h.lastFinished_le.trans_lt (not_le.1 hle)

theorem Ordered.newest_add (h : p.Ordered) (op : Op) :
    rank (p.add op).newest = max (rank op) (rank p.newest) := by
  rw [h.add_eq]
  split_ifs with hle
  · exact (max_eq_right hle).symm
  · exact (max_eq_left (not_le.1 hle).le).symm

theorem lastFinished_finish (p : EliminationQueue) (op : Op) : (p.finish op).lastFinished =
    if rank p.lastFinished < rank op then op else p.lastFinished := by
  simp only [finish, compare_older_iff]

theorem lastFinished_le_finish (p : EliminationQueue) (op : Op) :
    rank p.lastFinished ≤ rank (p.finish op).lastFinished := by
  rw [lastFinished_finish]
  split_ifs with hlt
  · exact hlt.le
  · exact le_rfl

theorem mem_of_mem_finish {op x : Op} (hx : x ∈ (p.finish op).ops) : x ∈ p.ops := by
  simp only [finish] at hx
  split at hx
  · cases hx
  · split_ifs at hx
    · cases hx
    · exact hx

/-- `finish` of an operation that is not newer than the pending one. -/
theorem Ordered.finish (h : p.Ordered) {op : Op} (hop : rank op ≤ rank p.newest) :
    (p.finish op).Ordered ∧ rank (p.finish op).newest = rank p.newest := by
  have hlast := p.lastFinished_finish op
  rcases h.cases with ⟨hops, heq⟩ | ⟨x, hops, heq, hlt⟩
  · -- nothing is pending, so the operation is not newer than the last finished one
    rw [heq] at hop ⊢
    have hops' : (p.finish op).ops = [] := by simp [EliminationQueue.finish, hops]
    rw [if_neg (not_lt.2 hop)] at hlast
    exact ⟨⟨by simp [hops'], by simp [hops']⟩, by simp [newest, get, hops', hlast]⟩
  · rw [heq] at hop ⊢
    rcases hop.lt_or_eq with hop | hop
    · -- a newer operation was added in the meantime and stays pending
      have hops' : (p.finish op).ops = [x] := by
        simp [EliminationQueue.finish, hops, compare_equal_iff, hop.ne']
      refine ⟨⟨by simp [hops'], fun y hy => ?_⟩, by simp [newest, get, hops']⟩
      rw [hops', List.mem_singleton] at hy
      rw [hlast, hy]
      split_ifs
      · exact hop
      · exact hlt
    · have hops' : (p.finish op).ops = [] := by
        simp [EliminationQueue.finish, hops, compare_equal_iff, hop]
      rw [if_pos (hop ▸ hlt)] at hlast
      exact ⟨⟨by simp [hops'], by simp [hops']⟩, by simp [newest, get, hops', hlast, hop]⟩

end EliminationQueue

namespace Submission

/-- The invariant. -/
structure Tidy (s : Submission) : Prop where
  ordered : s.pending.Ordered
  inFlight : ∀ op, s.inFlight = some op → op ∈ s.added
  added : ∀ op ∈ s.added, rank op ≤ rank s.pending.newest
  ops : ∀ op ∈ s.pending.ops, op ∈ s.added
  finished : ∀ op ∈ s.finished, op ∈ s.added
  lastFinished : s.pending.lastFinished = .abort (-1) ∨ s.pending.lastFinished ∈ s.finished

variable {s : Submission}

theorem tidy_new : Tidy {} where
  ordered := ⟨Nat.zero_le _, by simp⟩
  inFlight := by simp
  added := by simp
  ops := by simp
  finished := by simp
  lastFinished := Or.inl rfl

theorem Tidy.add (h : s.Tidy) (op : Op) : (s.step (.add op)).Tidy where
  ordered := h.ordered.add op
  inFlight x hx := List.mem_cons_of_mem _ (h.inFlight x hx)
  added x hx := by
    rw [step, h.ordered.newest_add]
    rcases List.mem_cons.1 hx with rfl | hx
    · exact le_max_left _ _
    · exact (h.added x hx).trans (le_max_right _ _)
  ops x hx := by
    simp only [step, h.ordered.add_eq] at hx
    split_ifs at hx
    · exact List.mem_cons_of_mem _ (h.ops x hx)
    · rw [List.mem_singleton.1 hx]
      exact List.mem_cons_self
  finished x hx := List.mem_cons_of_mem _ (h.finished x hx)
  lastFinished := by
    simp only [step, h.ordered.add_eq]
    split_ifs
    · exact h.lastFinished
    · exact h.lastFinished

theorem Tidy.get (h : s.Tidy) : (s.step .get).Tidy := by
  rcases hin : s.inFlight with _ | op
  · simp only [step, hin]
    exact { h with inFlight := fun op hop => h.ops op (List.mem_of_head? hop) }
  · simpa only [step, hin] using h

theorem Tidy.finish (h : s.Tidy) : (s.step .finish).Tidy := by
  rcases hin : s.inFlight with _ | op
  · simpa only [step, hin] using h
  · have hmem := h.inFlight op hin
    simp only [step, hin]
    obtain ⟨hord, hnew⟩ := h.ordered.finish (h.added op hmem)
    exact {
      ordered := hord
      inFlight := by simp
      added := fun x hx => (h.added x hx).trans_eq hnew.symm
      ops := fun x hx => h.ops x (EliminationQueue.mem_of_mem_finish hx)
      finished := fun x hx => by
        rcases List.mem_cons.1 hx with rfl | hx
        · exact hmem
        · exact h.finished x hx
      lastFinished := by
        rw [EliminationQueue.lastFinished_finish]
        split_ifs
        · exact Or.inr List.mem_cons_self
        · exact h.lastFinished.imp_right (List.mem_cons_of_mem _) }

theorem Tidy.step (h : s.Tidy) (e : SubmissionEvent) : (s.step e).Tidy := by
  cases e with
  | add op => exact h.add op
  | get => exact h.get
  | fail => exact { h with inFlight := by simp [Submission.step] }
  | finish => exact h.finish

theorem lastFinished_le_step (h : s.Tidy) (e : SubmissionEvent) :
    rank s.pending.lastFinished ≤ rank (s.step e).pending.lastFinished := by
  cases e with
  | add op =>
    simp only [step, h.ordered.add_eq]
    split_ifs <;> exact le_rfl
  | get =>
    rcases hin : s.inFlight with _ | op
    · simp only [step, hin, le_refl]
    · simp only [step, hin, le_refl]
  | fail => exact le_rfl
  | finish =>
    rcases hin : s.inFlight with _ | op
    · simp only [step, hin, le_refl]
    · simp only [step, hin]
      exact EliminationQueue.lastFinished_le_finish _ _

theorem mem_added_step {x : Op} {e : SubmissionEvent} :
    x ∈ (s.step e).added ↔ e = .add x ∨ x ∈ s.added := by
  cases e with
  | add op => simp [step, eq_comm]
  | get => rcases hin : s.inFlight with _ | op <;> simp [step, hin]
  | fail => simp [step]
  | finish => rcases hin : s.inFlight with _ | op <;> simp [step, hin]

theorem mem_added_run {x : Op} {events : List SubmissionEvent} :
    x ∈ (s.run events).added ↔ .add x ∈ events ∨ x ∈ s.added := by
  induction events generalizing s with
  | nil => simp [Submission.run]
  | cons e events ih =>
    rw [List.mem_cons, eq_comm, or_assoc, or_left_comm, ← mem_added_step]
    exact ih

/-- The invariant holds after any events, and the last finished operation only gets newer. -/
theorem Tidy.run (h : s.Tidy) (events : List SubmissionEvent) : (s.run events).Tidy ∧
    rank s.pending.lastFinished ≤ rank (s.run events).pending.lastFinished := by
  induction events generalizing s with
  | nil => exact ⟨h, le_rfl⟩
  | cons e events ih =>
    obtain ⟨ht, hle⟩ := ih (h.step e)
    exact ⟨ht, (lastFinished_le_step h e).trans hle⟩

end Submission

/-- **The newest operation is not lost.** Whatever the goroutines add, at rounds from zero on, and
however the submissions end: at most one operation is pending, it is newer than the last finished
one, and the latter never becomes older; and the newest operation that was ever added is as new as
the pending one or, if none is pending, as the last finished one, which was submitted. -/
theorem newest_not_lost (events : List SubmissionEvent)
    (hround : ∀ op, SubmissionEvent.add op ∈ events → 0 ≤ op.round) :
    let s := Submission.run {} events
    s.pending.ops.length ≤ 1 ∧
    (∀ op ∈ s.pending.ops, compare op s.pending.lastFinished = .newer) ∧
    (∀ events', compare (s.run events').pending.lastFinished s.pending.lastFinished ≠ .older) ∧
    ∀ x, SubmissionEvent.add x ∈ events →
      (∀ y, SubmissionEvent.add y ∈ events → compare y x ≠ .newer) →
      (∀ op, s.pending.get = some op → compare x op = .equal) ∧
      (s.pending.get = none → compare x s.pending.lastFinished = .equal ∧
        s.pending.lastFinished ∈ s.finished) := by
  intro s
  have h : s.Tidy := (Submission.tidy_new.run events).1
  have hadded : ∀ {x}, x ∈ s.added ↔ .add x ∈ events := Submission.mem_added_run.trans (by simp)
  refine ⟨h.ordered.length_le, fun op hop => compare_newer_iff.2 (h.ordered.newer op hop),
    fun events' => ?_, fun x hx hmax => ?_⟩
  · rw [ne_eq, compare_older_iff, not_lt]
    exact (h.run events').2
  · have hle := h.added x (hadded.2 hx)
    have hge : ∀ y ∈ s.added, rank y ≤ rank x := fun y hy => by
      have := hmax y (hadded.1 hy)
      rwa [ne_eq, compare_newer_iff, not_lt] at this
    refine ⟨fun op hop => ?_, fun hnone => ?_⟩
    · rw [EliminationQueue.newest, hop, Option.getD_some] at hle
      exact compare_equal_iff.2 (le_antisymm hle (hge op (h.ops op (List.mem_of_head? hop))))
    · rw [EliminationQueue.newest, hnone, Option.getD_none] at hle
      rcases h.lastFinished with hinit | hmem
      · -- the operation before all others is older than everything that was added
        have h₀ : (Op.abort (-1)).round < x.round := Int.negSucc_lt_zero 0 |>.trans_le (hround x hx)
        rw [hinit] at hle
        exact absurd (rank_lt_iff.2 (Or.inl h₀)) (not_lt.2 hle)
      · exact ⟨compare_equal_iff.2 (le_antisymm hle (hge _ (h.finished _ hmem))), hmem⟩

/-- The abort is added while the join is in flight, and it is still pending once that is through. -/
theorem newest_not_lost_overtaken :
    let s := Submission.run {} [.add (.join 1 0), .get, .add (.abort 0), .finish]
    s.pending.ops = [.abort 0] ∧ s.pending.lastFinished = .join 1 0 ∧
      compare (.abort 0) s.pending.lastFinished = .newer := by
  refine ⟨by decide, by decide, ?_⟩
  refine (newest_not_lost [.add (.join 1 0), .get, .add (.abort 0), .finish] ?_).2.1 _ (by decide)
  simp [Op.round]

end EggScrambler
