import Mathlib
import EggScrambler.World

/-!
# What a session remembers and reports

The loop of `readUpdates` starts `sendRoundResult` when it enters a round, for the round before,
with what it remembers of that round.

* `Counts` and `Recalls`: the count that the client took in its turn to scramble and the snapshot
  that it took in the reveal phase are still those of the round.
* `Reports`: every round that a session has followed to its end is reported, and only once; and if
  the client scrambled and revealed in the round, the snapshot that is handed on agrees with it.
-/

namespace EggScrambler

open StateMachine Transition

namespace Task

/-- The round that a goroutine reports on. -/
def resultRound : Task → Option ℤ
  | sendRoundResult _ r _ => some (r - 1)
  | _ => none

/-- The round that a goroutine scrambles in. -/
def scrambleRound : Task → Option ℤ
  | scramble r .. => some r
  | _ => none

/-- The round that a goroutine reveals a key in. -/
def revealRound : Task → Option ℤ
  | reveal r .. => some r
  | _ => none

end Task

/-! ## One turn -/

section Turn

variable {env : Env} {c : Client} {active : Bool} {draws : Draws} {rd : Reader} {v : StateMachine}
  {a : Reaction}

/-- Goroutines that only join are of no interest here. -/
theorem none_of_prepares {f : Task → Option ℤ} (hf : ∀ r me, f (.prepare r me) = none) {r : ℤ}
    {prepares : List Task} (hp : ∀ t ∈ prepares, ∃ me, t = .prepare r me) :
    ∀ t ∈ prepares, f t = none := by
  intro t ht
  obtain ⟨me, rfl⟩ := hp t ht
  exact hf r me

/-- Only the question for a message is behind `submitOnce`. -/
theorem Reader.none_of_mem_submitOnce {f : Task → Option ℤ}
    (hf : ∀ r ri me ek rk, f (.submit r ri me ek rk) = none) (rd : Reader) (v : StateMachine)
    (me : ℕ) : ∀ t ∈ (rd.submitOnce v me).tasks, f t = none := by
  intro t ht
  rw [Reader.eq_of_mem_submitOnce ht, hf]

/-- A result is sent in a prepare phase, unless it has been sent. -/
theorem Reads.result_cases (h : Reads env c active draws rd v a) :
    v.currentRoundInfo.phase = .prepare ∧ rd.lastResChSend < v.round - 1 ∧
        a.reader.lastResChSend = v.round - 1 ∧ (∃ rest,
          a.tasks = .sendRoundResult v v.round rd.snapshot :: rest ∧
          ∀ t ∈ rest, t.resultRound = none) ∨
      a.reader.lastResChSend = rd.lastResChSend ∧ (∀ t ∈ a.tasks, t.resultRound = none) ∧
        (v.currentRoundInfo.phase = .prepare → v.round - 1 ≤ rd.lastResChSend) := by
  have hother : ∀ {ph : Phase}, v.currentRoundInfo.phase = ph → ph ≠ .prepare →
      v.currentRoundInfo.phase = .prepare → v.round - 1 ≤ rd.lastResChSend :=
    fun hph hne hprep => absurd (hph.symm.trans hprep) hne
  cases h with
  | result hph hp hlast =>
    exact Or.inl ⟨hph, hlast, rfl, _, rfl, none_of_prepares (fun _ _ => rfl) hp⟩
  | prepare hph hp hlast => exact Or.inr ⟨rfl, none_of_prepares (fun _ _ => rfl) hp, fun _ => hlast⟩
  | idle hph hidle => exact Or.inr ⟨rfl, by simp, hother rfl hph⟩
  | refuse hph hme hmo => exact Or.inr ⟨rfl, by simp [Task.resultRound], hother hph (by decide)⟩
  | generate hph hme hlast hmo hv hk =>
    exact Or.inr ⟨by rw [Reader.submitOnce_frame],
      Reader.none_of_mem_submitOnce (fun _ _ _ _ _ => rfl) _ _ _, hother hph (by decide)⟩
  | submit hph hme hlast =>
    exact Or.inr ⟨by rw [Reader.submitOnce_frame],
      Reader.none_of_mem_submitOnce (fun _ _ _ _ _ => rfl) _ _ _, hother hph (by decide)⟩
  | encrypt hph hme => exact Or.inr ⟨rfl, by simp [Task.resultRound], hother hph (by decide)⟩
  | scramble hph hme hlast hturn =>
    exact Or.inr ⟨rfl, by simp [Task.resultRound], hother hph (by decide)⟩
  | decrypt hph hme => exact Or.inr ⟨rfl, by simp [Task.resultRound], hother hph (by decide)⟩
  | reveal hph hme =>
    exact Or.inr ⟨by rw [Reader.remember_frame], by simp [Task.resultRound],
      hother hph (by decide)⟩

/-- The client scrambles in its turn, unless it has scrambled. -/
theorem Reads.scramble_cases (h : Reads env c active draws rd v a) :
    v.currentRoundInfo.phase = .scramble ∧ a.reader.lastScrambledRound = v.round ∧
        a.reader.snapshot.numberOfMessagesWhenScrambled = v.currentRoundInfo.messages.length ∧
        (∃ t ∈ a.tasks, t.scrambleRound = some v.round) ∧
        (∀ t ∈ a.tasks, ∀ r, t.scrambleRound = some r → r = v.round) ∨
      a.reader.lastScrambledRound = rd.lastScrambledRound ∧
        a.reader.snapshot.numberOfMessagesWhenScrambled =
          rd.snapshot.numberOfMessagesWhenScrambled ∧
        (∀ t ∈ a.tasks, t.scrambleRound = none) ∧
        (v.currentRoundInfo.phase = .scramble →
          c.business active v = some v.currentRoundInfo.numScrambled →
            v.round ≤ rd.lastScrambledRound) := by
  have hother : ∀ {ph : Phase}, v.currentRoundInfo.phase = ph → ph ≠ .scramble →
      v.currentRoundInfo.phase = .scramble →
      c.business active v = some v.currentRoundInfo.numScrambled →
        v.round ≤ rd.lastScrambledRound :=
    fun hph hne hscr _ => absurd (hph.symm.trans hscr) hne
  cases h with
  | result hph hp hlast =>
    refine Or.inr ⟨rfl, rfl, ?_, hother hph (by decide)⟩
    rw [List.forall_mem_cons]
    exact ⟨rfl, none_of_prepares (fun _ _ => rfl) hp⟩
  | prepare hph hp hlast =>
    exact Or.inr ⟨rfl, rfl, none_of_prepares (fun _ _ => rfl) hp, hother hph (by decide)⟩
  | idle hph hidle =>
    refine Or.inr ⟨rfl, rfl, by simp, fun hscr hturn => ?_⟩
    rcases hidle (by simp [Phase.Live, hscr]) with hno | ⟨-, hle | hne⟩
    · rw [hno] at hturn
      cases hturn
    · exact hle
    · exact absurd hturn hne
  | refuse hph hme hmo =>
    exact Or.inr ⟨rfl, rfl, by simp [Task.scrambleRound], hother hph (by decide)⟩
  | generate hph hme hlast hmo hv hk =>
    exact Or.inr ⟨by rw [Reader.submitOnce_frame], by rw [Reader.submitOnce_frame],
      Reader.none_of_mem_submitOnce (fun _ _ _ _ _ => rfl) _ _ _, hother hph (by decide)⟩
  | submit hph hme hlast =>
    exact Or.inr ⟨by rw [Reader.submitOnce_frame], by rw [Reader.submitOnce_frame],
      Reader.none_of_mem_submitOnce (fun _ _ _ _ _ => rfl) _ _ _, hother hph (by decide)⟩
  | encrypt hph hme =>
    exact Or.inr ⟨rfl, rfl, by simp [Task.scrambleRound], hother hph (by decide)⟩
  | scramble hph hme hlast hturn =>
    exact Or.inl ⟨hph, rfl, rfl, ⟨_, List.mem_singleton_self _, rfl⟩,
      by simp [Task.scrambleRound, eq_comm]⟩
  | decrypt hph hme =>
    exact Or.inr ⟨rfl, rfl, by simp [Task.scrambleRound], hother hph (by decide)⟩
  | reveal hph hme =>
    refine Or.inr ⟨by rw [Reader.remember_frame], ?_, by simp [Task.scrambleRound],
      hother hph (by decide)⟩
    unfold Reader.remember
    split_ifs <;> rfl

/-- The client reveals its key whenever it reads an update of a reveal phase. -/
theorem Reads.reveal_cases (h : Reads env c active draws rd v a) :
    v.currentRoundInfo.phase = .reveal ∧ a.reader.snapshot = (rd.remember v).snapshot ∧
        (∃ t ∈ a.tasks, t.revealRound = some v.round) ∧
        (∀ t ∈ a.tasks, ∀ r, t.revealRound = some r → r = v.round) ∨
      a.reader.snapshot = { rd.snapshot with
          numberOfMessagesWhenScrambled := a.reader.snapshot.numberOfMessagesWhenScrambled } ∧
        (∀ t ∈ a.tasks, t.revealRound = none) ∧
        (v.currentRoundInfo.phase = .reveal → c.business active v = none) := by
  have hother : ∀ {ph : Phase}, v.currentRoundInfo.phase = ph → ph ≠ .reveal →
      v.currentRoundInfo.phase = .reveal → c.business active v = none :=
    fun hph hne hrev => absurd (hph.symm.trans hrev) hne
  cases h with
  | result hph hp hlast =>
    refine Or.inr ⟨rfl, ?_, hother hph (by decide)⟩
    rw [List.forall_mem_cons]
    exact ⟨rfl, none_of_prepares (fun _ _ => rfl) hp⟩
  | prepare hph hp hlast =>
    exact Or.inr ⟨rfl, none_of_prepares (fun _ _ => rfl) hp, hother hph (by decide)⟩
  | idle hph hidle =>
    refine Or.inr ⟨rfl, by simp, fun hrev => ?_⟩
    rcases hidle (by simp [Phase.Live, hrev]) with hno | ⟨hscr, -⟩
    · exact hno
    · rw [hrev] at hscr
      cases hscr
  | refuse hph hme hmo => exact Or.inr ⟨rfl, by simp [Task.revealRound], hother hph (by decide)⟩
  | generate hph hme hlast hmo hv hk =>
    exact Or.inr ⟨by rw [Reader.submitOnce_frame],
      Reader.none_of_mem_submitOnce (fun _ _ _ _ _ => rfl) _ _ _, hother hph (by decide)⟩
  | submit hph hme hlast =>
    exact Or.inr ⟨by rw [Reader.submitOnce_frame],
      Reader.none_of_mem_submitOnce (fun _ _ _ _ _ => rfl) _ _ _, hother hph (by decide)⟩
  | encrypt hph hme => exact Or.inr ⟨rfl, by simp [Task.revealRound], hother hph (by decide)⟩
  | scramble hph hme hlast hturn =>
    exact Or.inr ⟨rfl, by simp [Task.revealRound], hother hph (by decide)⟩
  | decrypt hph hme => exact Or.inr ⟨rfl, by simp [Task.revealRound], hother hph (by decide)⟩
  | reveal hph hme =>
    refine Or.inl ⟨hph, ?_, ⟨_, List.mem_singleton_self _, rfl⟩,
      by simp [Task.revealRound, eq_comm]⟩
    unfold Reader.remember
    split_ifs <;> rfl

/-- What is new scrambles in this round. -/
theorem Reads.scrambleRound_eq (h : Reads env c active draws rd v a) :
    ∀ t ∈ a.tasks, ∀ r, t.scrambleRound = some r → r = v.round := by
  rcases h.scramble_cases with ⟨-, -, -, -, htasks⟩ | ⟨-, -, htasks, -⟩
  · exact htasks
  · intro t ht r htr
    rw [htasks t ht] at htr
    cases htr

/-- What is new reveals in this round. -/
theorem Reads.revealRound_eq (h : Reads env c active draws rd v a) :
    ∀ t ∈ a.tasks, ∀ r, t.revealRound = some r → r = v.round := by
  rcases h.reveal_cases with ⟨-, -, -, htasks⟩ | ⟨-, htasks, -⟩
  · exact htasks
  · intro t ht r htr
    rw [htasks t ht] at htr
    cases htr

end Turn

/-! ## What is remembered -/

/-- The client started a goroutine that scrambles in round `r`. -/
def Session.Scrambles (s : Session) (r : ℤ) : Prop := ∃ t ∈ s.tasks, t.scrambleRound = some r

/-- The client started a goroutine that reveals its key in round `r`. -/
def Session.Reveals (s : Session) (r : ℤ) : Prop := ∃ t ∈ s.tasks, t.revealRound = some r

section Memory

variable {env : Env} {c : Client} {s : Session} {v : StateMachine} {active : Bool} {draws : Draws}
  {a : Reaction}

/-- A configuration update starts no goroutine that scrambles, reveals or reports. -/
theorem Session.mem_of_mem_configure {f : Task → Option ℤ} (hf : ∀ r me, f (.prepare r me) = none)
    {leaving : Bool} {stored : ℕ} {t : Task} (ht : t ∈ (s.configure c active leaving stored).tasks)
    {r : ℤ} (hr : f t = some r) : t ∈ s.tasks := by
  rcases List.mem_append.1 ht with ht | ht
  · obtain ⟨me, rfl⟩ := Reader.eq_of_mem_prepares ht
    rw [hf] at hr
    cases hr
  · exact ht

/-- What was started stays started. -/
theorem Session.started_react {f : Task → Option ℤ} {r : ℤ} (x : Read) (a : Reaction)
    (h : ∃ t ∈ s.tasks, f t = some r) : ∃ t ∈ (s.react x a).tasks, f t = some r := by
  obtain ⟨t, ht, hr⟩ := h
  exact ⟨t, List.mem_append_right _ ht, hr⟩

/-- A new goroutine that scrambles or reveals is not about a round before the current one. -/
theorem Session.started_of_react {f : Task → Option ℤ} {r : ℤ} {x : Read} (hr : r < v.round)
    (htasks : ∀ t ∈ a.tasks, ∀ r, f t = some r → r = v.round)
    (h : ∃ t ∈ (s.react x a).tasks, f t = some r) : ∃ t ∈ s.tasks, f t = some r := by
  obtain ⟨t, ht, htr⟩ := h
  rcases List.mem_append.1 ht with ht | ht
  · have := htasks t ht r htr
    omega
  · exact ⟨t, ht, htr⟩

theorem Session.started_configure {f : Task → Option ℤ} (hf : ∀ r me, f (.prepare r me) = none)
    {leaving : Bool} {stored : ℕ} {r : ℤ} :
    (∃ t ∈ (s.configure c active leaving stored).tasks, f t = some r) ↔
      ∃ t ∈ s.tasks, f t = some r := by
  constructor
  · rintro ⟨t, ht, hr⟩
    exact ⟨t, mem_of_mem_configure hf ht hr, hr⟩
  · rintro ⟨t, ht, hr⟩
    exact ⟨t, List.mem_append_right _ ht, hr⟩

theorem Session.scrambles_configure {leaving : Bool} {stored : ℕ} {r : ℤ} :
    (s.configure c active leaving stored).Scrambles r ↔ s.Scrambles r :=
  started_configure fun _ _ => rfl

theorem Session.reveals_configure {leaving : Bool} {stored : ℕ} {r : ℤ} :
    (s.configure c active leaving stored).Reveals r ↔ s.Reveals r :=
  started_configure fun _ _ => rfl

/-- A configuration update starts no report. -/
theorem Session.result_of_mem_configure {leaving : Bool} {stored : ℕ} {sm : StateMachine} {r : ℤ}
    {snap : Snapshot}
    (ht : Task.sendRoundResult sm r snap ∈ (s.configure c active leaving stored).tasks) :
    Task.sendRoundResult sm r snap ∈ s.tasks :=
  mem_of_mem_configure (f := Task.resultRound) (fun _ _ => rfl) ht rfl

/-- If the client has scrambled in this round, it remembers the number of messages. -/
structure Counts (s : Session) : Prop where
  le : s.reader.lastScrambledRound ≤ s.reader.lastSm.round
  number : s.reader.lastScrambledRound = s.reader.lastSm.round →
    3 ≤ phaseOrder s.reader.lastSm.currentRoundInfo.phase ∧
      s.reader.snapshot.numberOfMessagesWhenScrambled =
        s.reader.lastSm.currentRoundInfo.participants.length
  scrambles : ∀ r, s.Scrambles r → r ≤ s.reader.lastScrambledRound ∧ ∃ x ∈ s.reads, x.sm.round = r
  scrambled : 0 ≤ s.reader.lastScrambledRound → s.Scrambles s.reader.lastScrambledRound

namespace Counts

theorem init : Counts {} where
  le := by decide
  number h := absurd h (by decide)
  scrambles r h := by simp [Session.Scrambles] at h
  scrambled h := absurd h (by decide)

theorem configure (h : Counts s) (active leaving : Bool) (stored : ℕ) :
    Counts (s.configure c active leaving stored) where
  le := h.le
  number := h.number
  scrambles r hr := h.scrambles r (Session.scrambles_configure.1 hr)
  scrambled h₀ := Session.scrambles_configure.2 (h.scrambled h₀)

/-- The count is kept while the round goes on. -/
theorem next (h : Counts s) (hv : s.Next v) (hr : s.reader.lastScrambledRound = v.round) :
    3 ≤ phaseOrder v.currentRoundInfo.phase ∧
      s.reader.snapshot.numberOfMessagesWhenScrambled =
        v.currentRoundInfo.participants.length := by
  have hle := hv.follows.round_le
  have hle' := h.le
  have heq : v.round = s.reader.lastSm.round := by omega
  obtain ⟨hord, hnum⟩ := h.number (hr.trans heq)
  have hlater := hv.follows.later_of_round_eq hv.view.inv.round_nonneg heq
  exact ⟨hord.trans hlater.order,
    by rw [hnum, (hlater.fixed (le_trans (by decide) hord)).1]⟩

/-- An update in which the client scrambles sets the number of messages. -/
theorem read (h : Counts s) (hv : s.Next v) (ha : Reads env c active draws s.reader v a) :
    Counts (s.react ⟨v, active⟩ a) := by
  have hround := hv.follows.round_le
  have hle := h.le
  have hlast : a.reader.lastSm = v := ha.lastSm
  rcases ha.scramble_cases with ⟨hph, hr, hnum, ⟨u, hu, hur⟩, htasks⟩ | ⟨hr, hnum, htasks, -⟩
  · refine ⟨?_, fun _ => ?_, ?_, fun _ => ⟨u, List.mem_append_left _ hu, ?_⟩⟩
    · rw [Session.reader_react, hr, hlast]
    · rw [Session.reader_react, hlast, hnum, hph]
      exact ⟨by decide, hv.view.length_messages⟩
    · rintro r ⟨t, ht, htr⟩
      rw [Session.reader_react, hr]
      rcases List.mem_append.1 ht with ht | ht
      · obtain rfl := htasks t ht r htr
        exact ⟨le_rfl, _, List.mem_cons_self, rfl⟩
      · obtain ⟨hle', x, hx, hxr⟩ := h.scrambles r ⟨t, ht, htr⟩
        exact ⟨by omega, x, List.mem_cons_of_mem _ hx, hxr⟩
    · rw [Session.reader_react, hr, hur]
  · refine ⟨?_, fun heq => ?_, ?_, fun h₀ => ?_⟩
    · rw [Session.reader_react, hr, hlast]
      omega
    · rw [Session.reader_react, hr, hlast] at heq
      rw [Session.reader_react, hlast, hnum]
      exact h.next hv heq
    · rintro r ⟨t, ht, htr⟩
      rw [Session.reader_react, hr]
      rcases List.mem_append.1 ht with ht | ht
      · rw [htasks t ht] at htr
        cases htr
      · obtain ⟨hle', x, hx, hxr⟩ := h.scrambles r ⟨t, ht, htr⟩
        exact ⟨hle', x, List.mem_cons_of_mem _ hx, hxr⟩
    · rw [Session.reader_react, hr] at h₀ ⊢
      exact Session.started_react _ a (h.scrambled h₀)

end Counts

/-- If the client has revealed its key in this round, it remembers hashes and messages. -/
structure Recalls (s : Session) : Prop where
  le : s.reader.snapshot.revealKeyHashesRound ≤ s.reader.lastSm.round
  snapshot : s.reader.snapshot.revealKeyHashesRound = s.reader.lastSm.round →
    s.reader.lastSm.currentRoundInfo.phase = .reveal ∧
      s.reader.snapshot.revealKeyHashes = s.reader.lastSm.currentRoundInfo.revealKeyHashes ∧
      s.reader.snapshot.messagesBeforeReveal = s.reader.lastSm.currentRoundInfo.messages
  reveals : ∀ r, s.Reveals r → r ≤ s.reader.snapshot.revealKeyHashesRound

namespace Recalls

theorem init : Recalls {} where
  le := by decide
  snapshot h := absurd h (by decide)
  reveals r h := by simp [Session.Reveals] at h

theorem configure (h : Recalls s) (active leaving : Bool) (stored : ℕ) :
    Recalls (s.configure c active leaving stored) where
  le := h.le
  snapshot := h.snapshot
  reveals r hr := h.reveals r (Session.reveals_configure.1 hr)

/-- The snapshot is kept while the round goes on. -/
theorem next (h : Recalls s) (hv : s.Next v)
    (hr : s.reader.snapshot.revealKeyHashesRound = v.round) :
    v.currentRoundInfo.phase = .reveal ∧
      s.reader.snapshot.revealKeyHashes = v.currentRoundInfo.revealKeyHashes ∧
      s.reader.snapshot.messagesBeforeReveal = v.currentRoundInfo.messages := by
  have hle := hv.follows.round_le
  have hle' := h.le
  have heq : v.round = s.reader.lastSm.round := by omega
  obtain ⟨hph, hhash, hmsgs⟩ := h.snapshot (hr.trans heq)
  have hlater := hv.follows.later_of_round_eq hv.view.inv.round_nonneg heq
  have hord := hlater.order
  rw [hph] at hord
  exact ⟨hv.view.inv.live.eq_reveal hord, by rw [hhash, hlater.hashes (by rw [hph]; decide)],
    by rw [hmsgs, (hlater.frozen (by rw [hph]; decide)).1]⟩

/-- An update of the reveal phase sets hashes and messages. -/
theorem read (h : Recalls s) (hv : s.Next v) (ha : Reads env c active draws s.reader v a) :
    Recalls (s.react ⟨v, active⟩ a) := by
  have hround := hv.follows.round_le
  have hle := h.le
  have hlast : a.reader.lastSm = v := ha.lastSm
  rcases ha.reveal_cases with ⟨hph, hsnap, -, htasks⟩ | ⟨hsnap, htasks, -⟩
  · -- the snapshot is taken now or was taken earlier in this round
    have hnow : a.reader.snapshot.revealKeyHashesRound = v.round ∧
        a.reader.snapshot.revealKeyHashes = v.currentRoundInfo.revealKeyHashes ∧
        a.reader.snapshot.messagesBeforeReveal = v.currentRoundInfo.messages := by
      rw [hsnap]
      unfold Reader.remember
      split_ifs with hlt
      · simp
      · have heq : s.reader.snapshot.revealKeyHashesRound = v.round := by omega
        exact ⟨heq, (h.next hv heq).2⟩
    refine ⟨?_, fun _ => ?_, ?_⟩
    · rw [Session.reader_react, hnow.1, hlast]
    · rw [Session.reader_react, hlast]
      exact ⟨hph, hnow.2⟩
    · rintro r ⟨t, ht, htr⟩
      rw [Session.reader_react, hnow.1]
      rcases List.mem_append.1 ht with ht | ht
      · exact (htasks t ht r htr).le
      · have := h.reveals r ⟨t, ht, htr⟩
        omega
  · refine ⟨?_, fun heq => ?_, ?_⟩
    · rw [Session.reader_react, hsnap, hlast]
      exact hle.trans hround
    · rw [Session.reader_react, hsnap, hlast] at heq
      rw [Session.reader_react, hlast, hsnap]
      exact h.next hv heq
    · rintro r ⟨t, ht, htr⟩
      rw [Session.reader_react, hsnap]
      rcases List.mem_append.1 ht with ht | ht
      · rw [htasks t ht] at htr
        cases htr
      · exact h.reveals r ⟨t, ht, htr⟩

end Recalls

/-- The updates were read in order. -/
structure Ordered (s : Session) : Prop where
  last : ∀ x ∈ s.reads, Follows x.sm s.reader.lastSm
  views : ∀ x ∈ s.reads, IsView x.sm
  comparable : ∀ x ∈ s.reads, ∀ y ∈ s.reads, Follows x.sm y.sm ∨ Follows y.sm x.sm

namespace Ordered

theorem init : Ordered {} := ⟨by simp, by simp, by simp⟩

/-- The states that were read stay in order. -/
theorem read (h : Ordered s) (hv : s.Next v) (ha : Reads env c active draws s.reader v a) :
    Ordered (s.react ⟨v, active⟩ a) := by
  have hold : ∀ x ∈ s.reads, Follows x.sm v := fun x hx =>
    (h.last x hx).trans hv.inv_last.round_nonneg hv.follows
  refine ⟨?_, ?_, ?_⟩
  · rw [Session.reads_react, Session.reader_react, ha.lastSm, List.forall_mem_cons]
    exact ⟨Follows.refl hv.view.inv.round_nonneg, hold⟩
  · rw [Session.reads_react, List.forall_mem_cons]
    exact ⟨hv.view, h.views⟩
  · intro x hx y hy
    rcases List.mem_cons.1 hx with rfl | hx <;> rcases List.mem_cons.1 hy with rfl | hy
    · exact Or.inl (Follows.refl hv.view.inv.round_nonneg)
    · exact Or.inr (hold y hy)
    · exact Or.inl (hold x hx)
    · exact h.comparable x hx y hy

/-- Two updates in which a finished round can be retrieved show the same. -/
theorem getRoundInfo_eq (h : Ordered s) {x y : Read} (hx : x ∈ s.reads) (hy : y ∈ s.reads) {r : ℤ}
    {ri ri' : RoundInfo} (hrx : r < x.sm.round) (hry : r < y.sm.round)
    (hri : x.sm.getRoundInfo r = .ok ri) (hri' : y.sm.getRoundInfo r = .ok ri') : ri = ri' := by
  rcases h.comparable x hx y hy with hf | hf
  · rw [hf.finished r hrx ri' hri'] at hri
    exact (Except.ok.inj hri).symm
  · rw [hf.finished r hry ri hri] at hri'
    exact Except.ok.inj hri'

end Ordered

/-! ## What is reported -/

/-- The reports of a session. -/
structure Reports (s : Session) : Prop where
  sent_le : s.reader.lastResChSend ≤ s.reader.lastSm.round - 1
  sent : s.reader.lastSm.currentRoundInfo.phase = .prepare →
    s.reader.lastSm.round - 1 ≤ s.reader.lastResChSend
  le : ∀ t ∈ s.tasks, ∀ r, t.resultRound = some r → r ≤ s.reader.lastResChSend
  once : (s.tasks.filterMap Task.resultRound).Nodup
  /-- A round that a session has followed to its end is reported on. -/
  complete : ∀ r, (∃ x ∈ s.reads, x.sm.round ≤ r) → r < s.reader.lastSm.round →
    ∃ t ∈ s.tasks, t.resultRound = some r
  /-- The report is about an update of the next round. -/
  source : ∀ sm r snap, Task.sendRoundResult sm r snap ∈ s.tasks →
    sm.round = r ∧ ∃ x ∈ s.reads, x.sm = sm
  /-- If the client scrambled and revealed, its snapshot is right. -/
  agrees : ∀ sm r snap, Task.sendRoundResult sm r snap ∈ s.tasks → s.Scrambles (r - 1) →
    s.Reveals (r - 1) → ∀ ri, sm.getRoundInfo (r - 1) = .ok ri → snap.Agrees (r - 1) ri

namespace Reports

theorem init : Reports {} where
  sent_le := by decide
  sent _ := by decide
  le := by simp
  once := List.nodup_nil
  complete r h := by simp at h
  source := by simp
  agrees := by simp

theorem configure (h : Reports s) (active leaving : Bool) (stored : ℕ) :
    Reports (s.configure c active leaving stored) where
  sent_le := h.sent_le
  sent := h.sent
  le t ht r hr := h.le t (Session.mem_of_mem_configure (fun _ _ => rfl) ht hr) r hr
  once := by
    have hnone : (Reader.prepares c active leaving (s.stored stored)).filterMap
        Task.resultRound = [] := by
      refine List.filterMap_eq_nil_iff.2 fun t ht => ?_
      obtain ⟨me, rfl⟩ := Reader.eq_of_mem_prepares ht
      rfl
    rw [Session.configure, List.filterMap_append, hnone]
    exact h.once
  complete r hx hlt := (Session.started_configure fun _ _ => rfl).2 (h.complete r hx hlt)
  source sm r snap ht := h.source sm r snap (Session.result_of_mem_configure ht)
  agrees sm r snap ht hs hr := h.agrees sm r snap (Session.result_of_mem_configure ht)
    (Session.scrambles_configure.1 hs) (Session.reveals_configure.1 hr)

/-- When a result is sent about a round in which the client revealed its key, the loop has just left
that round and remembers it. -/
theorem revealed_next (h : Reports s) (hm : Recalls s) (hv : s.Next v)
    (hph : v.currentRoundInfo.phase = .prepare) (hlast : s.reader.lastResChSend < v.round - 1)
    (hr : s.Reveals (v.round - 1)) :
    v.round - 1 = s.reader.lastSm.round ∧
      s.reader.snapshot.revealKeyHashesRound = v.round - 1 := by
  have hround := hv.follows.round_le
  have hr_le := hm.reveals _ hr
  have hm_le := hm.le
  have heq : v.round - 1 = s.reader.lastSm.round := by
    by_contra hne
    have hsame : v.round = s.reader.lastSm.round := by omega
    have hord := (hv.follows.later_of_round_eq hv.view.inv.round_nonneg hsame).order
    rw [hph] at hord
    have := h.sent (hv.inv_last.live.eq_prepare hord)
    omega
  exact ⟨heq, by omega⟩

theorem agrees_next (h : Reports s) (hc : Counts s) (hm : Recalls s) (hv : s.Next v)
    (hph : v.currentRoundInfo.phase = .prepare) (hlast : s.reader.lastResChSend < v.round - 1)
    (hs : s.Scrambles (v.round - 1)) (hr : s.Reveals (v.round - 1)) {ri : RoundInfo}
    (hri : v.getRoundInfo (v.round - 1) = .ok ri) :
    s.reader.snapshot.Agrees (v.round - 1) ri := by
  have hs_le := (hc.scrambles _ hs).1
  have hc_le := hc.le
  obtain ⟨heq, hround⟩ := h.revealed_next hm hv hph hlast hr
  rw [heq] at hri ⊢
  have hlater := hv.follows.later ri hri
  obtain ⟨-, hnum⟩ := hc.number (by omega)
  obtain ⟨hrev, hhash, hmsgs⟩ := hm.snapshot (hround.trans heq)
  have hord : 5 ≤ phaseOrder s.reader.lastSm.currentRoundInfo.phase := by rw [hrev]; decide
  exact {
    round := hround.trans heq
    hashes := by rw [hhash, hlater.hashes (le_trans (by decide) hord)]
    messages := by rw [hmsgs, (hlater.frozen hord).1]
    number := by
      rw [hnum, hv.view.length_of_getRoundInfo hri, (hlater.fixed (le_trans (by decide) hord)).1] }

/-- A report is about a round before the current one. -/
theorem lt_of_mem (h : Reports s) (hv : s.Next v) {sm : StateMachine} {r : ℤ} {snap : Snapshot}
    (ht : Task.sendRoundResult sm r snap ∈ s.tasks) : r - 1 < v.round := by
  have := h.le _ ht _ rfl
  have := h.sent_le
  have := hv.follows.round_le
  omega

/-- Earlier reports stay right. -/
theorem agrees_old (h : Reports s) (hv : s.Next v) (ha : Reads env c active draws s.reader v a)
    {sm : StateMachine} {r : ℤ} {snap : Snapshot} (ht : Task.sendRoundResult sm r snap ∈ s.tasks)
    (hs : (s.react ⟨v, active⟩ a).Scrambles (r - 1))
    (hr : (s.react ⟨v, active⟩ a).Reveals (r - 1)) :
    ∀ ri, sm.getRoundInfo (r - 1) = .ok ri → snap.Agrees (r - 1) ri := by
  have hlt : r - 1 < v.round := h.lt_of_mem hv ht
  exact h.agrees sm r snap ht (Session.started_of_react hlt ha.scrambleRound_eq hs)
    (Session.started_of_react hlt ha.revealRound_eq hr)

theorem source_old (h : Reports s) {sm : StateMachine} {r : ℤ} {snap : Snapshot} (x : Read)
    (a : Reaction) (ht : Task.sendRoundResult sm r snap ∈ s.tasks) :
    sm.round = r ∧ ∃ y ∈ (s.react x a).reads, y.sm = sm := by
  obtain ⟨hr, y, hy, hys⟩ := h.source sm r snap ht
  exact ⟨hr, y, List.mem_cons_of_mem _ hy, hys⟩

/-- A round that is over has been reported on, unless it is the one that was just left. -/
theorem complete_next (h : Reports s) (hv : s.Next v) {r : ℤ}
    (hx : ∃ x ∈ (s.react ⟨v, active⟩ a).reads, x.sm.round ≤ r) (hlt : r < v.round) :
    (∃ t ∈ s.tasks, t.resultRound = some r) ∨ r = v.round - 1 ∧
      v.currentRoundInfo.phase = .prepare ∧ s.reader.lastResChSend < v.round - 1 := by
  have hsent := h.sent_le
  obtain ⟨x, hx, hxr⟩ := hx
  rcases List.mem_cons.1 hx with rfl | hx
  · exact absurd hlt (not_lt.2 hxr)
  · rcases lt_or_ge r s.reader.lastSm.round with hlt' | hge
    · exact Or.inl (h.complete r ⟨x, hx, hxr⟩ hlt')
    · rcases (hv.consecutive (List.ne_nil_of_mem hx)).round_cases with heq | ⟨heq, hph⟩
      · omega
      · exact Or.inr ⟨by omega, hph, by omega⟩

/-- A turn that sends a result. -/
theorem read_of_result (h : Reports s) (hc : Counts s) (hm : Recalls s) (hv : s.Next v)
    (ha : Reads env c active draws s.reader v a) (hph : v.currentRoundInfo.phase = .prepare)
    (hlt : s.reader.lastResChSend < v.round - 1) (hr : a.reader.lastResChSend = v.round - 1)
    {rest : List Task} (htasks : a.tasks = .sendRoundResult v v.round s.reader.snapshot :: rest)
    (hrest : ∀ t ∈ rest, t.resultRound = none) : Reports (s.react ⟨v, active⟩ a) := by
  have hlast : a.reader.lastSm = v := ha.lastSm
  have hmem : ∀ t ∈ (s.react ⟨v, active⟩ a).tasks, t.resultRound ≠ none →
      t = .sendRoundResult v v.round s.reader.snapshot ∨ t ∈ s.tasks := by
    intro t ht hne
    rw [Session.tasks_react, htasks, List.cons_append, List.mem_cons, List.mem_append] at ht
    rcases ht with ht | ht | ht
    · exact Or.inl ht
    · exact absurd (hrest t ht) hne
    · exact Or.inr ht
  refine ⟨?_, fun _ => ?_, fun t ht r htr => ?_, ?_, fun r hx hrv => ?_, fun sm r snap ht => ?_,
    fun sm r snap ht hs hrv ri hri => ?_⟩
  · rw [Session.reader_react, hr, hlast]
  · rw [Session.reader_react, hr, hlast]
  · rw [Session.reader_react, hr]
    rcases hmem t ht (by rw [htr]; exact Option.some_ne_none r) with rfl | ht
    · exact (Option.some.inj htr).ge
    · exact (h.le t ht r htr).trans hlt.le
  · -- the round of the new result is above all earlier ones
    have hnew : Task.resultRound (.sendRoundResult v v.round s.reader.snapshot) =
      some (v.round - 1) := rfl
    rw [Session.tasks_react, htasks, List.filterMap_append, List.filterMap_cons_some hnew,
      List.filterMap_eq_nil_iff.2 hrest]
    refine List.nodup_cons.2 ⟨fun hmem' => ?_, h.once⟩
    obtain ⟨t, ht, htr⟩ := List.mem_filterMap.1 hmem'
    exact absurd (h.le t ht _ htr) (not_le.2 hlt)
  · rw [Session.reader_react, hlast] at hrv
    rcases h.complete_next hv hx hrv with hold | ⟨rfl, -, -⟩
    · exact Session.started_react _ a hold
    · exact ⟨_, by rw [Session.tasks_react, htasks]; exact List.mem_cons_self, rfl⟩
  · rcases hmem _ ht (Option.some_ne_none _) with heq | ht
    · cases heq
      exact ⟨rfl, _, List.mem_cons_self, rfl⟩
    · exact h.source_old _ a ht
  · rcases hmem _ ht (Option.some_ne_none _) with heq | ht
    · cases heq
      exact h.agrees_next hc hm hv hph hlt
        (Session.started_of_react (by omega) ha.scrambleRound_eq hs)
        (Session.started_of_react (by omega) ha.revealRound_eq hrv) hri
    · exact h.agrees_old hv ha ht hs hrv ri hri

/-- A turn that does not. -/
theorem read_of_quiet (h : Reports s) (hv : s.Next v) (ha : Reads env c active draws s.reader v a)
    (hr : a.reader.lastResChSend = s.reader.lastResChSend)
    (htasks : ∀ t ∈ a.tasks, t.resultRound = none)
    (hprep : v.currentRoundInfo.phase = .prepare → v.round - 1 ≤ s.reader.lastResChSend) :
    Reports (s.react ⟨v, active⟩ a) := by
  have hlast : a.reader.lastSm = v := ha.lastSm
  have hmem : ∀ t ∈ (s.react ⟨v, active⟩ a).tasks, t.resultRound ≠ none → t ∈ s.tasks := by
    intro t ht hne
    rcases List.mem_append.1 ht with ht | ht
    · exact absurd (htasks t ht) hne
    · exact ht
  refine ⟨?_, fun hph => ?_, fun t ht r htr => ?_, ?_, fun r hx hrv => ?_, fun sm r snap ht => ?_,
    fun sm r snap ht hs hrv ri hri => ?_⟩
  · have := h.sent_le
    have := hv.follows.round_le
    rw [Session.reader_react, hr, hlast]
    omega
  · rw [Session.reader_react, hlast] at hph
    rw [Session.reader_react, hr, hlast]
    exact hprep hph
  · rw [Session.reader_react, hr]
    exact h.le t (hmem t ht (by rw [htr]; exact Option.some_ne_none r)) r htr
  · rw [Session.tasks_react, List.filterMap_append, List.filterMap_eq_nil_iff.2 htasks]
    exact h.once
  · rw [Session.reader_react, hlast] at hrv
    rcases h.complete_next hv hx hrv with hold | ⟨-, hph, hlt⟩
    · exact Session.started_react _ a hold
    · exact absurd (hprep hph) (not_le.2 hlt)
  · exact h.source_old _ a (hmem _ ht (Option.some_ne_none _))
  · exact h.agrees_old hv ha (hmem _ ht (Option.some_ne_none _)) hs hrv ri hri

/-- An update of a new round is followed by one report on the round before. -/
theorem read (h : Reports s) (hc : Counts s) (hm : Recalls s) (hv : s.Next v)
    (ha : Reads env c active draws s.reader v a) : Reports (s.react ⟨v, active⟩ a) := by
  rcases ha.result_cases with ⟨hph, hlt, hr, rest, htasks, hrest⟩ | ⟨hr, htasks, hprep⟩
  · exact h.read_of_result hc hm hv ha hph hlt hr htasks hrest
  · exact h.read_of_quiet hv ha hr htasks hprep

end Reports

/-- All of these hold in every reachable world. -/
theorem World.Reachable.reports {w : World} (h : World.Reachable env c w) :
    Counts w.session ∧ Recalls w.session ∧ Ordered w.session ∧ Reports w.session := by
  refine World.session_induction (P := fun s => Counts s ∧ Recalls s ∧ Ordered s ∧ Reports s)
    ⟨.init, .init, .init, .init⟩ ?_ ?_ h
  · rintro s v active draws a ⟨hc, hm, ho, hr⟩ hv ha
    exact ⟨hc.read hv ha, hm.read hv ha, ho.read hv ha, hr.read hc hm hv ha⟩
  · rintro s active leaving stored ⟨hc, hm, ho, hr⟩
    exact ⟨hc.configure active leaving stored, hm.configure active leaving stored,
      ⟨ho.last, ho.views, ho.comparable⟩, hr.configure active leaving stored⟩

end Memory

/-! ## The result of a round -/

/-- What a goroutine sends to the user. -/
def Task.result (env : Env) (c : Client) : Task → Go (Option RoundResult)
  | sendRoundResult sm r snap => c.sendRoundResult env sm r snap
  | _ => .ok none

/-- What was sent to the user about round `r`. -/
def Session.results (env : Env) (c : Client) (s : Session) (r : ℤ) :
    List (Go (Option RoundResult)) :=
  (s.tasks.filter fun t => t.resultRound = some r).map (Task.result env c)

/-- A value that occurs once is found once. -/
theorem filter_eq_singleton {α β : Type} [DecidableEq β] {f : α → Option β} {l : List α} {x : α}
    {b : β} (h : (l.filterMap f).Nodup) (hx : x ∈ l) (hb : f x = some b) :
    (l.filter fun y => f y = some b) = [x] := by
  induction l with
  | nil => cases hx
  | cons y l ih =>
    rcases hy : f y with _ | b'
    · rw [List.filterMap_cons_none hy] at h
      have hx' : x ∈ l := by
        rcases List.mem_cons.1 hx with rfl | hx
        · rw [hy] at hb
          cases hb
        · exact hx
      rw [List.filter_cons_of_neg (by simp [hy])]
      exact ih h hx'
    · rw [List.filterMap_cons_some hy, List.nodup_cons] at h
      rcases List.mem_cons.1 hx with rfl | hx
      · rw [hb] at hy
        cases hy
        rw [List.filter_cons_of_pos (by simp [hb]), List.filter_eq_nil_iff.2 fun z hz hzb => ?_]
        exact h.1 (List.mem_filterMap.2 ⟨z, hz, of_decide_eq_true hzb⟩)
      · have hne : b' ≠ b := by
          rintro rfl
          exact h.1 (List.mem_filterMap.2 ⟨x, hx, hb⟩)
        rw [List.filter_cons_of_neg (by simp [hy, hne])]
        exact ih h.2 hx

section Result

variable {env : Env} {c : Client} {w : World} {r : ℤ} {x y : Read} {ri : RoundInfo}

/-- A round that is over is not the current one. -/
theorem World.Reachable.lt_of_finished (h : World.Reachable env c w) (hx : x ∈ w.session.reads)
    (hri : x.sm.getRoundInfo r = .ok ri) (hph : ri.phase = .done ∨ ri.phase = .failed) :
    r < x.sm.round := by
  have hinv := (h.reports.2.2.1.views x hx).inv
  refine lt_of_le_of_ne (getRoundInfo_eq_ok_iff.1 hri).2.1 fun heq => ?_
  rw [heq, getRoundInfo_currentRoundInfo hinv.round_nonneg] at hri
  cases hri
  exact hinv.live.unfinished hph

/-- A goroutine that sends a result is the only one to send one about its round. -/
theorem World.Reachable.results_of_mem (h : World.Reachable env c w) {t : Task}
    (ht : t ∈ w.session.tasks) (hr : t.resultRound = some r) :
    w.session.results env c r = [t.result env c] := by
  rw [Session.results, filter_eq_singleton h.reports.2.2.2.once ht hr, List.map_singleton]

/-- About a round that the client has read the end of, after it began to read, one result is sent.
-/
theorem World.Reachable.result_eq (h : World.Reachable env c w) (hy : y ∈ w.session.reads)
    (hyr : y.sm.round ≤ r) (hx : x ∈ w.session.reads) (hri : x.sm.getRoundInfo r = .ok ri)
    (hph : ri.phase = .done ∨ ri.phase = .failed) :
    ∃ sm snap, Task.sendRoundResult sm (r + 1) snap ∈ w.session.tasks ∧
      sm.getRoundInfo r = .ok ri ∧
      w.session.results env c r = [c.sendRoundResult env sm (r + 1) snap] := by
  obtain ⟨-, -, hord, hrep⟩ := h.reports
  have hlt := h.lt_of_finished hx hri hph
  obtain ⟨t, ht, htr⟩ := hrep.complete r ⟨y, hy, hyr⟩ (hlt.trans_le (hord.last x hx).round_le)
  cases t with
  | sendRoundResult sm ρ snap =>
    obtain rfl : ρ - 1 = r := Option.some.inj htr
    obtain ⟨hsm, z, hz, rfl⟩ := hrep.source sm ρ snap ht
    have hr₀ := (getRoundInfo_eq_ok_iff.1 hri).1
    have hget : z.sm.getRoundInfo (ρ - 1) = .ok (z.sm.rounds (slot (ρ - 1))) :=
      getRoundInfo_eq_ok_iff.2 ⟨hr₀, by omega, by omega, rfl⟩
    rw [← hord.getRoundInfo_eq hx hz hlt (by omega) hri hget] at hget
    rw [sub_add_cancel]
    exact ⟨z.sm, snap, ht, hget, h.results_of_mem ht rfl⟩
  | _ => cases htr

/-- **One report.** If the client also scrambled and revealed its key in the round, and the round is
done, the result is computed from a snapshot that agrees with the round. -/
theorem World.Reachable.results_eq (h : World.Reachable env c w) (hx : x ∈ w.session.reads)
    (hri : x.sm.getRoundInfo r = .ok ri) (hph : ri.phase = .done) (hs : w.session.Scrambles r)
    (hr : w.session.Reveals r) : ∃ sm snap, sm.getRoundInfo r = .ok ri ∧ snap.Agrees r ri ∧
      w.session.results env c r = [c.sendRoundResult env sm (r + 1) snap] := by
  obtain ⟨hcounts, -, -, hrep⟩ := h.reports
  obtain ⟨-, y, hy, hyr⟩ := hcounts.scrambles r hs
  obtain ⟨sm, snap, ht, hget, hres⟩ := h.result_eq hy hyr.le hx hri (Or.inl hph)
  have hr₁ : r + 1 - 1 = r := by omega
  have hag := hrep.agrees sm (r + 1) snap ht
  rw [hr₁] at hag
  exact ⟨sm, snap, hget, hag hs hr ri hget, hres⟩

end Result

end EggScrambler
