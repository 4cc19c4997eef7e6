import Mathlib
import EggScrambler.LastStateMachine

/-!
# The aborter

The loop of `aborter` in `anonbcast/client.go`, which gives up on rounds that make no progress.  A
turn copies the last update, reads the clock, aborts the round if its phase has timed out, and
sleeps.  Meanwhile updates are stored, in any order and also between the copy and the reading of the
clock.  Time is an integer that does not go back, and so are durations, which the source counts in
nanoseconds with 64 bits: what is added up here is supposed to stay below `2 ^ 63`.  A sleep lasts at
least as long as it should; the loop runs on at most `delay` after that.

`deadline` is the time at which the held phase times out.

* `aborter_prompt`: the loop does not panic, and a phase that has timed out is aborted in time
  although the loop was asleep.
* `aborter_sound`: nothing else is aborted, and not too often.
-/

namespace EggScrambler

open StateMachine Transition

/-- The part of `ClientConfig` that the loop reads; the sum is below `2 ^ 63` nanoseconds. -/
structure Timeouts where
  messageTimeout : ℤ
  protocolTimeout : ℤ

def LastStateMachine.deepCopy (l : LastStateMachine) : Go LastStateMachine := do
  let sm ← l.sm.deepCopy
  return { l with sm }

namespace Timeouts

/-- The switch over the phase: what is aborted, and `sleepAmount`. -/
def check (env : Env) (cfg : Timeouts) (last : LastStateMachine) (now : ℤ) :
    Go (Option Op × ℤ) :=
  match last.sm.currentRoundInfo.phase with
  | .prepare => .ok (none, cfg.protocolTimeout)
  | .submit =>
    let submitTimeout := cfg.messageTimeout + cfg.protocolTimeout
    let timeSince := now - last.phaseTimestamp
    if timeSince > submitTimeout then .ok (some (Client.abort last.sm.round), cfg.protocolTimeout)
    else .ok (none, min cfg.protocolTimeout (submitTimeout - timeSince))
  | .encrypt | .scramble | .decrypt =>
    let timeSince := now - last.timestamp
    if timeSince > cfg.protocolTimeout then
      .ok (some (Client.abort last.sm.round), cfg.protocolTimeout)
    else .ok (none, cfg.protocolTimeout - timeSince)
  | .reveal =>
    let timeSince := now - last.phaseTimestamp
    if timeSince > cfg.protocolTimeout then
      .ok (some (Client.abort last.sm.round), cfg.protocolTimeout)
    else .ok (none, cfg.protocolTimeout - timeSince)
  -- "which should never happen"
  | .unset | .done | .failed => do
    assertf env False
    return (none, -1)

/-- A turn of the loop from the reading of the clock to the sleep. -/
def turn (env : Env) (cfg : Timeouts) (last : LastStateMachine) (now : ℤ) :
    Go (Option Op × ℤ) := do
  let (op, sleepAmount) ← cfg.check env last now
  assertf env (sleepAmount ≥ 0)
  return (op, sleepAmount)

/-- When the held phase times out. -/
def deadline (cfg : Timeouts) (l : LastStateMachine) : Option ℤ :=
  match l.sm.currentRoundInfo.phase with
  | .submit => some (l.phaseTimestamp + (cfg.messageTimeout + cfg.protocolTimeout))
  | .encrypt | .scramble | .decrypt => some (l.timestamp + cfg.protocolTimeout)
  | .reveal => some (l.phaseTimestamp + cfg.protocolTimeout)
  | _ => none

end Timeouts

/-- The loop and the register that it watches. -/
structure Watch where
  last : LastStateMachine
  clock : ℤ
  /-- The end of the sleep. -/
  wake : ℤ
  /-- The copy, from when it is made until the clock is read. -/
  copied : Option LastStateMachine := none
  /-- Times and rounds of the calls of `abort`, newest first. -/
  aborts : List (ℤ × ℤ) := []

inductive WatchEvent where
  /-- A goroutine stores update number `k`. -/
  | set (k : ℕ) (now : ℤ)
  /-- The loop copies the last update. -/
  | copy (now : ℤ)
  /-- The loop reads the clock and decides. -/
  | turn (now : ℤ)

def WatchEvent.now : WatchEvent → ℤ
  | set _ now | copy now | turn now => now

namespace Watch

/-- The client was created, and the loop begins. -/
def start (t₁ t₂ : ℤ) : Watch where
  last := .new t₁ t₂
  clock := t₂
  wake := t₂

/-- One event.  Time goes on, and the loop is run in time. -/
def step (env : Env) (cfg : Timeouts) (updates : List StateMachine) (delay : ℤ) (s : Watch)
    (e : WatchEvent) : Go (Watch × Bool) :=
  if s.clock ≤ e.now ∧ e.now ≤ s.wake + delay then
    match e with
    | .set k now =>
      match updates[k]? with
      | none => .ok (s, false)
      | some sm => .ok ({ s with last := s.last.set sm k now, clock := now }, true)
    | .copy now =>
      if s.copied = none ∧ s.wake ≤ now then do
        let last ← s.last.deepCopy
        return ({ s with copied := some last, clock := now }, true)
      else .ok (s, false)
    | .turn now =>
      match s.copied with
      | none => .ok (s, false)
      | some last => do
        let (op, sleepAmount) ← cfg.turn env last now
        return ({ s with
          clock := now
          wake := now + sleepAmount
          copied := none
          aborts := (op.toList.map fun op => (now, op.round)) ++ s.aborts }, true)
  else .ok (s, false)

end Watch

/-! ## One turn -/

/-- A register as the loop finds it. -/
structure LastStateMachine.Fresh (l : LastStateMachine) (now : ℤ) : Prop where
  inv : Inv l.sm
  sized : Sized l.sm
  timestamp_le : l.timestamp ≤ now
  phaseTimestamp_le : l.phaseTimestamp ≤ now

namespace LastStateMachine.Fresh

variable {l : LastStateMachine} {now now' : ℤ}

theorem mono (h : l.Fresh now) (hle : now ≤ now') : l.Fresh now' :=
  ⟨h.inv, h.sized, h.timestamp_le.trans hle, h.phaseTimestamp_le.trans hle⟩

theorem deepCopy (h : l.Fresh now) : l.deepCopy = .ok l := by
  rw [LastStateMachine.deepCopy, h.inv.deepCopy_eq_self_iff.2 h.sized]
  rfl

theorem set (h : l.Fresh now) (hle : now ≤ now') {sm : StateMachine} (hv : IsView sm) (k : ℤ) :
    (l.set sm k now').Fresh now' := by
  unfold LastStateMachine.set
  split_ifs with hk hm
  · exact ⟨hv.inv, hv.sized, le_rfl, le_rfl⟩
  · exact ⟨hv.inv, hv.sized, le_rfl, h.phaseTimestamp_le.trans hle⟩
  · exact h.mono hle

end LastStateMachine.Fresh

namespace Timeouts

variable {env : Env} {cfg : Timeouts} {l : LastStateMachine} {now : ℤ}

/-- What a turn does, in terms of the deadline. -/
inductive Turns (cfg : Timeouts) (l : LastStateMachine) (now : ℤ) : Option Op → ℤ → Prop
  | idle (h : cfg.deadline l = none) : Turns cfg l now none cfg.protocolTimeout
  | abort {d : ℤ} (h : cfg.deadline l = some d) (hd : d < now) :
      Turns cfg l now (some (Client.abort l.sm.round)) cfg.protocolTimeout
  | wait {d : ℤ} (h : cfg.deadline l = some d) (hd : now ≤ d) :
      Turns cfg l now none (min cfg.protocolTimeout (d - now))

theorem Turns.sleep_mem (hp : 0 ≤ cfg.protocolTimeout) {op : Option Op} {sleepAmount : ℤ}
    (h : Turns cfg l now op sleepAmount) : 0 ≤ sleepAmount ∧ sleepAmount ≤ cfg.protocolTimeout := by
  cases h <;> omega

/-- The switch follows the deadline. -/
theorem check_turns (env : Env) (cfg : Timeouts) (h : l.Fresh now) :
    ∃ op sleepAmount, cfg.check env l now = .ok (op, sleepAmount) ∧
      Turns cfg l now op sleepAmount := by
  have ht := h.timestamp_le
  have hpt := h.phaseTimestamp_le
  have hdead : ∀ {ph}, l.sm.currentRoundInfo.phase = ph → cfg.deadline l = match ph with
      | .submit => some (l.phaseTimestamp + (cfg.messageTimeout + cfg.protocolTimeout))
      | .encrypt | .scramble | .decrypt => some (l.timestamp + cfg.protocolTimeout)
      | .reveal => some (l.phaseTimestamp + cfg.protocolTimeout)
      | _ => none := by
    rintro ph rfl
    rfl
  have hwait : ∀ {d sleepAmount}, cfg.deadline l = some d → now ≤ d →
      sleepAmount = min cfg.protocolTimeout (d - now) → Turns cfg l now none sleepAmount := by
    rintro d _ hd hle rfl
    exact .wait hd hle
  rcases h.inv.live with hph | hph | hph | hph | hph | hph <;> unfold check <;>
    simp only [hph] <;> have hd := hdead hph <;> dsimp only at hd
  · exact ⟨_, _, rfl, .idle hd⟩
  all_goals
    split_ifs
    · exact ⟨_, _, rfl, Turns.abort hd (by omega)⟩
    · exact ⟨_, _, rfl, hwait hd (by omega) (by omega)⟩

/-- The assertions hold. -/
theorem turn_turns (env : Env) (hp : 0 ≤ cfg.protocolTimeout) (h : l.Fresh now) :
    ∃ op sleepAmount, cfg.turn env l now = .ok (op, sleepAmount) ∧
      Turns cfg l now op sleepAmount := by
  obtain ⟨op, sleepAmount, hc, ht⟩ := check_turns env cfg h
  refine ⟨op, sleepAmount, ?_, ht⟩
  rw [turn, hc]
  simp only [bind, Except.bind, assertf_of (ht.sleep_mem hp).1]
  rfl

/-- A new update moves the deadline into the future, unless it leaves the phase alone. -/
theorem deadline_set (hm : 0 ≤ cfg.messageTimeout) {sm : StateMachine} {k d : ℤ}
    (h : cfg.deadline (l.set sm k now) = some d) :
    cfg.deadline l = some d ∧ (l.set sm k now).sm.round = l.sm.round ∨
      now + cfg.protocolTimeout ≤ d := by
  unfold LastStateMachine.set at h ⊢
  split_ifs at h ⊢ with hk hmom
  · right
    unfold deadline at h
    dsimp only at h
    split at h <;> cases h <;> omega
  · -- the same phase of the same round
    push Not at hmom
    unfold deadline at h ⊢
    dsimp only at h ⊢
    rw [← hmom.2]
    split at h <;> cases h
    · exact Or.inl ⟨rfl, hmom.1⟩
    all_goals first | exact Or.inr le_rfl | exact Or.inl ⟨rfl, hmom.1⟩
  · exact Or.inl ⟨h, rfl⟩

end Timeouts

/-! ## Whole runs -/

namespace Watch

variable {env : Env} {cfg : Timeouts} {updates : List StateMachine} {delay : ℤ} {s s' : Watch}

/-- The invariant of the loop. -/
structure Sound (cfg : Timeouts) (delay : ℤ) (s : Watch) : Prop where
  fresh : s.last.Fresh s.clock
  clock_le : s.clock ≤ s.wake + delay
  wake_le : s.wake ≤ s.clock + cfg.protocolTimeout
  /-- The loop wakes up when the held phase times out, or has aborted the round since. -/
  due : ∀ d, cfg.deadline s.last = some d → s.wake ≤ d + delay ∨
    ∃ t, d < t ∧ (t, s.last.sm.round) ∈ s.aborts
  /-- A copy has the same deadline, or the phase has begun since. -/
  copied : ∀ l, s.copied = some l → l.Fresh s.clock ∧ s.wake ≤ s.clock ∧
    ∀ d, cfg.deadline s.last = some d →
      cfg.deadline l = some d ∧ s.last.sm.round = l.sm.round ∨ s.wake + cfg.protocolTimeout ≤ d
  spaced : ∀ x ∈ s.aborts, x.1 + cfg.protocolTimeout ≤ s.wake
  pairwise : s.aborts.Pairwise fun x y => y.1 + cfg.protocolTimeout ≤ x.1

theorem Sound.start {t₁ t₂ : ℤ} (ht : t₁ ≤ t₂) (hp : 0 ≤ cfg.protocolTimeout)
    (hdelay : 0 ≤ delay) : Sound cfg delay (start t₁ t₂) where
  fresh := ⟨Inv.new, Sized.new, ht, le_rfl⟩
  clock_le := by simpa [Watch.start] using hdelay
  wake_le := by simpa [Watch.start] using hp
  due d hd := by cases hd
  copied l hl := by cases hl
  spaced := by simp [Watch.start]
  pairwise := by simp [Watch.start]

/-- What an event does. -/
inductive Watches (cfg : Timeouts) (updates : List StateMachine) (delay : ℤ) (s : Watch) :
    Watch → Prop
  | set {k : ℕ} {now : ℤ} {sm : StateMachine} (hnow : s.clock ≤ now)
      (hle : now ≤ s.wake + delay) (hsm : sm ∈ updates) :
      Watches cfg updates delay s { s with last := s.last.set sm k now, clock := now }
  | copy {now : ℤ} (hnow : s.clock ≤ now) (hle : now ≤ s.wake + delay) (hwake : s.wake ≤ now) :
      Watches cfg updates delay s { s with copied := some s.last, clock := now }
  | turn {now : ℤ} {l : LastStateMachine} {op : Option Op} {sleepAmount : ℤ}
      (hnow : s.clock ≤ now) (hle : now ≤ s.wake + delay) (hl : s.copied = some l)
      (ht : cfg.Turns l now op sleepAmount) :
      Watches cfg updates delay s { s with
        clock := now
        wake := now + sleepAmount
        copied := none
        aborts := (op.toList.map fun op => (now, op.round)) ++ s.aborts }
  | stay : Watches cfg updates delay s s

section Step

variable (hm : 0 ≤ cfg.messageTimeout) (hp : 0 ≤ cfg.protocolTimeout)

include hp in
/-- No event panics, and what it does is of one of these forms. -/
theorem Sound.watches (h : Sound cfg delay s) (env : Env) (updates : List StateMachine)
    (e : WatchEvent) :
    ∃ s' b, s.step env cfg updates delay e = .ok (s', b) ∧ Watches cfg updates delay s s' := by
  unfold Watch.step
  split_ifs with hguard
  · cases e with
    | set k now =>
      dsimp only
      split
      · exact ⟨_, _, rfl, .stay⟩
      · rename_i sm hsm
        exact ⟨_, _, rfl, .set hguard.1 hguard.2 (List.mem_of_getElem? hsm)⟩
    | copy now =>
      dsimp only
      split_ifs with hcopy
      · rw [h.fresh.deepCopy]
        exact ⟨_, _, rfl, .copy hguard.1 hguard.2 hcopy.2⟩
      · exact ⟨_, _, rfl, .stay⟩
    | turn now =>
      dsimp only
      rcases hl : s.copied with _ | l
      · exact ⟨_, _, rfl, .stay⟩
      · have hnow : s.clock ≤ now := hguard.1
        obtain ⟨op, sleepAmount, hturn, ht⟩ := Timeouts.turn_turns env hp
          ((h.copied l hl).1.mono hnow)
        simp only [hturn]
        exact ⟨_, _, rfl, .turn hnow hguard.2 hl ht⟩
  · exact ⟨_, _, rfl, .stay⟩

include hm

theorem Sound.set (hdelay : 0 ≤ delay) (h : Sound cfg delay s) {k : ℕ} {now : ℤ}
    {sm : StateMachine} (hv : IsView sm) (hnow : s.clock ≤ now) (hle : now ≤ s.wake + delay) :
    Sound cfg delay { s with last := s.last.set sm k now, clock := now } where
  fresh := h.fresh.set hnow hv k
  clock_le := hle
  wake_le := h.wake_le.trans (by dsimp only; omega)
  due d hd := by
    rcases Timeouts.deadline_set hm hd with ⟨hold, hr⟩ | hnew
    · rw [hr]
      exact h.due d hold
    · have := h.wake_le
      dsimp only
      omega
  copied l hl := by
    obtain ⟨hfresh, hwake, hdead⟩ := h.copied l hl
    refine ⟨hfresh.mono hnow, hwake.trans hnow, fun d hd => ?_⟩
    rcases Timeouts.deadline_set hm hd with ⟨hold, hr⟩ | hnew
    · rw [hr]
      exact hdead d hold
    · dsimp only
      omega
  spaced := h.spaced
  pairwise := h.pairwise

include hp
omit hm in
/-- After a turn. -/
theorem Sound.turn (hdelay : 0 ≤ delay) (h : Sound cfg delay s) {now : ℤ} {l : LastStateMachine}
    {op : Option Op} {sleepAmount : ℤ} (hnow : s.clock ≤ now) (hle : now ≤ s.wake + delay)
    (hl : s.copied = some l) (ht : cfg.Turns l now op sleepAmount) :
    Sound cfg delay { s with
      clock := now
      wake := now + sleepAmount
      copied := none
      aborts := (op.toList.map fun op => (now, op.round)) ++ s.aborts } := by
  obtain ⟨hfresh, hwake, hdead⟩ := h.copied l hl
  have hsleep := ht.sleep_mem hp
  have hspaced := h.spaced
  refine ⟨h.fresh.mono hnow, by dsimp only; omega, by dsimp only; omega, fun d hd => ?_,
    by simp, fun x hx => ?_, ?_⟩
  · rcases hdead d hd with ⟨hsame, hr⟩ | hlater
    · cases ht with
      | idle hnone =>
        rw [hnone] at hsame
        cases hsame
      | abort hd' hlt =>
        rw [hd'] at hsame
        cases hsame
        exact Or.inr ⟨now, hlt, by simp [hr, Client.abort, Op.round]⟩
      | wait hd' hle' =>
        rw [hd'] at hsame
        cases hsame
        left
        dsimp only
        omega
    · left
      dsimp only
      omega
  · rcases List.mem_append.1 hx with hnew | hold
    · cases ht with
      | idle | wait => cases hnew
      | abort => rw [List.mem_singleton.1 hnew]
    · have := hspaced x hold
      dsimp only
      omega
  · refine List.pairwise_append.2 ⟨?_, h.pairwise, fun x hx y hy => ?_⟩
    · cases op <;> simp
    · obtain ⟨op', -, rfl⟩ := List.mem_map.1 hx
      have := hspaced y hy
      dsimp only
      omega

include hm in
/-- Every step keeps the loop in time for the deadline of the update that is held. -/
theorem Sound.step (hdelay : 0 ≤ delay) (hviews : ∀ v ∈ updates, IsView v)
    (h : Sound cfg delay s) (hs : Watches cfg updates delay s s') : Sound cfg delay s' := by
  cases hs with
  | set hnow hle hsm => exact h.set hm hdelay (hviews _ hsm) hnow hle
  | @copy now hnow hle hwake =>
    exact { h with
      fresh := h.fresh.mono hnow
      clock_le := hle
      wake_le := h.wake_le.trans (by dsimp only; omega)
      copied := fun l hl => by
        cases hl
        exact ⟨h.fresh.mono hnow, hwake, fun d hd => Or.inl ⟨hd, rfl⟩⟩ }
  | turn hnow hle hl ht => exact h.turn hp hdelay hnow hle hl ht
  | stay => exact h

end Step

section Run

variable (hm : 0 ≤ cfg.messageTimeout) (hp : 0 ≤ cfg.protocolTimeout) (hdelay : 0 ≤ delay)
  (hviews : ∀ v ∈ updates, IsView v) {t₁ t₂ : ℤ} (ht : t₁ ≤ t₂)
include hm hp hdelay hviews ht

/-- Whatever happens, no step panics and the invariant holds. -/
theorem exists_run (env : Env) (events : List WatchEvent) : ∃ s,
    run (step env cfg updates delay) (start t₁ t₂) events = .ok s ∧ Sound cfg delay s := by
  refine run_total (fun s e hs => ?_) (Sound.start ht hp hdelay) events
  obtain ⟨s', b, hstep, hw⟩ := hs.watches hp env updates e
  exact ⟨s', b, hstep, hs.step hm hp hdelay hviews hw⟩

/-- **Promptness.** Whatever updates arrive and whenever the loop is run, it does not panic; and
twice the delay after the held phase has timed out, its round has been aborted since then. -/
theorem aborter_prompt (env : Env) (events : List WatchEvent) : ∃ s,
    run (step env cfg updates delay) (start t₁ t₂) events = .ok s ∧
      ∀ d, cfg.deadline s.last = some d → d + 2 * delay < s.clock →
        ∃ t, d < t ∧ (t, s.last.sm.round) ∈ s.aborts := by
  obtain ⟨s, hrun, hs⟩ := exists_run hm hp hdelay hviews ht env events
  refine ⟨s, hrun, fun d hd hlate => (hs.due d hd).resolve_left fun hwake => ?_⟩
  have := hs.clock_le
  omega

end Run

/-- What the loop saw: the copy is what the register held since the sleep was over, and an abort
goes back to a copy that had timed out. -/
structure Justified (cfg : Timeouts) (delay : ℤ) (visited : List Watch) (s : Watch) : Prop where
  copied : ∀ l, s.copied = some l → ∃ s' ∈ visited, s'.last = l ∧ s.wake ≤ s'.clock ∧
    s'.clock ≤ s.clock
  aborts : ∀ x ∈ s.aborts, ∃ s' ∈ visited, s'.last.sm.round = x.2 ∧ s'.clock ≤ x.1 ∧
    x.1 ≤ s'.clock + delay ∧ ∃ d, cfg.deadline s'.last = some d ∧ d < x.1

theorem Justified.mono {visited visited' : List Watch} (h : Justified cfg delay visited s)
    (hsub : visited ⊆ visited') : Justified cfg delay visited' s where
  copied l hl := by
    obtain ⟨s', hs', hrest⟩ := h.copied l hl
    exact ⟨s', hsub hs', hrest⟩
  aborts x hx := by
    obtain ⟨s', hs', hrest⟩ := h.aborts x hx
    exact ⟨s', hsub hs', hrest⟩

/-- What was justified stays so, and a new abort is justified by the states so far. -/
theorem Justified.step {visited : List Watch} (h : Justified cfg delay visited s)
    (hs : Watches cfg updates delay s s') : Justified cfg delay (s' :: visited) s' := by
  have hmono := h.mono (List.subset_cons_self s' visited)
  cases hs with
  | set hnow hle hsm =>
    refine ⟨fun l hl => ?_, hmono.aborts⟩
    obtain ⟨u, hu, hlast, hwake, hclock⟩ := hmono.copied l hl
    exact ⟨u, hu, hlast, hwake, hclock.trans hnow⟩
  | copy hnow hle hwake =>
    refine ⟨fun l hl => ⟨_, List.mem_cons_self, ?_, hwake, le_rfl⟩, hmono.aborts⟩
    cases hl
    rfl
  | @turn now l op sleepAmount hnow hle hl ht =>
    refine ⟨by simp, fun x hx => ?_⟩
    rcases List.mem_append.1 hx with hnew | hold
    · obtain ⟨u, hu, rfl, hwake, hclock⟩ := hmono.copied l hl
      cases ht with
      | idle | wait => cases hnew
      | abort hd hlt =>
        rw [List.mem_singleton.1 hnew]
        refine ⟨u, hu, rfl, hclock.trans hnow, ?_, _, hd, hlt⟩
        dsimp only
        omega
    · exact hmono.aborts x hold
  | stay => exact hmono

/-- **Soundness.** An abort of round `r` at time `t` is preceded, by no more than the delay, by a
moment at which the register held round `r` in a phase that had timed out by `t`; and two aborts are
at least `ProtocolTimeout` apart. -/
theorem aborter_sound (hm : 0 ≤ cfg.messageTimeout) (hp : 0 ≤ cfg.protocolTimeout)
    (hdelay : 0 ≤ delay) (hviews : ∀ v ∈ updates, IsView v) {t₁ t₂ : ℤ} (ht : t₁ ≤ t₂)
    {events : List WatchEvent}
    (hrun : run (step env cfg updates delay) (start t₁ t₂) events = .ok s) :
    (∀ t r, (t, r) ∈ s.aborts →
      ∃ s' ∈ trace (step env cfg updates delay) (start t₁ t₂) events, s'.last.sm.round = r ∧
        s'.clock ≤ t ∧ t ≤ s'.clock + delay ∧ ∃ d, cfg.deadline s'.last = some d ∧ d < t) ∧
    s.aborts.Pairwise fun x y => y.1 + cfg.protocolTimeout ≤ x.1 := by
  have h := run_induction
    (I := fun log s => Sound cfg delay s ∧
      Justified cfg delay (trace (step env cfg updates delay) (start t₁ t₂) log) s)
    ⟨Sound.start ht hp hdelay, by simp [start], by simp [start]⟩
    (fun log s e s' b hlog hs hstep => ?_) hrun
  · exact ⟨fun t r htr => h.2.aborts (t, r) htr, h.1.pairwise⟩
  · obtain ⟨s'', b', hstep', hw⟩ := hs.1.watches hp env updates e
    rw [hstep] at hstep'
    cases hstep'
    rw [trace_concat hlog hstep]
    exact ⟨hs.1.step hm hp hdelay hviews hw, hs.2.step hw⟩

/-! ## A round that does not go on -/

/-- The loop sleeps until the scramble phase of an update times out, and aborts the round. -/
def stuckEvents : List WatchEvent :=
  [.copy 0, .turn 0, .set 0 3, .copy 10, .turn 10, .copy 13, .turn 14, .set 0 16]

theorem isView_scrambleState : ∀ v ∈ [scrambleState], IsView v := by
  rw [List.forall_mem_singleton]
  exact ⟨scrambleState, reachable_scrambleState, by decide +kernel⟩

theorem aborter_prompt_stuck : ∃ s,
    run (step plainEnv ⟨30, 10⟩ [scrambleState] 1) (start 0 0) stuckEvents = .ok s ∧
      ∃ t, 13 < t ∧ (t, 0) ∈ s.aborts := by
  have hm : (0 : ℤ) ≤ (⟨30, 10⟩ : Timeouts).messageTimeout := by decide
  have hp : (0 : ℤ) ≤ (⟨30, 10⟩ : Timeouts).protocolTimeout := by decide
  obtain ⟨s, hrun, hs⟩ := aborter_prompt hm hp (by decide : (0 : ℤ) ≤ 1) isView_scrambleState
    (le_refl 0) plainEnv stuckEvents
  refine ⟨s, hrun, ?_⟩
  obtain ⟨s', hrun', htest⟩ := exists_of_endsWith (by decide +kernel :
    endsWith (step plainEnv ⟨30, 10⟩ [scrambleState] 1) (start 0 0) stuckEvents (fun s =>
      decide (Timeouts.deadline ⟨30, 10⟩ s.last = some 13 ∧ s.clock = 16 ∧
        s.last.sm.round = 0)) = true)
  rw [hrun] at hrun'
  cases hrun'
  obtain ⟨hd, hclock, hr⟩ := of_decide_eq_true htest
  rw [← hr]
  exact hs 13 hd (by rw [hclock]; decide)

theorem aborter_sound_stuck : ∃ s,
    run (step plainEnv ⟨30, 10⟩ [scrambleState] 1) (start 0 0) stuckEvents = .ok s ∧
      (14, 0) ∈ s.aborts ∧
      ∃ s' ∈ trace (step plainEnv ⟨30, 10⟩ [scrambleState] 1) (start 0 0) stuckEvents,
        s'.last.sm.round = 0 ∧ s'.clock ≤ 14 ∧ 14 ≤ s'.clock + 1 ∧
        ∃ d, Timeouts.deadline ⟨30, 10⟩ s'.last = some d ∧ d < 14 := by
  obtain ⟨s, hrun, htest⟩ := exists_of_endsWith (by decide +kernel :
    endsWith (step plainEnv ⟨30, 10⟩ [scrambleState] 1) (start 0 0) stuckEvents (fun s =>
      decide ((14, 0) ∈ s.aborts)) = true)
  have hmem := of_decide_eq_true htest
  exact ⟨s, hrun, hmem, (aborter_sound (by decide) (by decide) (by decide) isView_scrambleState
    (le_refl 0) hrun).1 14 0 hmem⟩

end Watch

end EggScrambler
