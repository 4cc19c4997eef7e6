import Mathlib
import EggScrambler.Lib.Register
import EggScrambler.World

/-!
# The last state machine

`anonbcast/laststatemachine.go`: the register in which a client keeps the last update, with the
times that `aborter` measures its timeouts from.  `readUpdates` numbers the updates and starts one
goroutine for each call of `set`, so the calls are executed in any order; `time.Now()` is an
argument.

It is a versioned register whose key is the round and phase of the held state.  Along a run a phase
that is left is not entered again, so that what is known about such registers applies.
-/

namespace EggScrambler

open StateMachine Transition VersionedRegister

structure LastStateMachine where
  sm : StateMachine
  version : ℤ
  /-- The time at which this update was received. -/
  timestamp : ℤ
  /-- The time at which the phase or round was last updated. -/
  phaseTimestamp : ℤ

/-- A call of `set`, with the time that it reads. -/
structure SetCall where
  sm : StateMachine
  version : ℕ
  now : ℤ

namespace LastStateMachine

/-- `newLastStateMachine` reads the clock twice. -/
def new (now₁ now₂ : ℤ) : LastStateMachine where
  sm := newStateMachine
  version := -1
  timestamp := now₁
  phaseTimestamp := now₂

def set (l : LastStateMachine) (sm : StateMachine) (version now : ℤ) : LastStateMachine :=
  if version > l.version then
    { version := version
      timestamp := now
      phaseTimestamp :=
        if sm.round ≠ l.sm.round ∨ sm.currentRoundInfo.phase ≠ l.sm.currentRoundInfo.phase then now
        else l.phaseTimestamp
      sm := sm }
  else l

/-- The register after some calls. -/
def setAll (l : LastStateMachine) : List SetCall → LastStateMachine
  | [] => l
  | x :: calls => (l.set x.sm x.version x.now).setAll calls

/-- The calls that change the register. -/
def accepted (l : LastStateMachine) : List SetCall → List SetCall
  | [] => []
  | x :: calls =>
    if x.version > l.version then x :: (l.set x.sm x.version x.now).accepted calls
    else l.accepted calls

end LastStateMachine

/-- Round and phase of a state. -/
def StateMachine.moment (sm : StateMachine) : ℤ × Phase := (sm.round, sm.currentRoundInfo.phase)

/-- The updates that were read, oldest first. -/
def Session.received (s : Session) : List StateMachine := (s.reads.map Read.sm).reverse

/-- What a client can receive: states of one run, or the copies of them that a server sends. -/
def Received (states : List StateMachine) : Prop :=
  ((∀ s ∈ states, Reachable s) ∧ states.IsChain (Leads apply)) ∨
    ∃ env c w, World.Reachable env c w ∧ w.session.received = states

/-! ## In the order of the versions -/

/-- One state is followed by another, and both are well formed. -/
structure Succeeds (s t : StateMachine) : Prop where
  left : Inv s
  right : Inv t
  follows : Follows s t

instance : IsTrans StateMachine Succeeds where
  trans _ _ _ h₁ h₂ := ⟨h₁.left, h₂.right, h₁.follows.trans h₁.right.round_nonneg h₂.follows⟩

theorem Succeeds.refl {s : StateMachine} (h : Inv s) : Succeeds s s :=
  ⟨h, h, Follows.refl h.round_nonneg⟩

theorem Succeeds.of_leads {s t : StateMachine} (h : Inv s) (hl : Leads apply s t) : Succeeds s t :=
  ⟨h, h.of_leads hl, Follows.of_leads h hl⟩

/-- What is received is received in order. -/
theorem Received.pairwise {states : List StateMachine} (h : Received states) :
    (newStateMachine :: states).Pairwise Succeeds := by
  rcases h with ⟨hreach, hchain⟩ | ⟨env, c, w, hw, rfl⟩
  · refine List.pairwise_cons.2 ⟨fun s hs => .of_leads Inv.new (hreach s hs), ?_⟩
    refine List.isChain_iff_pairwise.1 (hchain.imp_of_mem_imp fun s t hs _ hl => ?_)
    exact .of_leads (hreach s hs).inv hl
  · have hd := Delivered.of_reachable hw
    have hchain : w.session.received.IsChain Consecutive :=
      List.isChain_reverse.2 (List.isChain_append.1 hd.chain).2.1
    refine List.pairwise_cons.2 ⟨fun s hs => ?_, ?_⟩
    · have hv := hd.views s (List.mem_append_right _ (List.mem_reverse.1 hs))
      exact ⟨Inv.new, hv.inv, hv.follows_new⟩
    · exact List.isChain_iff_pairwise.1 (hchain.imp fun s t hc => ⟨hc.inv.1, hc.inv.2, hc.follows⟩)

/-- A phase that is left is not entered again. -/
theorem Succeeds.moment_eq {s t u : StateMachine} (hst : Succeeds s t) (htu : Succeeds t u)
    (h : s.moment = u.moment) : t.moment = s.moment := by
  simp only [moment, Prod.mk.injEq] at h ⊢
  exact hst.follows.phase_eq_of_between htu.follows hst.left hst.right htu.right.round_nonneg
    h.1.symm h.2.symm

/-! ## As a register -/

namespace LastStateMachine

def toRegister (l : LastStateMachine) : Register StateMachine ℤ :=
  ⟨l.sm, l.version, l.timestamp, l.phaseTimestamp⟩

end LastStateMachine

def SetCall.toWrite (x : SetCall) : Write StateMachine ℤ := ⟨x.sm, x.version, x.now⟩

namespace LastStateMachine

theorem toRegister_set (l : LastStateMachine) (x : SetCall) :
    (l.set x.sm x.version x.now).toRegister = l.toRegister.write moment x.toWrite := by
  have hkey : (x.sm.round ≠ l.sm.round ∨
      x.sm.currentRoundInfo.phase ≠ l.sm.currentRoundInfo.phase) ↔ ¬ x.sm.moment = l.sm.moment := by
    simp only [moment, Prod.mk.injEq]
    tauto
  by_cases h : (x.version : ℤ) > l.version
  · rw [set, if_pos h, write_of_lt (show l.toRegister.version < x.toWrite.version from h)]
    by_cases hm : x.sm.moment = l.sm.moment
    · rw [if_neg (fun hne => hkey.1 hne hm),
        if_pos (show moment x.toWrite.value = moment l.toRegister.value from hm)]
      rfl
    · rw [if_pos (hkey.2 hm),
        if_neg (show ¬ moment x.toWrite.value = moment l.toRegister.value from hm)]
      rfl
  · rw [set, if_neg h, write_of_le (show x.toWrite.version ≤ l.toRegister.version from not_lt.1 h)]

theorem toRegister_setAll (l : LastStateMachine) (calls : List SetCall) :
    (l.setAll calls).toRegister = run moment l.toRegister (calls.map SetCall.toWrite) := by
  induction calls generalizing l with
  | nil => rfl
  | cons x calls ih => rw [setAll, ih, toRegister_set, List.map_cons, run_cons]

theorem accepted_toWrite (l : LastStateMachine) (calls : List SetCall) :
    (l.accepted calls).map SetCall.toWrite =
      VersionedRegister.accepted moment l.toRegister (calls.map SetCall.toWrite) := by
  induction calls generalizing l with
  | nil => rfl
  | cons x calls ih =>
    rw [accepted, List.map_cons, VersionedRegister.accepted, ← toRegister_set]
    by_cases h : (x.version : ℤ) > l.version
    · rw [if_pos h, if_pos (show l.toRegister.version < x.toWrite.version from h), List.map_cons,
        ih]
    · rw [if_neg h, if_neg (show ¬ l.toRegister.version < x.toWrite.version from h), ih]

theorem setAll_append (l : LastStateMachine) (calls calls' : List SetCall) :
    l.setAll (calls ++ calls') = (l.setAll calls).setAll calls' := by
  induction calls generalizing l with
  | nil => rfl
  | cons x calls ih => exact ih _

end LastStateMachine

section Calls

variable {states : List StateMachine} {calls : List SetCall} {t₁ t₂ : ℤ}

/-- What the register can hold, with the versions. -/
def held (t₁ t₂ : ℤ) (calls : List SetCall) : List (ℤ × StateMachine) :=
  candidates (LastStateMachine.new t₁ t₂).toRegister (calls.map SetCall.toWrite)

/-- The initial state has version -1, the others are numbered as they were received. -/
theorem getElem?_of_mem_held (hcalls : ∀ x ∈ calls, states[x.version]? = some x.sm)
    {x : ℤ × StateMachine} (hx : x ∈ held t₁ t₂ calls) :
    ∃ i : ℕ, x.1 = i - 1 ∧ (newStateMachine :: states)[i]? = some x.2 := by
  rcases List.mem_cons.1 hx with rfl | hx
  · exact ⟨0, rfl, rfl⟩
  · simp only [List.map_map, List.mem_map, Function.comp_apply] at hx
    obtain ⟨y, hy, rfl⟩ := hx
    exact ⟨y.version + 1, by simp [SetCall.toWrite], hcalls y hy⟩

theorem Received.succeeds (hs : Received states)
    (hcalls : ∀ x ∈ calls, states[x.version]? = some x.sm) {x y : ℤ × StateMachine}
    (hx : x ∈ held t₁ t₂ calls) (hy : y ∈ held t₁ t₂ calls) (hle : x.1 ≤ y.1) :
    Succeeds x.2 y.2 := by
  obtain ⟨i, hxi, hi⟩ := getElem?_of_mem_held hcalls hx
  obtain ⟨j, hyj, hj⟩ := getElem?_of_mem_held hcalls hy
  have hpair := hs.pairwise
  obtain ⟨hilt, hi⟩ := List.getElem?_eq_some_iff.1 hi
  obtain ⟨hjlt, hj⟩ := List.getElem?_eq_some_iff.1 hj
  rcases (show i ≤ j by omega).lt_or_eq with hij | rfl
  · rw [← hi, ← hj]
    exact List.pairwise_iff_getElem.1 hpair i j hilt hjlt hij
  · have heq : x.2 = y.2 := hi.symm.trans hj
    rw [heq]
    have hmem : y.2 ∈ newStateMachine :: states := hj ▸ List.getElem_mem _
    rcases List.mem_cons.1 hmem with hnew | hmem
    · exact .refl (hnew ▸ Inv.new)
    · exact .refl (List.rel_of_pairwise_cons hpair hmem).right

theorem Received.convex (hs : Received states)
    (hcalls : ∀ x ∈ calls, states[x.version]? = some x.sm) (t₁ t₂ : ℤ) :
    Convex moment (held t₁ t₂ calls) := by
  intro x hx y hy z hz hxy hyz hkey
  exact (hs.succeeds hcalls hx hy hxy).moment_eq (hs.succeeds hcalls hy hz hyz) hkey

theorem version_le_setAll (l : LastStateMachine) (calls : List SetCall) :
    l.version ≤ (l.setAll calls).version ∧
      ∀ x ∈ calls, (x.version : ℤ) ≤ (l.setAll calls).version := by
  have h := version_le_run moment l.toRegister (calls.map SetCall.toWrite)
  rw [← LastStateMachine.toRegister_setAll, List.forall_mem_map] at h
  exact h

/-- What is held is the initial state or was stored by a call. -/
theorem setAll_mem_held (t₁ t₂ : ℤ) (calls : List SetCall) :
    (((LastStateMachine.new t₁ t₂).setAll calls).version,
      ((LastStateMachine.new t₁ t₂).setAll calls).sm) ∈ held t₁ t₂ calls := by
  have h := run_mem moment (LastStateMachine.new t₁ t₂).toRegister (calls.map SetCall.toWrite)
  rwa [← LastStateMachine.toRegister_setAll] at h

theorem exists_of_setAll (t₁ t₂ : ℤ) (calls : List SetCall) :
    calls = [] ∨ ∃ x ∈ calls, ((LastStateMachine.new t₁ t₂).setAll calls).version = x.version ∧
      ((LastStateMachine.new t₁ t₂).setAll calls).sm = x.sm := by
  rcases calls.eq_nil_or_concat with hnil | ⟨calls', x, hx⟩
  · exact Or.inl hnil
  · right
    have hle := (version_le_setAll (.new t₁ t₂) calls).2 x (by simp [hx])
    rcases List.mem_cons.1 (setAll_mem_held t₁ t₂ calls) with heq | hmem
    · -- every version is higher than that of the initial state
      have hver : ((LastStateMachine.new t₁ t₂).setAll calls).version = -1 := congrArg Prod.fst heq
      omega
    · simp only [List.map_map, List.mem_map, Function.comp_apply, Prod.mk.injEq] at hmem
      obtain ⟨y, hy, hver, hsm⟩ := hmem
      exact ⟨y, hy, hver.symm, hsm.symm⟩

/-- Round and phase never go back. -/
theorem Received.mayPrecede (hs : Received states)
    (hcalls : ∀ x ∈ calls, states[x.version]? = some x.sm) {before after : List SetCall}
    (hsplit : calls = before ++ after) :
    ((LastStateMachine.new t₁ t₂).setAll before).sm.mayPrecede
      ((LastStateMachine.new t₁ t₂).setAll calls).sm = true := by
  have hbefore : held t₁ t₂ before ⊆ held t₁ t₂ calls := by
    rw [hsplit, held, held, List.map_append]
    exact candidates_subset _ _
  have hle : ((LastStateMachine.new t₁ t₂).setAll before).version ≤
      ((LastStateMachine.new t₁ t₂).setAll calls).version := by
    rw [hsplit, LastStateMachine.setAll_append]
    exact (version_le_setAll _ _).1
  have h := hs.succeeds hcalls (hbefore (setAll_mem_held t₁ t₂ before))
    (setAll_mem_held t₁ t₂ calls) hle
  exact h.follows.mayPrecede h.right.round_nonneg

/-- When the held round and phase was first stored. -/
theorem Received.phaseTimestamp (hs : Received states)
    (hcalls : ∀ x ∈ calls, states[x.version]? = some x.sm) {l : LastStateMachine}
    (hl : (LastStateMachine.new t₁ t₂).setAll calls = l) :
    if l.sm.moment = (0, .prepare) then l.phaseTimestamp = t₂
    else (((LastStateMachine.new t₁ t₂).accepted calls).find? fun x =>
      x.sm.moment = l.sm.moment).map SetCall.now = some l.phaseTimestamp := by
  have h := changed_run (hs.convex hcalls t₁ t₂)
  rw [← LastStateMachine.toRegister_setAll, ← LastStateMachine.accepted_toWrite, hl,
    List.find?_map, Option.map_map] at h
  exact h

/-- When all calls are executed, the last state is held. -/
theorem getLast?_of_all (hcalls : ∀ x ∈ calls, states[x.version]? = some x.sm)
    (hne : states ≠ []) (hall : ∀ k < states.length, ∃ x ∈ calls, x.version = k) :
    states.getLast? = some ((LastStateMachine.new t₁ t₂).setAll calls).sm := by
  have hpos := List.length_pos_iff.2 hne
  obtain ⟨x, hx, hxv⟩ := hall (states.length - 1) (by omega)
  have hle := (version_le_setAll (.new t₁ t₂) calls).2 x hx
  rcases exists_of_setAll t₁ t₂ calls with rfl | ⟨y, hy, hver, hsm⟩
  · cases hx
  · have hlt := (List.getElem?_eq_some_iff.1 (hcalls y hy)).1
    rw [List.getLast?_eq_getElem?, hsm, ← hcalls y hy]
    congr 1
    omega

/-- **The last state.** Whatever order the calls of `set` are executed in, the register holds the
state with the highest version among the calls so far, round and phase never go back, and
`phaseTimestamp` is the time of the first accepted call that stored this round and phase, or the
time of creation in the first phase of the first round; when all calls are executed, the last state
that was received is held. -/
theorem lastStateMachine_spec (hs : Received states)
    (hcalls : ∀ x ∈ calls, states[x.version]? = some x.sm) {l : LastStateMachine}
    (hl : (LastStateMachine.new t₁ t₂).setAll calls = l) :
    (∀ x ∈ calls, (x.version : ℤ) ≤ l.version) ∧
    (calls = [] ∧ l = .new t₁ t₂ ∨ ∃ x ∈ calls, l.version = x.version ∧ l.sm = x.sm) ∧
    (∀ before after, calls = before ++ after →
      ((LastStateMachine.new t₁ t₂).setAll before).sm.mayPrecede l.sm = true) ∧
    (if l.sm.moment = (0, .prepare) then l.phaseTimestamp = t₂
      else (((LastStateMachine.new t₁ t₂).accepted calls).find? fun x =>
        x.sm.moment = l.sm.moment).map SetCall.now = some l.phaseTimestamp) ∧
    (states ≠ [] → (∀ k < states.length, ∃ x ∈ calls, x.version = k) →
      states.getLast? = some l.sm) := by
  refine ⟨hl ▸ (version_le_setAll _ calls).2, ?_, fun before after hsplit => ?_,
    hs.phaseTimestamp hcalls hl, fun hne hall => hl ▸ getLast?_of_all hcalls hne hall⟩
  · rcases exists_of_setAll t₁ t₂ calls with rfl | h
    · exact Or.inl ⟨rfl, hl.symm⟩
    · exact Or.inr (hl ▸ h)
  · exact hl ▸ hs.mayPrecede hcalls hsplit

end Calls

/-- Two calls, the later one executed first. -/
def swappedCalls : List SetCall := [⟨scrambleState, 1, 7⟩, ⟨newStateMachine, 0, 9⟩]

/-- The scramble phase was stored at time 7. -/
theorem lastStateMachine_spec_swapped :
    [newStateMachine, scrambleState].getLast? =
      some ((LastStateMachine.new 3 4).setAll swappedCalls).sm ∧
    ((LastStateMachine.new 3 4).setAll swappedCalls).phaseTimestamp = 7 := by
  have hs : Received [newStateMachine, scrambleState] := by
    refine Or.inl ⟨?_, List.isChain_pair.2 reachable_scrambleState⟩
    rw [List.forall_mem_cons, List.forall_mem_singleton]
    exact ⟨Leads.refl _, reachable_scrambleState⟩
  have hcalls : ∀ x ∈ swappedCalls, [newStateMachine, scrambleState][x.version]? = some x.sm := by
    rw [swappedCalls, List.forall_mem_cons, List.forall_mem_singleton]
    exact ⟨rfl, rfl⟩
  have hall : ∀ k < 2, ∃ x ∈ swappedCalls, x.version = k := by
    simp [swappedCalls]
    omega
  have h := lastStateMachine_spec hs hcalls
    (show (LastStateMachine.new 3 4).setAll swappedCalls = _ from rfl)
  exact ⟨h.2.2.2.2 (List.cons_ne_nil _ _) hall, by decide +kernel⟩

end EggScrambler
