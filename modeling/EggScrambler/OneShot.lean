import Mathlib
import EggScrambler.Archive
import EggScrambler.Plan
import EggScrambler.Results

/-!
# What a client does once per round

The loop of `readUpdates` asks for a message, generates keys, scrambles and sends a result at most
once per round, each behind a variable that holds the last round in which it did so.  The variables
are updated under different conditions, but every turn treats them alike: it does nothing and leaves
the variable, or it acts in a later round and stores that round (`Ticks`).  `Once` is what follows
for the list of rounds in which the loop acted.

A result is missing only if the loop is stopped.  Without debug assertions one update does that: an
update of a submit phase without a crypto, if the client is to verify it (`one_shot_iff`).  Anyone
can cause it with a `StartOp` (`not_one_shot_nilCrypto`).
-/

namespace EggScrambler

open StateMachine Transition

/-! ## Acting behind a counter -/

/-- A turn does nothing, or it acts in a later round and remembers that. -/
def Ticks (last last' : ℤ) (acts : List ℤ) : Prop :=
  acts = [] ∧ last' = last ∨ acts = [last'] ∧ last < last'

theorem Ticks.quiet {last : ℤ} : Ticks last last [] := Or.inl ⟨rfl, rfl⟩

theorem Ticks.act {last last' : ℤ} (h : last < last') : Ticks last last' [last'] := Or.inr ⟨rfl, h⟩

/-- The rounds in which the loop acted: none of them twice, and none after `last`. -/
structure Once (acts : List ℤ) (last : ℤ) : Prop where
  neg_one_le : -1 ≤ last
  nodup : acts.Nodup
  nonneg : ∀ r ∈ acts, 0 ≤ r
  le : ∀ r ∈ acts, r ≤ last

namespace Once

theorem init : Once [] (-1) := ⟨le_rfl, List.nodup_nil, by simp, by simp⟩

/-- Rounds stay distinct if only later ones are added. -/
theorem tick {acts new : List ℤ} {last last' : ℤ} (h : Once acts last)
    (ht : Ticks last last' new) : Once (new ++ acts) last' := by
  rcases ht with ⟨rfl, rfl⟩ | ⟨rfl, hlt⟩
  · exact h
  · have hlast := h.neg_one_le
    refine ⟨by omega, List.nodup_cons.2 ⟨fun hmem => ?_, h.nodup⟩,
      List.forall_mem_cons.2 ⟨by omega, h.nonneg⟩, List.forall_mem_cons.2 ⟨le_rfl, fun r hr => ?_⟩⟩
    · exact absurd (h.le _ hmem) (not_le.2 hlt)
    · exact (h.le r hr).trans hlt.le

end Once

/-! ## One turn -/

/-- The round that a goroutine asks the user for a message in. -/
def Task.submitRound : Task → Option ℤ
  | submit r .. => some r
  | _ => none

section Turn

variable {env : Env} {c : Client} {active : Bool} {draws : Draws} {rd : Reader} {v : StateMachine}
  {a : Reaction}

theorem filterMap_prepares {f : Task → Option ℤ} (hf : ∀ r me, f (.prepare r me) = none) {r : ℤ}
    {prepares : List Task} (hp : ∀ t ∈ prepares, ∃ me, t = .prepare r me) :
    prepares.filterMap f = [] :=
  List.filterMap_eq_nil_iff.2 (none_of_prepares hf hp)

theorem Reader.filterMap_submitOnce {f : Task → Option ℤ}
    (hf : ∀ r ri me ek rk, f (.submit r ri me ek rk) = none) (rd : Reader) (v : StateMachine)
    (me : ℕ) : (rd.submitOnce v me).tasks.filterMap f = [] :=
  List.filterMap_eq_nil_iff.2 (none_of_mem_submitOnce hf rd v me)

theorem Reader.ticks_submitOnce (rd : Reader) (v : StateMachine) (me : ℕ) :
    Ticks rd.lastMessageRound (rd.submitOnce v me).reader.lastMessageRound
      ((rd.submitOnce v me).tasks.filterMap Task.submitRound) := by
  unfold submitOnce
  split_ifs with hlt
  · exact .act hlt
  · exact .quiet

theorem Reads.ticks_submit (h : Reads env c active draws rd v a) :
    Ticks rd.lastMessageRound a.reader.lastMessageRound (a.tasks.filterMap Task.submitRound) := by
  cases h with
  | result hph hp hlast =>
    rw [List.filterMap_cons_none rfl, filterMap_prepares (fun _ _ => rfl) hp]
    exact .quiet
  | prepare hph hp hlast =>
    rw [filterMap_prepares (fun _ _ => rfl) hp]
    exact .quiet
  | generate hph hme hlast hmo hv hk => exact Reader.ticks_submitOnce _ v _
  | submit hph hme hlast => exact Reader.ticks_submitOnce _ v _
  | reveal hph hme =>
    rw [Reader.remember_frame]
    exact .quiet
  | _ => exact .quiet

theorem Reads.ticks_scramble (h : Reads env c active draws rd v a) :
    Ticks rd.lastScrambledRound a.reader.lastScrambledRound
      (a.tasks.filterMap Task.scrambleRound) := by
  cases h with
  | result hph hp hlast =>
    rw [List.filterMap_cons_none rfl, filterMap_prepares (fun _ _ => rfl) hp]
    exact .quiet
  | prepare hph hp hlast =>
    rw [filterMap_prepares (fun _ _ => rfl) hp]
    exact .quiet
  | generate hph hme hlast hmo hv hk =>
    rw [Reader.filterMap_submitOnce fun _ _ _ _ _ => rfl, Reader.submitOnce_frame]
    exact .quiet
  | submit hph hme hlast =>
    rw [Reader.filterMap_submitOnce fun _ _ _ _ _ => rfl, Reader.submitOnce_frame]
    exact .quiet
  | scramble hph hme hlast hturn => exact .act hlast
  | reveal hph hme =>
    rw [Reader.remember_frame]
    exact .quiet
  | _ => exact .quiet

theorem Reads.ticks_result (h : Reads env c active draws rd v a) :
    Ticks rd.lastResChSend a.reader.lastResChSend (a.tasks.filterMap Task.resultRound) := by
  rcases h.result_cases with ⟨-, hlt, hr, rest, htasks, hrest⟩ | ⟨hr, htasks, -⟩
  · have hnew : Task.resultRound (.sendRoundResult v v.round rd.snapshot) = some (v.round - 1) :=
      rfl
    rw [hr, htasks, List.filterMap_cons_some hnew, List.filterMap_eq_nil_iff.2 hrest]
    exact .act hlt
  · rw [hr, List.filterMap_eq_nil_iff.2 htasks]
    exact .quiet

theorem Reads.ticks_generate (h : Reads env c active draws rd v a) :
    Ticks rd.lastKeyGen a.reader.lastKeyGen (a.generated.toList.map Generation.round) := by
  cases h with
  | generate hph hme hlast hmo hv hk =>
    rw [Reader.submitOnce_frame]
    exact .act hlast
  | submit hph hme hlast =>
    rw [Reader.submitOnce_generated, Reader.submitOnce_frame]
    exact .quiet
  | reveal hph hme =>
    rw [Reader.remember_frame]
    exact .quiet
  | _ => exact .quiet

end Turn

/-! ## Whole sessions -/

/-- What a session did, each behind its variable. -/
structure Acts (s : Session) : Prop where
  submits : Once (s.tasks.filterMap Task.submitRound) s.reader.lastMessageRound
  scrambles : Once (s.tasks.filterMap Task.scrambleRound) s.reader.lastScrambledRound
  results : Once (s.tasks.filterMap Task.resultRound) s.reader.lastResChSend
  generates : Once (s.generated.map Generation.round) s.reader.lastKeyGen

namespace Acts

variable {env : Env} {c : Client} {s : Session}

theorem init : Acts {} := ⟨Once.init, Once.init, Once.init, Once.init⟩

/-- An update makes the loop act at most once, in a later round. -/
theorem read (h : Acts s) {v : StateMachine} {active : Bool} {draws : Draws} {a : Reaction}
    (ha : Reads env c active draws s.reader v a) : Acts (s.react ⟨v, active⟩ a) where
  submits := by
    rw [Session.tasks_react, List.filterMap_append]
    exact h.submits.tick ha.ticks_submit
  scrambles := by
    rw [Session.tasks_react, List.filterMap_append]
    exact h.scrambles.tick ha.ticks_scramble
  results := by
    rw [Session.tasks_react, List.filterMap_append]
    exact h.results.tick ha.ticks_result
  generates := by
    rw [Session.generated_react, List.map_append]
    exact h.generates.tick ha.ticks_generate

theorem configure (h : Acts s) (active leaving : Bool) (stored : ℕ) :
    Acts (s.configure c active leaving stored) := by
  have hold : ∀ {f : Task → Option ℤ}, (∀ r me, f (.prepare r me) = none) →
      (s.configure c active leaving stored).tasks.filterMap f = s.tasks.filterMap f := by
    intro f hf
    rw [Session.configure, List.filterMap_append,
      filterMap_prepares hf fun t => Reader.eq_of_mem_prepares, List.nil_append]
  refine ⟨?_, ?_, ?_, h.generates⟩
  · rw [hold fun _ _ => rfl]
    exact h.submits
  · rw [hold fun _ _ => rfl]
    exact h.scrambles
  · rw [hold fun _ _ => rfl]
    exact h.results

theorem of_reachable {w : World} (h : World.Reachable env c w) : Acts w.session :=
  World.session_induction init (fun _ _ _ _ _ hs _ ha => hs.read ha)
    (fun _ active leaving stored hs => hs.configure active leaving stored) h

end Acts

/-- In an update, too, a round before the current one is over. -/
theorem IsView.finished {v : StateMachine} (h : IsView v) {r : ℤ} {ri : RoundInfo}
    (hr : r < v.round) (hri : v.getRoundInfo r = .ok ri) :
    ri.phase = .done ∨ ri.phase = .failed := by
  obtain ⟨S, hS, hv⟩ := h
  obtain ⟨y, hy, hcopy⟩ := (getRoundInfo_of_deepCopy hv).1 hri
  rw [(RoundInfo.deepCopy_frame (hS.inv.roundInv hy) hcopy).1]
  exact hS.finished ((deepCopy_eq_ok_iff.1 hv).1 ▸ hr) hy

/-- A result is sent from a state that shows how the round ended. -/
theorem World.Reachable.finished_of_result {env : Env} {c : Client} {w : World}
    (h : World.Reachable env c w) {sm : StateMachine} {r : ℤ} {snap : Snapshot}
    (ht : Task.sendRoundResult sm r snap ∈ w.session.tasks) :
    ∃ ri, sm.getRoundInfo (r - 1) = .ok ri ∧ (ri.phase = .done ∨ ri.phase = .failed) := by
  obtain ⟨-, -, hord, hrep⟩ := h.reports
  obtain ⟨rfl, x, hx, rfl⟩ := hrep.source sm r snap ht
  have h₀ : 0 ≤ x.sm.round - 1 :=
    (Acts.of_reachable h).results.nonneg _ (List.mem_filterMap.2 ⟨_, ht, rfl⟩)
  have hget : x.sm.getRoundInfo (x.sm.round - 1) = .ok (x.sm.rounds (slot (x.sm.round - 1))) :=
    getRoundInfo_eq_ok_iff.2 ⟨h₀, by omega, by omega, rfl⟩
  exact ⟨_, hget, (hord.views x hx).finished (by omega) hget⟩

/-- A client that has read everything knows the round of the server. -/
theorem Delivered.round_lastSm {w : World} (h : Delivered w) (hch : w.updCh = some []) :
    w.session.reader.lastSm.round = w.sm.round := by
  obtain ⟨v, rest, hv, hcopy⟩ := h.newest (by rw [hch]; exact Option.some_ne_none _)
  have hreads : w.session.reads.map Read.sm = v :: rest := by
    rw [← hv, World.updates, hch]
    rfl
  rw [h.last, hreads]
  exact (deepCopy_eq_ok_iff.1 hcopy).1

/-! ## The update that stops the loop -/

/-- The client is about to verify a crypto that is not there. -/
def NilCrypto (c : Client) (active : Bool) (rd : Reader) (v : StateMachine) : Prop :=
  v.currentRoundInfo.phase = .submit ∧ c.business active v ≠ none ∧ rd.lastKeyGen < v.round ∧
    v.currentRoundInfo.crypto = none

instance (c : Client) (active : Bool) (rd : Reader) (v : StateMachine) :
    Decidable (NilCrypto c active rd v) := inferInstanceAs (Decidable (_ ∧ _ ∧ _ ∧ _))

section Loop

variable {env : Env} {c : Client} {active leaving : Bool} {draws : Draws} {rd : Reader}
  {v : StateMachine}

@[simp] theorem ok_bind {α β : Type} (x : α) (f : α → Go β) : (Except.ok x >>= f) = f x := rfl

@[simp] theorem deref_some {α : Type} (x : α) : deref (some x) = .ok x := rfl

theorem assertf_of_not_debug (h : env.debug = false) (condition : Prop) [Decidable condition] :
    assertf env condition = .ok () := by simp [assertf, h]

theorem Reader.onSubmit_of_nilCrypto (h : NilCrypto c active rd v) :
    rd.onSubmit env c active draws v = .error .nilDereference := by
  obtain ⟨-, hme, hlast, hcr⟩ := h
  obtain ⟨me, hme⟩ := Option.ne_none_iff_exists'.1 hme
  simp only [onSubmit, hme, if_pos hlast, hcr]
  rfl

theorem Reader.update_of_nilCrypto (hdebug : env.debug = false) (h : NilCrypto c active rd v) :
    rd.update env c active leaving draws v = .error .nilDereference := by
  have h' : NilCrypto c active { rd with lastSm := v } v := h
  simp only [update, assertf_of_not_debug hdebug, ok_bind, h.1, onSubmit_of_nilCrypto h']

theorem Reader.onSubmit_of_not_nilCrypto (hph : v.currentRoundInfo.phase = .submit)
    (h : ¬ NilCrypto c active rd v)
    (hgen : ∀ mo, v.currentRoundInfo.crypto = some mo →
      mo.verify env (c.messageSize + 16) = .ok () → mo.genKeys draws ≠ none) :
    ∃ a, rd.onSubmit env c active draws v = .ok (some a) := by
  unfold onSubmit
  rcases hme : c.business active v with _ | me
  · exact ⟨_, rfl⟩
  · dsimp only
    split_ifs with hlast
    · rcases hcr : v.currentRoundInfo.crypto with _ | mo
      · exact absurd ⟨hph, by rw [hme]; exact Option.some_ne_none me, hlast, hcr⟩ h
      · simp only [deref_some, ok_bind]
        split
        · exact ⟨_, rfl⟩
        · rename_i hver
          obtain ⟨keys, hkeys⟩ := Option.ne_none_iff_exists'.1 (hgen mo hcr hver)
          rw [hkeys]
          exact ⟨_, rfl⟩
    · exact ⟨_, rfl⟩

/-- Without debug assertions nothing else stops the loop. -/
theorem Reader.update_iff (hdebug : env.debug = false)
    (hgen : ∀ mo, v.currentRoundInfo.crypto = some mo →
      mo.verify env (c.messageSize + 16) = .ok () → mo.genKeys draws ≠ none) :
    (∃ a, rd.update env c active leaving draws v = .ok (some a)) ↔ ¬ NilCrypto c active rd v := by
  have hassert := fun (p : Prop) [Decidable p] => assertf_of_not_debug hdebug p
  constructor
  · rintro ⟨a, ha⟩ hnil
    rw [update_of_nilCrypto hdebug hnil] at ha
    cases ha
  · intro hnil
    simp only [update, hassert, ok_bind]
    split
    · unfold onPrepare
      dsimp only
      split_ifs
      · rw [hassert]
        exact ⟨_, rfl⟩
      · exact ⟨_, rfl⟩
    · rename_i hph
      exact onSubmit_of_not_nilCrypto hph hnil hgen
    all_goals exact ⟨_, rfl⟩

end Loop

/-- **Once per round.** In every state of the system the client has asked for a message, scrambled
and generated keys at most once per round.  It has sent one result for every round that ended after
it subscribed, as far as it has read, from a state that shows how the round ended, and no two for
any round.  And it reads the next update, unless that asks it to verify a crypto that is not there.
-/
theorem one_shot_iff {env : Env} {c : Client} {w : World} (hdebug : env.debug = false)
    (hw : World.Reachable env c w) :
    (w.session.tasks.filterMap Task.submitRound).Nodup ∧
    (w.session.tasks.filterMap Task.scrambleRound).Nodup ∧
    (w.session.generated.map Generation.round).Nodup ∧
    (w.session.tasks.filterMap Task.resultRound).Nodup ∧
    (∀ r, (∃ x ∈ w.session.reads, x.sm.round ≤ r) → r < w.session.reader.lastSm.round →
      r ∈ w.session.tasks.filterMap Task.resultRound) ∧
    (w.updCh = some [] → w.session.reader.lastSm.round = w.sm.round) ∧
    (∀ sm r snap, Task.sendRoundResult sm (r + 1) snap ∈ w.session.tasks →
      ∃ ri, sm.getRoundInfo r = .ok ri ∧ (ri.phase = .done ∨ ri.phase = .failed)) ∧
    ∀ v ch active leaving draws, w.updCh = some (v :: ch) →
      (∀ mo, v.currentRoundInfo.crypto = some mo →
        mo.verify env (c.messageSize + 16) = .ok () → mo.genKeys draws ≠ none) →
      ((∃ w', w.step env c (.read active leaving draws) = .ok (w', true) ∧ w'.updCh = some ch) ↔
        ¬ NilCrypto c active w.session.reader v) := by
  have hacts := Acts.of_reachable hw
  have hrep := hw.reports.2.2.2
  refine ⟨hacts.submits.nodup, hacts.scrambles.nodup, hacts.generates.nodup, hacts.results.nodup,
    fun r hx hlt => ?_, (Delivered.of_reachable hw).round_lastSm, fun sm r snap ht => ?_,
    fun v ch active leaving draws hch hgen => ?_⟩
  · obtain ⟨t, ht, hr⟩ := hrep.complete r hx hlt
    exact List.mem_filterMap.2 ⟨t, ht, hr⟩
  · have hfin := hw.finished_of_result ht
    rwa [add_sub_cancel_right] at hfin
  · have hiff : (∃ a, w.session.reader.update env c active leaving draws v = .ok (some a)) ↔ _ :=
      Reader.update_iff hdebug hgen
    rw [← hiff]
    simp only [World.step, hch]
    constructor
    · rintro ⟨w', h, -⟩
      obtain ⟨a, ha, h⟩ := bind_eq_ok_iff.1 h
      cases a with
      | none => cases h
      | some a => exact ⟨a, ha⟩
    · rintro ⟨a, ha⟩
      rw [ha]
      exact ⟨_, rfl, rfl⟩

/-- The environment of a client that runs without debug assertions. -/
def quietEnv : Env := { exactEnv with debug := false }

/-- The client follows a round until someone aborts it; the last update is not read yet. -/
def abortedActions (crypto : Option Crypto) : List Action :=
  [.subscribe, .commit (.join 1 0), .commit (.start 1 0 crypto), .commit (.abort 0)] ++
    List.replicate 2 (.read true false ⟨[0], [0], [0]⟩)

theorem one_shot_iff_aborted : ∃ w v, World.Reachable quietEnv ⟨1, 0⟩ w ∧ w.updCh = some [v] ∧
    v.round = 1 ∧ w.session.tasks.filterMap Task.submitRound = [0] ∧
    w.session.tasks.filterMap Task.resultRound = [] ∧
    ∃ w', w.step quietEnv ⟨1, 0⟩ (.read true false ⟨[], [], []⟩) = .ok (w', true) ∧
      w'.updCh = some [] := by
  obtain ⟨w, hw, htest⟩ : ∃ w, run (World.step quietEnv ⟨1, 0⟩) {}
      (abortedActions (some headerCrypto) ++ [.read true false ⟨[0], [0], [0]⟩]) = .ok w ∧
      decide (∃ v ∈ (w.updCh.getD []).head?, w.updCh = some [v] ∧ v.round = 1 ∧
        v.currentRoundInfo.crypto = none ∧ ¬ NilCrypto ⟨1, 0⟩ true w.session.reader v ∧
        w.session.tasks.filterMap Task.submitRound = [0] ∧
        w.session.tasks.filterMap Task.resultRound = []) = true :=
    exists_of_endsWith (by decide +kernel)
  obtain ⟨v, -, hch, hround, hcr, hnil, hsub, hres⟩ := of_decide_eq_true htest
  refine ⟨w, v, ⟨_, hw⟩, hch, hround, hsub, hres, ?_⟩
  obtain ⟨-, -, -, -, -, -, -, hread⟩ := one_shot_iff rfl ⟨_, hw⟩
  refine (hread v [] true false _ hch fun mo hmo => ?_).2 hnil
  rw [hcr] at hmo
  cases hmo

/-- Participant 1 starts a round without a crypto: an active client that takes part panics when it
reads that, and never reads that the round has ended. -/
theorem not_one_shot_nilCrypto : ∃ w ri, World.Reachable quietEnv ⟨1, 0⟩ w ∧
    w.sm.round = 1 ∧ w.sm.getRoundInfo 0 = .ok ri ∧ ri.phase = .failed ∧ 1 ∈ ri.participants ∧
    (∃ x ∈ w.session.reads, x.sm.round ≤ 0) ∧
    w.session.tasks.filterMap Task.resultRound = [] ∧
    w.step quietEnv ⟨1, 0⟩ (.read true false ⟨[0], [0], [0]⟩) = .error .nilDereference := by
  obtain ⟨w, hw, htest⟩ : ∃ w, run (World.step quietEnv ⟨1, 0⟩) {} (abortedActions none) = .ok w ∧
      decide (w.sm.round = 1 ∧ (∃ v ∈ (w.updCh.getD []).head?, ∃ ch ∈ w.updCh.map List.tail,
          w.updCh = some (v :: ch) ∧ NilCrypto ⟨1, 0⟩ true w.session.reader v) ∧
        (w.sm.rounds (slot 0)).phase = .failed ∧ 1 ∈ (w.sm.rounds (slot 0)).participants ∧
        (∃ x ∈ w.session.reads, x.sm.round ≤ 0) ∧
        w.session.tasks.filterMap Task.resultRound = []) = true :=
    exists_of_endsWith (by decide +kernel)
  obtain ⟨hround, ⟨v, -, ch, -, hch, hnil⟩, hfail, hpart, hread, hres⟩ :=
    of_decide_eq_true htest
  refine ⟨w, _, ⟨_, hw⟩, hround, getRoundInfo_eq_ok_iff.2 ⟨le_rfl, by omega, by omega, rfl⟩,
    hfail, hpart, hread, hres, ?_⟩
  have hdebug : quietEnv.debug = false := rfl
  simp only [World.step, hch, Reader.update_of_nilCrypto hdebug hnil]
  rfl

end EggScrambler
