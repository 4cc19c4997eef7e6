import Mathlib
import EggScrambler.Broadcast

/-!
# What panics

`Runs` says that a computation returns, and its rules follow the way computations are composed.  In
a cluster of honest clients every step returns, with two exceptions (`step_runs_or_late_or_full`).
If assertions are on, a client that subscribed after the first round panics at the beginning of a
round, because it takes itself to have missed a result.  And `sendRoundResult` may panic on a round
in which somebody submitted a message of exactly the maximum size, because there is no zero byte
before it.
-/

namespace EggScrambler

open StateMachine Transition

/-- A computation that does not panic. -/
def Runs {α : Type} (x : Go α) : Prop := ∃ a, x = .ok a

namespace Runs

variable {α β : Type}

theorem ok (a : α) : Runs (.ok a : Go α) := ⟨a, rfl⟩

theorem pure (a : α) : Runs (Pure.pure a : Go α) := ⟨a, rfl⟩

theorem bind {x : Go α} {f : α → Go β} (hx : Runs x) (hf : ∀ a, x = .ok a → Runs (f a)) :
    Runs (x >>= f) := by
  obtain ⟨a, rfl⟩ := hx
  exact hf a rfl

theorem map {x : Go α} (hx : Runs x) (f : α → β) : Runs (f <$> x) := by
  obtain ⟨a, rfl⟩ := hx
  exact ⟨f a, rfl⟩

theorem mapM {f : α → Go β} (hf : ∀ a, Runs (f a)) (xs : List α) : Runs (xs.mapM f) := by
  choose g hg using hf
  exact ⟨_, mapM_eq_ok hg xs⟩

theorem getAt {xs : List α} {i : ℕ} (h : i < xs.length) : Runs (EggScrambler.getAt xs i) :=
  ⟨_, getAt_eq_ok_iff.2 (List.getElem?_eq_getElem h)⟩

theorem deref {x : Option α} {a : α} (h : x = some a) : Runs (EggScrambler.deref x) :=
  ⟨a, deref_eq_ok_iff.2 h⟩

theorem assertf {env : Env} {condition : Prop} [Decidable condition]
    (h : env.debug = true → condition) : Runs (EggScrambler.assertf env condition) := by
  unfold EggScrambler.assertf
  split_ifs with hc
  · exact absurd (h hc.1) hc.2
  · exact ok _

end Runs

/-! ## The goroutines -/

section Tasks

variable {env : Env} {c : Client} {ri : RoundInfo} {me : ℕ} {mo : Crypto}

theorem Client.offer_runs {st : Stage} {r : ℤ} {messages : Go (List Msg)}
    (hme : me < (st.flags ri).length) (hms : Runs messages) :
    Runs (c.offer st r ri me messages) := by
  refine .bind (.getAt hme) fun raised _ => ?_
  cases raised
  · exact .bind hms fun ms _ => .pure _
  · exact .pure _

/-- What is known of the round that a goroutine was handed. -/
structure Task.Ready (c : Client) (ri : RoundInfo) (me : ℕ) (mo : Crypto) : Prop where
  inv : RoundInv ri
  crypto : ri.crypto = some mo
  length : ri.messages.length = ri.participants.length
  me_lt : me < ri.participants.length

variable (h : Task.Ready c ri me mo)
include h

theorem Task.Ready.submit_runs (hv : mo.verify env (c.messageSize + 16) = .ok ()) (r : ℤ)
    (encryptKey revealKey : PrivateKey) (msg : Bytes) (r₁ r₂ : Nonce) :
    Runs (c.submit env r ri me encryptKey revealKey msg r₁ r₂) := by
  refine .bind (.getAt (h.length ▸ h.me_lt)) fun m _ => ?_
  split_ifs
  · refine .bind (.deref h.crypto) fun crypto hcrypto => ?_
    obtain rfl : mo = crypto := Option.some.inj (h.crypto.symm.trans (deref_eq_ok_iff.1 hcrypto))
    rw [Client.prepareMessage_eq (Crypto.bytesMaxSize_of_verify hv)]
    exact .pure _
  · exact .pure _

theorem Task.Ready.encrypt_runs (r : ℤ) (key : PrivateKey) : Runs (c.encrypt r ri me key) := by
  refine Client.offer_runs (h.inv.flags_length _ ▸ h.me_lt) (.mapM (fun m => ?_) _)
  split_ifs
  · exact .pure _
  · exact .bind (.deref h.crypto) fun crypto _ => .pure _

theorem Task.Ready.scramble_runs (r : ℤ) (scrambleKey revealKey : PrivateKey) (shuffle : Shuffle) :
    Runs (c.scramble r ri me scrambleKey revealKey shuffle) :=
  Client.offer_runs (h.inv.flags_length _ ▸ h.me_lt)
    (.map (.mapM (fun _ => .bind (.deref h.crypto) fun _ _ => .pure _) _) _)

theorem Task.Ready.decrypt_runs (r : ℤ) (scrambleKey encryptKey : PrivateKey) :
    Runs (c.decrypt r ri me scrambleKey encryptKey) :=
  Client.offer_runs (h.inv.flags_length _ ▸ h.me_lt)
    (.mapM (fun _ => .bind (.deref h.crypto) fun _ _ => .pure _) _)

theorem Task.Ready.reveal_runs (r : ℤ) (key : PrivateKey) : Runs (c.reveal r ri me key) := by
  refine .bind (.getAt (h.inv.keys_length ▸ h.me_lt)) fun k _ => ?_
  split_ifs
  · exact .pure _
  · exact .pure _

end Tasks

section Ready

variable {plan : Plan} {env : Env} {c : Client} {active leaving : Bool} {draws : Draws}
  {rd : Reader} {v : StateMachine} {a : Reaction} {hist : List StateMachine}

/-- A participant of a round that has started. -/
theorem HonestRun.ready (hexact : env.Exact) (h : HonestRun (plan.conduct env) hist)
    (hv : v ∈ hist) {me : ℕ} (hme : c.business active v = some me)
    (hord : 1 ≤ phaseOrder v.currentRoundInfo.phase) :
    ∃ mo, Task.Ready c v.currentRoundInfo me mo := by
  have hinv : Inv v := Reachable.inv (h.leads_of_mem hv)
  have hget := getRoundInfo_currentRoundInfo hinv.round_nonneg
  obtain ⟨mo, hL⟩ := (HonestRun.layered (plan.honestRun_setup hexact h) v hv _ _ hget).layered hord
    fun hf => hinv.live.unfinished (Or.inr hf)
  have hid := (Client.foldl_zipIdx _).1 me (Client.me_of_business hme)
  exact ⟨mo, hinv.current, hL.crypto, hL.length, (List.getElem?_eq_some_iff.1 hid).1⟩

/-- A goroutine that one turn of the loop starts, other than one that sends a result. -/
theorem Reads.runs (hexact : env.Exact) (h : HonestRun (plan.conduct env) hist) (hv : v ∈ hist)
    (ha : Reads env c active draws rd v a)
    (hsub : v.currentRoundInfo.phase = .submit → v.round ≤ rd.lastKeyGen →
      Crypto.Keyed plan env c v rd.keys) {t : Task} (ht : t ∈ a.tasks) (hres : t.resultRound = none)
    (chance : Chance) : Runs (t.op env c chance) := by
  cases ha with
  | result hph hp hlast =>
    rcases List.mem_cons.1 ht with rfl | ht
    · cases hres
    · obtain ⟨me, rfl⟩ := hp t ht
      exact .ok _
  | prepare hph hp hlast =>
    obtain ⟨me, rfl⟩ := hp t ht
    exact .ok _
  | idle => cases ht
  | refuse hph hme hmo =>
    rw [List.mem_singleton.1 ht]
    exact .ok _
  | @generate me mo keys hph hme hlast hmo hver hk =>
    rw [Reader.eq_of_mem_submitOnce ht]
    obtain ⟨mo', hready⟩ := HonestRun.ready hexact h hv hme (by rw [hph]; decide)
    obtain rfl : mo' = mo := Option.some.inj (hready.crypto.symm.trans hmo)
    exact hready.submit_runs hver _ _ _ _ _ _
  | submit hph hme hlast =>
    rw [Reader.eq_of_mem_submitOnce ht]
    obtain ⟨mo, hmo, hver, -⟩ := hsub hph hlast
    obtain ⟨mo', hready⟩ := HonestRun.ready hexact h hv hme (by rw [hph]; decide)
    obtain rfl : mo' = mo := Option.some.inj (hready.crypto.symm.trans hmo)
    exact hready.submit_runs hver _ _ _ _ _ _
  | encrypt hph hme =>
    rw [List.mem_singleton.1 ht]
    obtain ⟨mo, hready⟩ := HonestRun.ready hexact h hv hme (by rw [hph]; decide)
    exact hready.encrypt_runs _ _
  | scramble hph hme hlast hturn =>
    rw [List.mem_singleton.1 ht]
    obtain ⟨mo, hready⟩ := HonestRun.ready hexact h hv hme (by rw [hph]; decide)
    exact hready.scramble_runs _ _ _ _
  | decrypt hph hme =>
    rw [List.mem_singleton.1 ht]
    obtain ⟨mo, hready⟩ := HonestRun.ready hexact h hv hme (by rw [hph]; decide)
    exact hready.decrypt_runs _ _ _
  | reveal hph hme =>
    rw [List.mem_singleton.1 ht]
    obtain ⟨mo, hready⟩ := HonestRun.ready hexact h hv hme (by rw [hph]; decide)
    exact hready.reveal_runs _ _

/-- One turn of the loop. -/
theorem Reader.update_runs (hlive : v.currentRoundInfo.phase.Live)
    (hprec : rd.lastSm.mayPrecede v = true)
    (hcrypto : v.currentRoundInfo.phase = .submit → ∀ me, c.business active v = some me →
      ∃ mo, v.currentRoundInfo.crypto = some mo)
    (hres : env.debug = true → v.currentRoundInfo.phase = .prepare →
      v.round - 1 > rd.lastResChSend → rd.lastResChSend = v.round - 2) :
    Runs (rd.update env c active leaving draws v) := by
  refine .bind (.assertf fun _ => hprec) fun _ _ => ?_
  rcases hlive with hph | hph | hph | hph | hph | hph <;> simp only [hph]
  case inl =>
    refine .bind ?_ fun _ _ => .pure _
    unfold onPrepare
    dsimp only
    split_ifs with hlt
    · exact .bind (.assertf fun hd => hres hd hph hlt) fun _ _ => .pure _
    · exact .pure _
  case inr.inl =>
    unfold onSubmit
    rcases hme : c.business active v with _ | me
    · exact .ok _
    · dsimp only
      split_ifs
      · obtain ⟨mo, hmo⟩ := hcrypto hph me hme
        refine .bind (.deref hmo) fun crypto _ => ?_
        split <;> exact .pure _
      · exact .ok _
  all_goals exact .pure _

end Ready

/-! ## Reading -/

/-- The client was sent its first update after the first round. -/
def World.Late (w : World) : Prop := ∀ u, w.updates.getLast? = some u → 0 < u.round

/-- The rounds that were reported on, for a client that began with the first round. -/
structure Session.Punctual (s : Session) : Prop where
  first : s.reads = [] → s.reader.lastResChSend = -1
  sent : ∀ x ∈ s.reads, x.sm.round = 0 → s.reader.lastResChSend = s.reader.lastSm.round - 1

namespace Session.Punctual

variable {env : Env} {c : Client} {s : Session} {v : StateMachine}

/-- Reading an update, a client keeps count of the results it has reported on. -/
theorem read (h : s.Punctual) (hv : s.Next v) {active : Bool} {draws : Draws} {a : Reaction}
    (ha : Reads env c active draws s.reader v a) : (s.react ⟨v, active⟩ a).Punctual where
  first hnil := by cases hnil
  sent x hx hxr := by
    rw [Session.reader_react, ha.lastSm]
    have hround := hv.follows.round_le
    rcases hreads : s.reads with _ | ⟨y, rest⟩
    · have hfirst := h.first hreads
      rw [Session.reads_react, hreads, List.mem_singleton] at hx
      subst hx
      rcases ha.result_cases with ⟨-, hlt, -⟩ | ⟨heq, -⟩ <;> dsimp only at hxr <;> omega
    · have hlast : s.reader.lastSm = y.sm := by rw [hv.last, hreads]; rfl
      have hy : y ∈ s.reads := by rw [hreads]; exact List.mem_cons_self
      have hsent : s.reader.lastResChSend = s.reader.lastSm.round - 1 := by
        rcases List.mem_cons.1 hx with rfl | hx
        · have h₀ := hv.inv_last.round_nonneg
          dsimp only at hxr
          exact h.sent y hy (by rw [← hlast]; omega)
        · exact h.sent x hx hxr
      rcases (hv.consecutive (List.ne_nil_of_mem hy)).round_cases with hr | ⟨hr, hph⟩
      · rcases ha.result_cases with ⟨-, hlt, -⟩ | ⟨heq, -⟩ <;> omega
      · rcases ha.result_cases with ⟨-, -, heq, -⟩ | ⟨-, -, hle⟩
        · exact heq
        · have := hle hph
          omega

/-- A client that began with the first round misses no result. -/
theorem of_reachable {w : World} (h : World.Reachable env c w) : w.session.Punctual :=
  World.session_induction ⟨fun _ => rfl, by simp⟩ (fun _ _ _ _ _ hs hv ha => hs.read hv ha)
    (fun _ _ _ _ hs => ⟨hs.first, hs.sent⟩) h

end Session.Punctual

/-- Before the next update is read, no result is missing. -/
theorem World.Reachable.lastResChSend_eq {env : Env} {c : Client} {w : World}
    (h : World.Reachable env c w) (hlate : ¬ w.Late) {v : StateMachine} {ch : List StateMachine}
    (hch : w.updCh = some (v :: ch)) (hlt : v.round - 1 > w.session.reader.lastResChSend) :
    w.session.reader.lastResChSend = v.round - 2 := by
  have hp := Session.Punctual.of_reachable h
  have hnext := (Delivered.of_reachable h).next hch
  have h₀ := hnext.inv_last.round_nonneg
  have hup : w.updates = ch.reverse ++ v :: w.session.reads.map Read.sm := by
    simp [World.updates, hch]
  obtain ⟨u, hu, hur⟩ : ∃ u, w.updates.getLast? = some u ∧ u.round ≤ 0 := by
    simpa [World.Late] using hlate
  rw [hup, List.getLast?_append_cons] at hu
  rcases hreads : w.session.reads with _ | ⟨y, rest⟩
  · rw [hreads] at hu
    obtain rfl : v = u := by simpa using hu
    have := hp.first hreads
    omega
  · -- the first update has been read
    rw [hreads, List.map_cons, List.getLast?_cons_cons, ← List.map_cons, List.getLast?_map] at hu
    obtain ⟨x, hx, rfl⟩ := Option.map_eq_some_iff.1 hu
    have hx : x ∈ w.session.reads := by
      rw [hreads]
      exact List.mem_of_getLast? hx
    have hview : 0 ≤ x.sm.round :=
      ((Delivered.of_reachable h).views x.sm (by
        rw [hup]
        exact List.mem_append_right _ (List.mem_cons_of_mem _ (List.mem_map_of_mem hx)))
        ).inv.round_nonneg
    have hsent := hp.sent x hx (by omega)
    rcases (hnext.consecutive (List.ne_nil_of_mem hx)).round_cases with hr | ⟨hr, -⟩ <;> omega

/-! ## Whole runs -/

theorem HonestRun.deepCopy_eq {plan : Plan} {env : Env} (hexact : env.Exact)
    {hist : List StateMachine} (h : HonestRun (plan.conduct env) hist) {S : StateMachine}
    (hS : S ∈ hist) : S.deepCopy = .ok S := by
  have hinv : Inv S := Reachable.inv (h.leads_of_mem hS)
  exact hinv.deepCopy_eq_self_iff.2 fun i =>
    (HonestRun.rep (plan.honestRun_setup hexact h) S hS i).length

theorem Inv.guaranteedNoEffect_runs {S : StateMachine} (h : Inv S) (op : Op) :
    Runs (S.guaranteedNoEffect op) := by
  unfold guaranteedNoEffect
  split_ifs
  · exact .ok _
  · exact noEffectIn_of_live h.live op.type
  · exact .ok _

section Cluster

variable {ι : Type} {D : Deployment ι} {C C' : Cluster ι}

/-- No goroutine panics, except possibly those that send results. -/
def Session.Calm (env : Env) (c : Client) (s : Session) : Prop :=
  ∀ t ∈ s.tasks, t.resultRound = none → ∀ chance, Runs (t.op env c chance)

def Cluster.Calm (D : Deployment ι) (C : Cluster ι) : Prop :=
  ∀ i, (C.nodes i).world.session.Calm D.env (D.clients i)

theorem Node.Faithful.calm_act {plan : Plan} {env : Env} {c : Client} {log : List Op} {node : Node}
    (hexact : env.Exact) (h : node.Faithful plan env c log) {a : Action} {w' : World}
    (hst : Steps env c node.world a w') (hcalm : node.world.session.Calm env c) :
    w'.session.Calm env c := by
  have hup := h.world.mem_of_mem_updates hexact
  have hsub := states_take_subset log node.applied
  intro t ht hres chance
  cases hst with
  | @read active leaving draws v ch r hch hr =>
    rcases List.mem_append.1 ht with ht | ht
    · refine hr.runs hexact h.world.honestRun.1 (hup v (by simp [World.updates, hch]))
        (fun hph hlast => ?_) ht hres chance
      exact h.planned.keyed h.world.reachable (fun u hu => hsub (hup u hu)) hch
        (by rw [hph]; decide) hlast
    · exact hcalm t ht hres chance
  | configure active leaving stored =>
    rcases List.mem_append.1 ht with ht | ht
    · obtain ⟨me, rfl⟩ := Reader.eq_of_mem_prepares ht
      exact .ok _
    · exact hcalm t ht hres chance
  | _ => exact hcalm t ht hres chance

theorem Cluster.Calm.put [DecidableEq ι] (h : C.Calm D) {i : ι} {node : Node}
    (hn : node.world.session.Calm D.env (D.clients i)) : (C.put i node).Calm D := by
  intro j
  by_cases hj : j = i
  · subst hj
    simpa [Cluster.put] using hn
  · simpa [Cluster.put, hj] using h j

theorem Cluster.Calm.evolves [DecidableEq ι] (hexact : D.env.Exact) (hf : C.Faithful D)
    (h : C.Calm D) (he : Evolves D C C') : C'.Calm D := by
  cases he with
  | @apply i op world b hop hs =>
    exact h.put ((hf.nodes i).calm_act hexact (Steps.of_step hs) (h i))
  | @act i a world b active leaving ha hdraws hs =>
    exact h.put ((hf.nodes i).calm_act hexact (Steps.of_step hs) (h i))
  | commit | kill | submit | stay => exact h
  | @flag i | @run i | @start i | @abort i | @get i | @fail i | @finish i => exact h.put (h i)

/-- A world takes a step, unless it is that of a late client. -/
theorem Cluster.Faithful.step_runs (hexact : D.env.Exact) (hf : C.Faithful D) {i : ι} (a : Action)
    (hcommit : ∀ op, a = .commit op → C.log[(C.nodes i).applied]? = some op)
    (hread : ∀ active leaving draws, a = .read active leaving draws →
      ¬ (D.env.debug = true ∧ (C.nodes i).world.Late)) :
    Runs ((C.nodes i).world.step D.env (D.clients i) a) := by
  have hw := (hf.nodes i).world
  have hinv : Inv (C.nodes i).world.sm := Reachable.inv (hw.honestRun.1.leads_of_mem hw.sm_mem)
  cases a with
  | commit op =>
    have hop := hcommit op rfl
    obtain ⟨sm, b, hap, -⟩ := hinv.apply_total op
    have hcopy : sm.deepCopy = .ok sm := by
      refine HonestRun.deepCopy_eq hexact (hf.honestRun ((C.nodes i).applied + 1)) ?_
      rw [List.take_add_one, hop]
      exact mem_trace_of_run (run_append_iff.2 ⟨_, (hf.sound i).sm, run_cons_iff.2 ⟨_, hap, rfl⟩⟩)
    refine .bind ⟨_, hap⟩ fun r hr => ?_
    obtain rfl : (sm, b) = r := Except.ok.inj (hap.symm.trans hr)
    cases b
    · exact .pure _
    · dsimp only
      rw [if_pos rfl]
      split
      · exact .pure _
      · exact .bind ⟨_, hcopy⟩ fun _ _ => .pure _
  | subscribe =>
    unfold World.step
    dsimp only
    split
    · exact .ok _
    · exact .bind ⟨_, hw.deepCopy_eq hexact⟩ fun _ _ => .pure _
  | read active leaving draws =>
    unfold World.step
    dsimp only
    split
    · rename_i v ch hch
      have hnext := (Delivered.of_reachable hw.reachable).next hch
      have hv := hw.mem_of_mem_updates hexact v (by simp [World.updates, hch])
      refine .bind (Reader.update_runs hnext.view.inv.live
        (hnext.follows.mayPrecede hnext.view.inv.round_nonneg) (fun hph me hme => ?_)
        fun hdebug _ hlt => ?_) fun o _ => ?_
      · obtain ⟨mo, hready⟩ := HonestRun.ready hexact hw.honestRun.1 hv hme (by rw [hph]; decide)
        exact ⟨mo, hready.crypto⟩
      · exact hw.reachable.lastResChSend_eq
          (fun hlate => hread active leaving draws rfl ⟨hdebug, hlate⟩) hch hlt
      · cases o <;> exact .pure _
    · exact .ok _
  | configure active leaving stored => exact .ok _

theorem Cluster.Calm.of_reachable [DecidableEq ι] (hexact : D.env.Exact)
    (hids : Function.Injective fun i => (D.clients i).id) (hhostile : ∀ op, D.hostile op = false)
    (h : C.Reachable D) : C.Faithful D ∧ C.Calm D := by
  obtain ⟨events, hrun⟩ := h
  refine run_preserves (I := fun C => C.Faithful D ∧ C.Calm D) (fun _ _ _ _ hC hs => ?_)
    ⟨Cluster.Faithful.init D, fun i t ht => by cases ht⟩ hrun
  have he := Evolves.of_step hs
  exact ⟨hC.1.evolves hexact hids hhostile he, hC.2.evolves hexact hC.1 he⟩

/-- The goroutine reports to client `i` on a round that is done, in which it participated and in
which somebody submitted a message of exactly the maximum size. -/
def Deployment.ReportsFull (D : Deployment ι) (i : ι) (t : Task) : Prop :=
  ∃ sm r snap ri mo, t = .sendRoundResult sm (r + 1) snap ∧ sm.getRoundInfo r = .ok ri ∧
    ri.phase = .done ∧ (D.clients i).id ∈ ri.participants ∧ ri.crypto = some mo ∧
    ∃ id ∈ ri.participants, (D.plan.text mo id r).length = (D.clients i).messageSize

/-- A goroutine that sends a result. -/
theorem Cluster.Faithful.result_runs (hexact : D.env.Exact) (hf : C.Faithful D) {i : ι}
    {sm : StateMachine} {r : ℤ} {snap : Snapshot}
    (ht : .sendRoundResult sm (r + 1) snap ∈ (C.nodes i).world.session.tasks) :
    Runs ((D.clients i).sendRoundResult D.env sm (r + 1) snap) ∨
      D.ReportsFull i (.sendRoundResult sm (r + 1) snap) := by
  have hw := (hf.nodes i).world
  have hr : r + 1 - 1 = r := by omega
  obtain ⟨ri, hri, hph⟩ := hw.reachable.finished_of_result ht
  obtain ⟨hround, x, hx, rfl⟩ := hw.reachable.reports.2.2.2.source sm (r + 1) snap ht
  have hres := hw.reachable.results_of_mem ht rfl
  rw [hr] at hri hres
  by_cases hme : (D.clients i).id ∈ ri.participants
  · rcases hph with hph | hph
    · refine or_iff_not_imp_right.2 fun hfull => ?_
      obtain ⟨mo, hL⟩ := (HonestRun.layered (D.plan.honestRun_setup hexact hw.honestRun.1) x.sm
        (hw.results_eq hexact hx hri hph hme).1 r ri hri).layered (by rw [hph]; decide)
        (by rw [hph]; decide)
      obtain ⟨verdict, -, hall⟩ := hf.exists_verdict hexact hx hri hph hme hL.crypto
        fun id hid heq => hfull ⟨_, r, snap, ri, mo, rfl, hri, hph, hme, hL.crypto, id, hid, heq⟩
      rw [hall i x ri hx (by omega) hri hme] at hres
      exact ⟨_, (List.singleton_inj.1 hres).symm⟩
    · exact Or.inl ⟨_, Client.sendRoundResult_of_failed snap hri hph hme⟩
  · refine Or.inl ⟨none, ?_⟩
    rw [Client.sendRoundResult, hr, hri]
    simp [bind, Except.bind, pure, Except.pure, assertf_of hph, hme]

/-- **What panics.** In a cluster of honest clients every step is taken without a panic, unless
assertions are on and a client that subscribed after the first round reads an update, or a client
reports on a round in which somebody submitted a message of exactly the maximum size. -/
theorem step_runs_or_late_or_full [DecidableEq ι] (hexact : D.env.Exact)
    (hids : Function.Injective fun i => (D.clients i).id) (hhostile : ∀ op, D.hostile op = false)
    (h : C.Reachable D) (e : ClusterEvent ι) : Runs (C.step D e) ∨
      (∃ i, e = .read i ∧ D.env.debug = true ∧ (C.nodes i).world.Late) ∨
      ∃ i k shuffle t, e = .run i k shuffle ∧
        (C.nodes i).world.session.tasks[k]? = some t ∧ D.ReportsFull i t := by
  obtain ⟨hf, hcalm⟩ := Cluster.Calm.of_reachable hexact hids hhostile h
  have hno : ∀ j op, Runs ((C.nodes j).world.sm.guaranteedNoEffect op) := fun j op =>
    (reachable_of_mem_states (hf.sound j).sm_mem).inv.guaranteedNoEffect_runs op
  refine or_iff_not_imp_right.2 fun hex => ?_
  obtain ⟨hlate, hfull⟩ := not_or.1 hex
  cases e <;> unfold Cluster.step <;> dsimp only
  case apply i =>
    split
    · exact .pure _
    · rename_i op hop
      refine .bind (hf.step_runs hexact _ (fun op' heq => ?_) (by simp)) fun _ _ => .pure _
      cases heq
      exact hop
  case subscribe i => exact .bind (hf.step_runs hexact _ (by simp) (by simp)) fun _ _ => .pure _
  case read i =>
    refine .bind (hf.step_runs hexact _ (by simp) fun _ _ _ _ hl => ?_) fun _ _ => .pure _
    exact hlate ⟨i, rfl, hl⟩
  case configure i member stored =>
    exact .bind (hf.step_runs hexact _ (by simp) (by simp)) fun _ _ => .pure _
  case run i k shuffle =>
    split
    · exact .pure _
    · rename_i t ht
      have hmem := List.mem_of_getElem? ht
      refine .bind ?_ fun o _ => by cases o <;> exact .pure _
      rcases hres : t.resultRound with _ | r
      · exact hcalm i t hmem hres _
      · cases t with
        | sendRoundResult sm r snap =>
          obtain ⟨r, rfl⟩ : ∃ ρ, r = ρ + 1 := ⟨r - 1, by omega⟩
          exact ((hf.result_runs hexact hmem).resolve_right fun hr =>
            hfull ⟨i, k, shuffle, _, rfl, ht, hr⟩).map _
        | _ => cases hres
  case submit i j =>
    split
    · exact .pure _
    · refine .bind (hno j _) fun b _ => ?_
      split_ifs <;> exact .pure _
  case finish i j =>
    split
    · exact .pure _
    · refine .bind (hno j _) fun b _ => ?_
      split_ifs <;> exact .pure _
  case start i r stored primes =>
    split_ifs
    · split
      · exact .pure _
      · split <;> exact .pure _
    · exact .pure _
  case kill i stored => split_ifs <;> exact .pure _
  case commit k => split <;> exact .pure _
  case intrude op => split_ifs <;> exact .pure _
  case get i => split <;> exact .pure _
  all_goals exact .pure _

end Cluster

/-- The first client aborts a round. -/
def abortTurn : List (ClusterEvent Bool) :=
  [.abort false 0, .get false, .submit false false, .commit 0, .apply false, .apply true,
    .finish false false, .read false]

/-- The second client subscribes in the third round. -/
def lateEvents : List (ClusterEvent Bool) :=
  [.subscribe false, .setActive false true, .read false] ++ abortTurn ++ abortTurn ++
    [.subscribe true]

/-- The clients of `pairDeployment`, with messages of the maximum size. -/
def fullDeployment : Deployment Bool :=
  { pairDeployment with plan := { twoPlan with message := fun _ _ => [65, 66] } }

theorem not_runs_of_toBool {α : Type} {x : Go α} (h : (!x.toBool) = true) : ¬ Runs x := by
  rintro ⟨a, rfl⟩
  cases h

/-- The second client of `lateEvents` panics when it reads, and the first client of `fullDeployment`
when it reports on its round. -/
theorem step_runs_or_late_or_full_panics :
    (∃ C : Cluster Bool, C.Reachable pairDeployment ∧
      ¬ Runs (C.step pairDeployment (.read true)) ∧ (C.nodes true).world.Late) ∧
    ∃ (C : Cluster Bool) (t : Task), C.Reachable fullDeployment ∧
      ¬ Runs (C.step fullDeployment (.run false 0 twoChance.shuffle)) ∧
      (C.nodes false).world.session.tasks[0]? = some t ∧ fullDeployment.ReportsFull false t := by
  obtain ⟨C, hC, hpanic⟩ := exists_of_endsWith (by decide +kernel :
    endsWith (Cluster.step pairDeployment) {} lateEvents
      (fun C => !(C.step pairDeployment (.read true)).toBool) = true)
  obtain ⟨C', hC', hpanic'⟩ := exists_of_endsWith (by decide +kernel :
    endsWith (Cluster.step fullDeployment) {} pairEvents
      (fun C => !(C.step fullDeployment (.run false 0 twoChance.shuffle)).toBool) = true)
  have hnot := not_runs_of_toBool hpanic
  have hnot' := not_runs_of_toBool hpanic'
  refine ⟨⟨C, ⟨_, hC⟩, hnot, ?_⟩, C', ?_⟩
  · rcases (step_runs_or_late_or_full exactEnv_exact (by decide) (fun _ => rfl) ⟨_, hC⟩ _
      ).resolve_left hnot with ⟨i, he, -, hlate⟩ | ⟨i, k, shuffle, t, he, -⟩
    · cases he
      exact hlate
    · cases he
  · rcases (step_runs_or_late_or_full exactEnv_exact (by decide) (fun _ => rfl) ⟨_, hC'⟩ _
      ).resolve_left hnot' with ⟨i, he, -⟩ | ⟨i, k, shuffle, t, he, ht, hfull⟩
    · cases he
    · cases he
      exact ⟨t, ⟨_, hC'⟩, hnot', ht, hfull⟩

end EggScrambler
