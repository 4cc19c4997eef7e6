import Mathlib
import EggScrambler.Rep
import EggScrambler.Results

/-!
# A client in an honest run

`HonestWorld` is the system of a client and its server when the log is that of an honest run and the
client's own operations come from the goroutines of its `readUpdates`.

* `HonestWorld.mem_of_mem_updates`: the updates are the states of the server, unchanged.
* `HonestWorld.backed`: who has scrambled or revealed in the server's eyes, has done so in a
  goroutine.
* `HonestWorld.results_eq`: about a round that is done, one verdict is sent.
-/

namespace EggScrambler

open StateMachine Transition

/-- The participant that an operation is from. -/
def Op.id : Op → Option UUID
  | join id _ | start id .. | message id .. | encrypted id .. | scrambled id .. | decrypted id ..
  | reveal id .. => some id
  | abort _ => none

/-- One of the goroutines adds the operation to `pending`. -/
def Session.Sends (env : Env) (c : Client) (s : Session) (op : Op) : Prop :=
  ∃ t ∈ s.tasks, ∃ chance, t.op env c chance = .ok (some op)

/-- A client in an honest run: the states of the server, newest first, and the system.  The
client's own operations are those of its goroutines, except that rounds are started by the user. -/
inductive HonestWorld (plan : Plan) (env : Env) (c : Client) : List StateMachine → World → Prop
  | init : HonestWorld plan env c [newStateMachine] {}
  | commit {hist : List StateMachine} {w w' : World} {op : Op} {b : Bool}
      (h : HonestWorld plan env c hist w) (hop : Honest (plan.conduct env) hist op)
      (hown : op.id = some c.id → op.type ≠ .start → w.session.Sends env c op)
      (hs : w.step env c (.commit op) = .ok (w', b)) : HonestWorld plan env c (w'.sm :: hist) w'
  | other {hist : List StateMachine} {w w' : World} {act : Action} {b : Bool}
      (h : HonestWorld plan env c hist w) (hact : ∀ op, act ≠ .commit op)
      (hs : w.step env c act = .ok (w', b)) : HonestWorld plan env c hist w'

/-! ## One step -/

namespace World

variable {env : Env} {c : Client} {w w' : World}

theorem apply_of_commit {op : Op} (hs : Steps env c w (.commit op) w') :
    ∃ b, w.sm.apply op = .ok (w'.sm, b) := by
  cases hs with
  | commit hap hch hcopy => exact ⟨true, hap⟩
  | unseen hap hch => exact ⟨true, hap⟩
  | stay hap => exact ⟨false, hap op rfl⟩

theorem sm_of_other {act : Action} (hact : ∀ op, act ≠ .commit op) (hs : Steps env c w act w') :
    w'.sm = w.sm := by
  cases hs with
  | commit => exact absurd rfl (hact _)
  | unseen => exact absurd rfl (hact _)
  | _ => rfl

/-- Goroutines are not forgotten. -/
theorem tasks_subset {act : Action} (hs : Steps env c w act w') :
    w.session.tasks ⊆ w'.session.tasks := by
  cases hs with
  | read => exact List.subset_append_right _ _
  | configure => exact List.subset_append_right _ _
  | _ => exact List.Subset.refl _

/-- What is sent is a copy of the server's state. -/
theorem updates_cases {act : Action} (hd : Delivered w) (hs : Steps env c w act w') :
    ∀ v ∈ w'.updates, v ∈ w.updates ∨ w'.sm.deepCopy = .ok v := by
  cases hs with
  | @commit op sm copy ch hap hch hcopy =>
    intro v hv
    simp only [updates, Option.getD_some, List.reverse_append, List.reverse_singleton,
      List.cons_append, List.mem_cons] at hv
    rcases hv with rfl | hv
    · exact Or.inr hcopy
    · exact Or.inl (by rwa [updates, hch])
  | @subscribe copy hch hcopy =>
    intro v hv
    simp only [updates, Option.getD_some, List.reverse_singleton, hd.unread hch, List.map_nil,
      List.append_nil, List.mem_singleton] at hv
    rw [hv]
    exact Or.inr hcopy
  | @read active leaving draws v ch a hch ha =>
    intro v' hv'
    left
    simpa [updates, hch, Session.react, or_assoc] using hv'
  | _ => exact fun v hv => Or.inl hv

end World

/-! ## What a goroutine sends -/

/-- The type and the round of the operation that a goroutine sends. -/
def Task.sends : Task → Option (OpType × ℤ)
  | sendRoundResult .. => none
  | prepare r _ => some (.join, r)
  | abort r => some (.abort, r)
  | submit r .. => some (.message, r)
  | encrypt r .. => some (.encrypted, r)
  | scramble r .. => some (.scrambled, r)
  | decrypt r .. => some (.decrypted, r)
  | reveal r .. => some (.reveal, r)

section Sends

variable {env : Env} {c : Client} {chance : Chance} {s : Session}

theorem Task.sends_of_op {t : Task} {op : Op} (h : t.op env c chance = .ok (some op)) :
    t.sends = some (op.type, op.round) := by
  cases t with
  | sendRoundResult => exact absurd h op_sendRoundResult_ne
  | prepare r me =>
    have h : c.prepare r me = some op := Except.ok.inj h
    unfold Client.prepare at h
    split_ifs at h
    cases h
    rfl
  | abort r =>
    cases h
    rfl
  | submit r ri me encryptKey revealKey =>
    obtain ⟨m, -, h⟩ := bind_eq_ok_iff.1 h
    split_ifs at h
    · obtain ⟨mo, -, h⟩ := bind_eq_ok_iff.1 h
      obtain ⟨x, -, h⟩ := bind_eq_ok_iff.1 h
      cases h
      rfl
    · cases h
  | encrypt r ri me encryptKey =>
    obtain ⟨-, ms, -, rfl⟩ := Client.offer_eq_some_iff.1 h
    rfl
  | scramble r ri me scrambleKey revealKey =>
    obtain ⟨-, ms, -, rfl⟩ := Client.offer_eq_some_iff.1 h
    rfl
  | decrypt r ri me scrambleKey encryptKey =>
    obtain ⟨-, ms, -, rfl⟩ := Client.offer_eq_some_iff.1 h
    rfl
  | reveal r ri me revealKey =>
    obtain ⟨-, rfl⟩ := Client.reveal_eq_some_iff.1 h
    rfl

theorem Session.Sends.scrambles {id : UUID} {r : ℤ} {messages : List Msg}
    (h : s.Sends env c (.scrambled id r messages)) : s.Scrambles r := by
  obtain ⟨t, ht, chance, hop⟩ := h
  have hsends := Task.sends_of_op hop
  refine ⟨t, ht, ?_⟩
  cases t <;> cases hsends
  rfl

theorem Session.Sends.reveals {id : UUID} {r : ℤ} {key : PrivateKey}
    (h : s.Sends env c (.reveal id r key)) : s.Reveals r := by
  obtain ⟨t, ht, chance, hop⟩ := h
  have hsends := Task.sends_of_op hop
  refine ⟨t, ht, ?_⟩
  cases t <;> cases hsends
  rfl

end Sends

/-! ## One round -/

/-- What the client has done in round `r`, as the server sees it, it has started a goroutine for. -/
structure Backed (c : Client) (s : Session) (r : ℤ) (ri : RoundInfo) : Prop where
  scrambles : ∀ p : ℕ, ri.participants[p]? = some c.id → ri.scrambled[p]? = some true →
    s.Scrambles r
  reveals : ∀ (p : ℕ) (key : PrivateKey), ri.participants[p]? = some c.id →
    ri.revealedKeys[p]? = some key → key.isNil = false → s.Reveals r

namespace Backed

variable {env : Env} {c : Client} {s s' : Session} {r : ℤ} {ri ri' : RoundInfo}

theorem mono (h : Backed c s r ri) (hsub : s.tasks ⊆ s'.tasks) : Backed c s' r ri where
  scrambles p hp hf := by
    obtain ⟨t, ht, hr⟩ := h.scrambles p hp hf
    exact ⟨t, hsub ht, hr⟩
  reveals p key hp hk hnil := by
    obtain ⟨t, ht, hr⟩ := h.reveals p key hp hk hnil
    exact ⟨t, hsub ht, hr⟩

/-- Before the scramble phase there is nothing to account for. -/
theorem of_early (hI : RoundInv ri) (hord : phaseOrder ri.phase < 3) : Backed c s r ri where
  scrambles p hp hf := by
    have hzero : numTrue ri.scrambled = 0 := hI.before .scramble hord
    have := (numTrue_eq_zero_iff _).1 hzero true (List.mem_of_getElem? hf)
    cases this
  reveals p key hp hk hnil := by
    rw [hI.keys_nil (by omega) key (List.mem_of_getElem? hk)] at hnil
    cases hnil

/-- A change that leaves participants, flags and keys alone. -/
theorem congr (h : Backed c s r ri) (hparts : ri'.participants = ri.participants)
    (hscr : ri'.scrambled = ri.scrambled) (hkeys : ri'.revealedKeys = ri.revealedKeys) :
    Backed c s r ri' where
  scrambles p hp hf := h.scrambles p (hparts ▸ hp) (hscr ▸ hf)
  reveals p key hp hk := h.reveals p key (hparts ▸ hp) (hkeys ▸ hk)

/-- Each operation is the client's own or leaves what it did alone. -/
theorem accepts (h : Backed c s r ri) (hI : RoundInv ri) {op : Op} (ha : Accepts ri op ri')
    (hr : op.round = r)
    (hown : op.id = some c.id → op.type ≠ .start → s.Sends env c op) : Backed c s r ri' := by
  have hI' := ha.roundInv hI
  cases ha with
  | @join id r' hph hid =>
    have hph' : (ri.addParticipant id).phase = .prepare := hph
    exact of_early hI' (by rw [hph']; decide)
  | start hph => exact of_early hI' (show phaseOrder .submit < 3 by decide)
  | message hph hp hm hh =>
    refine of_early hI' ?_
    simp only [RoundInfo.putMessage, hph]
    split_ifs <;> decide
  | @transform st prev id r' messages q hst hq hn hf =>
    cases st with
    | encrypt => exact h.congr rfl rfl rfl
    | decrypt => exact h.congr rfl rfl rfl
    | scramble =>
      refine ⟨fun p hp hflag => ?_, h.reveals⟩
      by_cases heq : p = q
      · subst heq
        have hid : id = c.id :=
          Option.some.inj ((RoundInfo.participantIndex_eq_some hq).symm.trans hp)
        have hsends := hown (by rw [hid]; rfl) (by simp [Stage.op, Op.type])
        have := hsends.scrambles
        rwa [show r' = r from hr] at this
      · have hold : (ri.scrambled.set q true)[p]? = some true := hflag
        rw [List.getElem?_set_ne (Ne.symm heq)] at hold
        exact h.scrambles p hp hold
  | @reveal id r' key q hph hq hk =>
    refine ⟨h.scrambles, fun p key' hp hk' hnil => ?_⟩
    by_cases heq : p = q
    · subst heq
      have hid : id = c.id :=
        Option.some.inj ((RoundInfo.participantIndex_eq_some hq).symm.trans hp)
      have hsends := hown (by rw [hid]; rfl) (by simp [Op.type])
      have := hsends.reveals
      rwa [show r' = r from hr] at this
    · have hold : (ri.revealedKeys.set q key)[p]? = some key' := hk'
      rw [List.getElem?_set_ne (Ne.symm heq)] at hold
      exact h.reveals p key' hp hold hnil
  | abort => exact h.congr rfl rfl rfl

/-- When the round is done, the client has scrambled and revealed. -/
theorem of_done (h : Backed c s r ri) (hI : RoundInv ri) (hph : ri.phase = .done)
    (hme : c.id ∈ ri.participants) : s.Scrambles r ∧ s.Reveals r := by
  obtain ⟨p, hp⟩ := List.mem_iff_getElem?.1 hme
  have hlt := (List.getElem?_eq_some_iff.1 hp).1
  constructor
  · have hall : ri.scrambled = List.replicate ri.participants.length true :=
      hI.flags_eq_true .scramble (by rw [hph]; decide) (by rw [hph]; decide)
    exact h.scrambles p hp (by rw [hall, List.getElem?_replicate_of_lt hlt])
  · have hk : p < ri.revealedKeys.length := by rwa [hI.keys_length]
    exact h.reveals p _ hp (List.getElem?_eq_getElem hk) (hI.done_keys hph _ (List.getElem_mem hk))

end Backed

/-! ## Whole runs -/

namespace HonestWorld

variable {plan : Plan} {env : Env} {c : Client} {hist : List StateMachine} {w : World}

theorem reachable (h : HonestWorld plan env c hist w) : World.Reachable env c w := by
  induction h with
  | init => exact Leads.refl _
  | commit h hop hown hs ih => exact ih.trans (Leads.of_step hs)
  | other h hact hs ih => exact ih.trans (Leads.of_step hs)

/-- The server has an honest run. -/
theorem honestRun (h : HonestWorld plan env c hist w) :
    HonestRun (plan.conduct env) hist ∧ ∃ rest, hist = w.sm :: rest := by
  induction h with
  | init => exact ⟨.init, [], rfl⟩
  | @commit hist w w' op b h hop hown hs ih =>
    obtain ⟨hrun, rest, rfl⟩ := ih
    obtain ⟨b', hap⟩ := World.apply_of_commit (Steps.of_step hs)
    exact ⟨.next hrun hop hap, _, rfl⟩
  | other h hact hs ih =>
    rw [World.sm_of_other hact (Steps.of_step hs)]
    exact ih

theorem sm_mem (h : HonestWorld plan env c hist w) : w.sm ∈ hist := by
  obtain ⟨-, rest, rfl⟩ := h.honestRun
  exact List.mem_cons_self

/-- Copies are exact. -/
theorem deepCopy_eq (hexact : env.Exact) (h : HonestWorld plan env c hist w) :
    w.sm.deepCopy = .ok w.sm := by
  have hrun := h.honestRun.1
  have hinv : Inv w.sm := Reachable.inv (hrun.leads_of_mem h.sm_mem)
  refine hinv.deepCopy_eq_self_iff.2 fun i => ?_
  exact (HonestRun.rep (plan.honestRun_setup hexact hrun) w.sm h.sm_mem i).length

/-- The updates are states of the server. -/
theorem mem_of_mem_updates (hexact : env.Exact) (h : HonestWorld plan env c hist w) :
    ∀ v ∈ w.updates, v ∈ hist := by
  induction h with
  | init => simp [World.updates]
  | @commit hist w w' op b h hop hown hs ih =>
    intro v hv
    rcases World.updates_cases (Delivered.of_reachable h.reachable) (Steps.of_step hs) v hv with
      hold | hcopy
    · exact List.mem_cons_of_mem _ (ih v hold)
    · rw [deepCopy_eq hexact (.commit h hop hown hs)] at hcopy
      cases hcopy
      exact List.mem_cons_self
  | @other hist w w' act b h hact hs ih =>
    intro v hv
    rcases World.updates_cases (Delivered.of_reachable h.reachable) (Steps.of_step hs) v hv with
      hold | hcopy
    · exact ih v hold
    · have hnext : HonestWorld plan env c hist w' := .other h hact hs
      rw [deepCopy_eq hexact hnext] at hcopy
      cases hcopy
      exact hnext.sm_mem

/-- What the client did is backed by its goroutines. -/
theorem backed (h : HonestWorld plan env c hist w) :
    ∀ S ∈ hist, ∀ r ri, S.getRoundInfo r = .ok ri → Backed c w.session r ri := by
  induction h with
  | init =>
    rintro S hS r ri hri
    rw [List.mem_singleton.1 hS] at hri
    have hI := Inv.new.roundInv hri
    obtain ⟨h₀, hle, -, rfl⟩ := getRoundInfo_eq_ok_iff.1 hri
    obtain rfl : r = 0 := le_antisymm hle h₀
    exact .of_early hI (by decide)
  | @commit hist w w' op b h hop hown hs ih =>
    have hst := Steps.of_step hs
    have hinv : Inv w.sm := Reachable.inv (h.honestRun.1.leads_of_mem h.sm_mem)
    have hsub := World.tasks_subset hst
    intro S hS r ri hri
    rcases List.mem_cons.1 hS with rfl | hS
    · obtain ⟨b', hap⟩ := World.apply_of_commit hst
      cases b' with
      | false =>
        rw [eq_of_apply_false hap] at hri
        exact (ih w.sm h.sm_mem r ri hri).mono hsub
      | true =>
        obtain ⟨hr, ri', ha, heq⟩ := apply_true_iff.1 hap
        rw [heq] at hri
        rcases getRoundInfo_advance hinv.round_nonneg hri with ⟨-, hold⟩ | ⟨rfl, rfl⟩ | ⟨rfl, rfl⟩
        · exact (ih w.sm h.sm_mem r ri hold).mono hsub
        · have hcur := ih w.sm h.sm_mem _ _ (getRoundInfo_currentRoundInfo hinv.round_nonneg)
          exact (hcur.accepts hinv.current ha hr hown).mono hsub
        · exact .of_early (RoundInv.of_empty (Or.inr rfl)) (by decide)
    · exact (ih S hS r ri hri).mono hsub
  | other h hact hs ih =>
    intro S hS r ri hri
    exact (ih S hS r ri hri).mono (World.tasks_subset (Steps.of_step hs))

/-- **One verdict.** About a round that the client has read the end of, one verdict is sent. -/
theorem results_eq (hexact : env.Exact) (h : HonestWorld plan env c hist w) {x : Read}
    (hx : x ∈ w.session.reads) {r : ℤ} {ri : RoundInfo} (hri : x.sm.getRoundInfo r = .ok ri)
    (hph : ri.phase = .done) (hme : c.id ∈ ri.participants) :
    x.sm ∈ hist ∧ ∃ snap : Snapshot, snap.Agrees r ri ∧ w.session.results env c r =
      [(Client.verifyRound env ri snap).map (RoundResult.ofVerdict r)] := by
  have hmem : x.sm ∈ hist := h.mem_of_mem_updates hexact x.sm
    (List.mem_append_right _ (List.mem_map_of_mem hx))
  have hinv : Inv x.sm := Reachable.inv (h.honestRun.1.leads_of_mem hmem)
  obtain ⟨hs, hr⟩ := (h.backed x.sm hmem r ri hri).of_done (hinv.roundInv hri) hph hme
  obtain ⟨sm, snap, hget, hag, hres⟩ := h.reachable.results_eq hx hri hph hs hr
  refine ⟨hmem, snap, hag, ?_⟩
  rw [hres, Client.sendRoundResult_of_agrees hag hget hph hme]

/-! ## Computed runs -/

/-- A move of a computed run: a turn of some client, or a step of the client that is looked at. -/
inductive Move where
  | turn (t : Client × Option Crypto)
  | subscribe
  | read

/-- The system after a move; a turn whose operation is the client's own needs a goroutine that sends
it. -/
def move (plan : Plan) (env : Env) (c : Client) (chance : Chance) (w : World) :
    Move → Go (World × Bool)
  | .turn t =>
    match (plan.conduct env).turnOp (plan.submit env) chance.shuffle w.sm t.1 t.2 with
    | none => .ok (w, false)
    | some op =>
      if op.id = some c.id → op.type ≠ .start →
          ∃ t ∈ w.session.tasks, t.op env c chance = .ok (some op) then
        w.step env c (.commit op)
      else .ok (w, false)
  | .subscribe => w.step env c .subscribe
  | .read => w.step env c (.read true false (plan.draws c.id w.sm.round))

theorem move_honest {chance : Chance} {m : Move} {w' : World} {b : Bool}
    (h : HonestWorld plan env c hist w)
    (hstarts : ∀ t, m = .turn t → ∀ mo, t.2 = some mo → (plan.conduct env).starts mo)
    (hm : move plan env c chance w m = .ok (w', b)) : ∃ hist', HonestWorld plan env c hist' w' := by
  cases m with
  | turn t =>
    unfold move at hm
    simp only at hm
    split at hm
    · cases hm
      exact ⟨hist, h⟩
    · rename_i op hop
      split_ifs at hm with hown
      · have hop := Conduct.turnOp_honest (plan.submits_submit env) h.sm_mem (hstarts t rfl) hop
        refine ⟨_, .commit h hop (fun hid hty => ?_) hm⟩
        obtain ⟨t, ht, hsends⟩ := hown hid hty
        exact ⟨t, ht, chance, hsends⟩
      · cases hm
        exact ⟨hist, h⟩
  | subscribe =>
    have hm : w.step env c .subscribe = .ok (w', b) := hm
    exact ⟨hist, .other h (by simp) hm⟩
  | read =>
    have hm : w.step env c (.read true false (plan.draws c.id w.sm.round)) = .ok (w', b) := hm
    exact ⟨hist, .other h (by simp) hm⟩

theorem of_moves {chance : Chance} {moves : List Move} {w' : World}
    (h : HonestWorld plan env c hist w)
    (hstarts : ∀ m ∈ moves, ∀ t, m = .turn t → ∀ mo, t.2 = some mo → (plan.conduct env).starts mo)
    (hrun : run (move plan env c chance) w moves = .ok w') :
    ∃ hist', HonestWorld plan env c hist' w' := by
  induction moves generalizing w hist with
  | nil =>
    cases hrun
    exact ⟨hist, h⟩
  | cons m moves ih =>
    obtain ⟨⟨w₁, b⟩, hm, hrest⟩ := run_cons_iff.1 hrun
    obtain ⟨hfirst, hmoves⟩ := List.forall_mem_cons.1 hstarts
    obtain ⟨hist₁, h₁⟩ := h.move_honest hfirst hm
    exact ih h₁ hmoves hrest

end HonestWorld

end EggScrambler
