import Mathlib
import EggScrambler.EliminationQueue
import EggScrambler.World

/-!
# What elimination discards

The queue of a client orders its operations by round, kind and counter, while an operation takes
effect or not depending on the state of the machine.  `Makes` collects all the ways in which a
client builds an operation from a state that it has seen: the six helpers of `readUpdates` in the
phases in which the loop calls them, `Start` and `abort`.  A client that builds an operation `b`
knows that the round has come as far as `b` requires (`Makes.phaseOrder_le`), so what is older than
`b` is too late there and in every later state (`eliminated_of_older`).
-/

namespace EggScrambler

open StateMachine Transition

/-- Client `c` builds `op` from the state `sm`. -/
inductive Makes (env : Env) (c : Client) (sm : StateMachine) : Op → Prop
  /-- In the prepare phase, and at configuration updates in any phase; nothing here depends on the
index that `prepare` is handed. -/
  | prepare (me : Option ℕ) {op : Op} (h : c.prepare sm.round me = some op) : Makes env c sm op
  | start (crypto : Crypto) {v : StateMachine} {r : ℤ} {op : Op}
      (hv : v = sm ∨ sm.deepCopy = .ok v) (h : c.start v r crypto = .ok op) : Makes env c sm op
  | submit (encryptKey revealKey : PrivateKey) (msg : Bytes) (r₁ r₂ : Nonce) {ri : RoundInfo}
      {me : ℕ} {op : Op} (hs : Seen sm ri) (hph : ri.phase = .submit) (hme : c.me ri = some me)
      (h : c.submit env sm.round ri me encryptKey revealKey msg r₁ r₂ = .ok (some op)) :
      Makes env c sm op
  | transform {st : Stage} {op : Op} (h : Builds c sm st op) : Makes env c sm op
  | reveal (revealKey : PrivateKey) {ri : RoundInfo} {me : ℕ} {op : Op} (hs : Seen sm ri)
      (hph : ri.phase = .reveal) (hme : c.me ri = some me)
      (h : c.reveal sm.round ri me revealKey = .ok (some op)) : Makes env c sm op
  | abort : Makes env c sm (Client.abort sm.round)

theorem Client.eq_message_of_submit {env : Env} {c : Client} {r : ℤ} {ri : RoundInfo} {me : ℕ}
    {encryptKey revealKey : PrivateKey} {msg : Bytes} {r₁ r₂ : Nonce} {op : Op}
    (h : c.submit env r ri me encryptKey revealKey msg r₁ r₂ = .ok (some op)) :
    ∃ m hash, op = .message c.id r m hash := by
  obtain ⟨m, -, h⟩ := bind_eq_ok_iff.1 h
  split_ifs at h
  · obtain ⟨crypto, -, h⟩ := bind_eq_ok_iff.1 h
    obtain ⟨m', -, h⟩ := bind_eq_ok_iff.1 h
    cases h
    exact ⟨_, _, rfl⟩
  · simp [pure, Except.pure] at h

/-- A state or a copy of it, as far as `Start` looks at it. -/
theorem Inv.seen_of_copy {sm v : StateMachine} (h : Inv sm) (hv : v = sm ∨ sm.deepCopy = .ok v) :
    v.round = sm.round ∧ Seen sm v.currentRoundInfo := by
  rcases hv with rfl | hv
  · exact ⟨rfl, Or.inl rfl⟩
  · exact ⟨(deepCopy_eq_ok_iff.1 hv).1, Or.inr (h.currentRoundInfo_deepCopy hv)⟩

/-! ## What the loop starts -/

section Loop

variable {env : Env} {c : Client} {S v : StateMachine}

theorem Makes.of_prepare {r : ℤ} {me : Option ℕ} {chance : Chance} {op : Op} (hr : r = S.round)
    (hop : (Task.prepare r me).op env c chance = .ok (some op)) : Makes env c S op :=
  .prepare me (hr ▸ Except.ok.inj hop)

/-- A goroutine that one turn of the loop starts builds its operation from the update. -/
theorem Reads.makes {active : Bool} {draws : Draws} {rd : Reader} {a : Reaction} (hS : Inv S)
    (hv : S.deepCopy = .ok v) (ha : Reads env c active draws rd v a) {t : Task} (ht : t ∈ a.tasks)
    {chance : Chance} {op : Op} (hop : t.op env c chance = .ok (some op)) : Makes env c S op := by
  obtain ⟨hround, hs⟩ := hS.seen_of_copy (Or.inr hv)
  cases ha with
  | result hph hp hlast =>
    rcases List.mem_cons.1 ht with rfl | ht
    · exact absurd hop Task.op_sendRoundResult_ne
    · obtain ⟨me, rfl⟩ := hp t ht
      exact .of_prepare hround hop
  | prepare hph hp hlast =>
    obtain ⟨me, rfl⟩ := hp t ht
    exact .of_prepare hround hop
  | idle => cases ht
  | refuse hph hme hmo =>
    rw [List.mem_singleton.1 ht, hround] at hop
    cases hop
    exact .abort
  | generate hph hme hlast hmo hver hk =>
    rw [Reader.eq_of_mem_submitOnce ht, hround] at hop
    exact .submit _ _ _ _ _ hs hph (Client.me_of_business hme) hop
  | submit hph hme hlast =>
    rw [Reader.eq_of_mem_submitOnce ht, hround] at hop
    exact .submit _ _ _ _ _ hs hph (Client.me_of_business hme) hop
  | encrypt hph hme =>
    rw [List.mem_singleton.1 ht, hround] at hop
    exact .transform (.encrypt _ hs hph (Client.me_of_business hme) hop)
  | scramble hph hme hlast hturn =>
    rw [List.mem_singleton.1 ht, hround] at hop
    exact .transform (.scramble _ _ _ hs hph (Client.me_of_business hme) hturn hop)
  | decrypt hph hme =>
    rw [List.mem_singleton.1 ht, hround] at hop
    exact .transform (.decrypt _ _ hs hph (Client.me_of_business hme) hop)
  | reveal hph hme =>
    rw [List.mem_singleton.1 ht, hround] at hop
    exact .reveal _ hs hph (Client.me_of_business hme) hop

/-- The goroutines of a session build their operations from states of the server. -/
structure Session.Made (env : Env) (c : Client) (s : Session) : Prop where
  views : ∀ x ∈ s.reads, IsView x.sm
  tasks : ∀ t ∈ s.tasks, ∀ chance op, t.op env c chance = .ok (some op) →
    ∃ S, StateMachine.Reachable S ∧ Makes env c S op

theorem Session.Made.react {s : Session} (h : s.Made env c) (hview : IsView v) {active : Bool}
    {draws : Draws} {a : Reaction} (ha : Reads env c active draws s.reader v a) :
    (s.react ⟨v, active⟩ a).Made env c where
  views x hx := by
    rcases List.mem_cons.1 hx with rfl | hx
    · exact hview
    · exact h.views x hx
  tasks t ht chance op hop := by
    rcases List.mem_append.1 ht with ht | ht
    · obtain ⟨S, hS, hv⟩ := hview
      exact ⟨S, hS, ha.makes hS.inv hv ht hop⟩
    · exact h.tasks t ht chance op hop

theorem Session.Made.configure {s : Session} (h : s.Made env c) (active leaving : Bool)
    (stored : ℕ) : (s.configure c active leaving stored).Made env c where
  views := h.views
  tasks t ht chance op hop := by
    rcases List.mem_append.1 ht with ht | ht
    · obtain ⟨me, rfl⟩ := Reader.eq_of_mem_prepares ht
      rcases s.stored_cases stored with hnew | ⟨x, hx, hst⟩
      · exact ⟨newStateMachine, Leads.refl _, .of_prepare (by rw [hnew]) hop⟩
      · obtain ⟨S, hS, hv⟩ := h.views x hx
        exact ⟨S, hS, .of_prepare (by rw [hst]; exact (deepCopy_eq_ok_iff.1 hv).1) hop⟩
    · exact h.tasks t ht chance op hop

/-- All that the loop adds to the queue is built from states of the server. -/
theorem World.Reachable.made {w : World} (h : World.Reachable env c w) : w.session.Made env c :=
  World.session_induction ⟨by simp, by simp⟩ (fun _ _ _ _ _ hs hnext ha => hs.react hnext.view ha)
    (fun _ active leaving stored hs => hs.configure active leaving stored) h

end Loop

/-! ## What is too late -/

/-- What a client knows that builds an operation: the state has come as far as the operation
requires. -/
structure Timely (c : Client) (sm : StateMachine) (op : Op) : Prop where
  round_eq : op.round = sm.round
  phaseOrder_le : op.type ≠ .abort → op.type.phaseOrder ≤ phaseOrder sm.currentRoundInfo.phase
  join_id : ∀ id r, op = .join id r → id = c.id
  start_mem : op.type = .start → c.id ∈ sm.currentRoundInfo.participants
  counter : ∀ (st : Stage) id r messages prev, st ≠ .scramble → op = st.op id r messages prev →
    sm.currentRoundInfo.phase = st.phase ∧ prev = numTrue (st.flags sm.currentRoundInfo)

theorem Makes.timely {env : Env} {c : Client} {sm : StateMachine} {op : Op} (h : Inv sm)
    (hop : Makes env c sm op) : Timely c sm op := by
  cases hop with
  | prepare me hop =>
    unfold Client.prepare at hop
    split_ifs at hop
    cases hop
    refine ⟨rfl, fun _ => Nat.zero_le _, fun id r hid => ?_, by simp [Op.type], fun st => ?_⟩
    · cases hid
      rfl
    · cases st <;> simp [Stage.op]
  | start crypto hv hop =>
    obtain ⟨hround, hs⟩ := h.seen_of_copy hv
    unfold Client.start at hop
    split_ifs at hop with hr hid
    cases hop
    refine ⟨?_, fun _ => Nat.zero_le _, by simp, fun _ => ?_, fun st => ?_⟩
    · exact (not_not.1 hr).symm.trans hround
    · rwa [hs.eq h] at hid
    · cases st <;> simp [Stage.op]
  | submit encryptKey revealKey msg r₁ r₂ hs hph hme hop =>
    obtain ⟨m, hash, rfl⟩ := Client.eq_message_of_submit hop
    refine ⟨rfl, fun _ => ?_, by simp, by simp [Op.type], fun st => ?_⟩
    · rw [← hs.phase h, hph]
      exact le_rfl
    · cases st <;> simp [Stage.op]
  | @transform st _ hb =>
    obtain ⟨hph, me, messages, hme, -, rfl⟩ := hb.spec h
    refine ⟨st.round_op .., fun _ => ?_, ?_, ?_, fun st' id r ms prev hst heq => ?_⟩
    · rw [hph]
      cases st <;> exact le_rfl
    · cases st <;> simp [Stage.op]
    · cases st <;> simp [Stage.op, Op.type]
    · cases st <;> cases st' <;> simp_all [Stage.op]
  | reveal revealKey hs hph hme hop =>
    obtain ⟨-, rfl⟩ := Client.reveal_eq_some_iff.1 hop
    refine ⟨rfl, fun _ => ?_, by simp, by simp [Op.type], fun st => ?_⟩
    · rw [← hs.phase h, hph]
      exact le_rfl
    · cases st <;> simp [Stage.op]
  | abort =>
    refine ⟨rfl, fun hab => absurd rfl hab, by simp [Client.abort], by simp [Client.abort, Op.type],
      fun st => ?_⟩
    cases st <;> simp [Stage.op, Client.abort]

/-- The order of the kinds is that of the phases, but for joins and starts. -/
theorem phaseOrder_lt_of_opIndex {a b : Op} (h : opIndex a < opIndex b) (hb : b.type ≠ .abort) :
    a.type ≠ .abort ∧
      (a.type.phaseOrder < b.type.phaseOrder ∨ a.type = .join ∧ b.type = .start) := by
  unfold opIndex at h
  cases ha : a.type <;> cases hb' : b.type <;> simp_all [OpType.phaseOrder]

/-- Two operations of one kind that differ in their counters. -/
theorem eq_op_of_prev_lt {a b : Op} (hi : opIndex a = opIndex b) (hp : a.prev < b.prev) :
    ∃ st : Stage, st ≠ .scramble ∧
      (∃ id r messages, a = st.op id r messages a.prev) ∧
      ∃ id r messages, b = st.op id r messages b.prev := by
  have htype := type_eq_of_opIndex hi
  cases a with
  | encrypted =>
    cases b with
    | encrypted => exact ⟨.encrypt, by simp, ⟨_, _, _, rfl⟩, _, _, _, rfl⟩
    | _ => cases htype
  | decrypted =>
    cases b with
    | decrypted => exact ⟨.decrypt, by simp, ⟨_, _, _, rfl⟩, _, _, _, rfl⟩
    | _ => cases htype
  | _ => cases b <;> first | cases htype; done | exact absurd hp (lt_irrefl _)

/-- What is older than an operation that the client could build is not accepted any more. -/
theorem Timely.not_accepts {c : Client} {Sa Sb S : StateMachine} {a b : Op} (ha : Timely c Sa a)
    (hb : Timely c Sb b) (hSb : Inv Sb) (hl : Leads apply Sb S) (hab : rank a < rank b)
    (hne : ¬ (b.type = .abort ∧ b.round = a.round)) (hr : a.round = S.round) (ri : RoundInfo) :
    ¬ Accepts S.currentRoundInfo a ri := by
  intro hacc
  have hS := hSb.of_leads hl
  have hf := Follows.of_leads hSb hl
  have hle := hf.round_le
  rcases rank_lt_iff.1 hab with hlt | ⟨heq, hab⟩
  · have := hb.round_eq
    omega
  have hrS : S.round = Sb.round := by rw [← hr, heq, hb.round_eq]
  have hlater := hf.later_of_round_eq hS.round_nonneg hrS
  have hbt : b.type ≠ .abort := fun hab => hne ⟨hab, heq.symm⟩
  rcases hab with hidx | ⟨hidx, hprev⟩
  · obtain ⟨hat, hlt | ⟨hjoin, hstart⟩⟩ := phaseOrder_lt_of_opIndex hidx hbt
    · have hph := hacc.phaseOrder_eq hat
      have hpb := hb.phaseOrder_le hbt
      have hord := hlater.order
      omega
    · -- the client was a participant already when it built the start
      have hmem := participants_subset_of_leads hSb hl hrS (hb.start_mem hstart)
      cases a with
      | join id r =>
        rw [← ha.join_id id r rfl] at hmem
        exact hacc.of_join.2.1 hmem
      | _ => cases hjoin
  · obtain ⟨st, hst, ⟨ida, r, ms, ha'⟩, idb, r', ms', hb'⟩ := eq_op_of_prev_lt hidx hprev
    obtain ⟨hphb, hcb⟩ := hb.counter st _ _ _ _ hst hb'
    rw [ha'] at hacc
    obtain ⟨hphS, p, -, hn, -, -⟩ := hacc.of_op st _
    have hcount := (hlater.ticket st hphb hphS).1
    have hn : (numTrue (st.flags S.currentRoundInfo) : ℤ) = a.prev := by
      cases st with
      | scramble => exact absurd rfl hst
      | encrypt | decrypt => exact hn
    omega

/-- **Elimination discards dead operations only.** Let a client have built `a` and `b` from states
of runs, with `a` older than `b`, and `b` not the abort of the round of `a`.  In the state from
which `b` was built, and after any further operations, `a` has no effect. -/
theorem eliminated_of_older {env : Env} {c : Client} {Sa Sb : StateMachine} {a b : Op}
    (hSa : Reachable Sa) (hSb : Reachable Sb) (ha : Makes env c Sa a) (hb : Makes env c Sb b)
    (hab : compare a b = .older) (hne : ¬ (b.type = .abort ∧ b.round = a.round)) (log : List Op) :
    ∃ S, run apply Sb log = .ok S ∧ S.apply a = .ok (S, false) := by
  obtain ⟨S, hrun, hS⟩ := run_total (fun s op hs => Inv.apply_total hs op) hSb.inv log
  refine ⟨S, hrun, hS.apply_of_not_accepts fun hr ri => ?_⟩
  exact (ha.timely hSa.inv).not_accepts (hb.timely hSb.inv) hSb.inv ⟨log, hrun⟩
    (compare_older_iff.1 hab) hne hr ri

/-- A client that has joined and starts the round: its join is dead. -/
theorem eliminated_of_older_start : ∃ S, newStateMachine.apply (.join 1 0) = .ok (S, true) ∧
    Makes plainEnv ⟨1, 0⟩ newStateMachine (.join 1 0) ∧
    Makes plainEnv ⟨1, 0⟩ S (.start 1 0 (some ⟨[7]⟩)) ∧ S.apply (.join 1 0) = .ok (S, false) := by
  obtain ⟨S, hS, hop⟩ : ∃ S, newStateMachine.apply (.join 1 0) = .ok (S, true) ∧
      Client.start ⟨1, 0⟩ S 0 ⟨[7]⟩ = .ok (.start 1 0 (some ⟨[7]⟩)) := ⟨_, rfl, rfl⟩
  have ha : Makes plainEnv ⟨1, 0⟩ newStateMachine (.join 1 0) := .prepare none rfl
  have hb : Makes plainEnv ⟨1, 0⟩ S (.start 1 0 (some ⟨[7]⟩)) := .start ⟨[7]⟩ (Or.inl rfl) hop
  obtain ⟨S', hrun, hS'⟩ := eliminated_of_older (Leads.refl _) (Leads.of_step hS) ha hb (by decide)
    (by decide) []
  cases hrun
  exact ⟨S, hS, ha, hb, hS'⟩

end EggScrambler
