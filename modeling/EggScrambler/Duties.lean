import Mathlib
import EggScrambler.Progress
import EggScrambler.Robust

/-!
# What a client does for its round

`Progress.lean` says whose turn it is in a round.  Here it is shown that the loop of `readUpdates`
does its part: a client that has read a state in which it is its turn, and was active then, has
started a goroutine whose operation that state accepts (`HonestWorld.exists_advances`).

The difficulty is what the loop does only once per round.  The message may have been asked for, and
the scramble started, when an earlier update was read; `Session.Asked` and `Session.Worked` say that
the goroutine is there all the same, and `HonestWorld.fresh` that the question for a message is
asked while the message is missing.
-/

namespace EggScrambler

open StateMachine Transition

/-- The goroutine of a stage. -/
def Stage.task (st : Stage) (r : ℤ) (ri : RoundInfo) (me : ℕ) (keys : Keys) : Task :=
  match st with
  | .encrypt => .encrypt r ri me keys.encryptKey
  | .scramble => .scramble r ri me keys.scrambleKey keys.revealKey
  | .decrypt => .decrypt r ri me keys.scrambleKey keys.encryptKey

/-- The update asks the client, with the index `me`, to work at the stage `st`. -/
structure Duty (c : Client) (x : Read) (st : Stage) (me : ℕ) : Prop where
  phase : x.sm.currentRoundInfo.phase = st.phase
  business : c.business x.active x.sm = some me
  turn : st = .scramble → me = x.sm.currentRoundInfo.numScrambled

/-! ## One turn -/

section Turn

variable {env : Env} {c : Client} {active : Bool} {draws : Draws} {rd : Reader} {v : StateMachine}
  {a : Reaction}

theorem Reader.submitOnce_cases (rd : Reader) (v : StateMachine) (me : ℕ) :
    ((rd.submitOnce v me).reader.lastMessageRound = v.round ∧
        ∃ t ∈ (rd.submitOnce v me).tasks, t.submitRound = some v.round) ∨
      (rd.submitOnce v me).reader.lastMessageRound = rd.lastMessageRound ∧
        v.round ≤ rd.lastMessageRound := by
  unfold submitOnce
  split_ifs with hlt
  · exact Or.inl ⟨rfl, _, List.mem_singleton_self _, rfl⟩
  · exact Or.inr ⟨rfl, not_lt.1 hlt⟩

/-- The loop asks for a message, unless it has asked or there is no reason to. -/
theorem Reads.asks (h : Reads env c active draws rd v a) :
    (a.reader.lastMessageRound = v.round ∧ ∃ t ∈ a.tasks, t.submitRound = some v.round) ∨
      a.reader.lastMessageRound = rd.lastMessageRound ∧
        (v.currentRoundInfo.phase = .submit → ∀ me mo, c.business active v = some me →
          v.currentRoundInfo.crypto = some mo → mo.verify env (c.messageSize + 16) = .ok () →
            v.round ≤ rd.lastMessageRound) := by
  have hother : ∀ {ph : Phase}, v.currentRoundInfo.phase = ph → ph ≠ .submit →
      v.currentRoundInfo.phase = .submit → ∀ me mo, c.business active v = some me →
        v.currentRoundInfo.crypto = some mo → mo.verify env (c.messageSize + 16) = .ok () →
          v.round ≤ rd.lastMessageRound :=
    fun hph hne hsub _ _ _ _ _ => absurd (hph.symm.trans hsub) hne
  cases h with
  | idle hph hidle =>
    refine Or.inr ⟨rfl, fun hsub me mo hme _ _ => ?_⟩
    rcases hidle (by simp [Phase.Live, hsub]) with hno | ⟨hscr, -⟩
    · rw [hno] at hme
      cases hme
    · rw [hsub] at hscr
      cases hscr
  | refuse hph hme hmo => exact Or.inr ⟨rfl, fun _ _ mo _ hcr hver => absurd hver (hmo mo hcr)⟩
  | generate hph hme hlast hmo hv hk =>
    exact (Reader.submitOnce_cases _ v _).imp_right fun h => ⟨h.1, fun _ _ _ _ _ _ => h.2⟩
  | submit hph hme hlast =>
    exact (Reader.submitOnce_cases _ v _).imp_right fun h => ⟨h.1, fun _ _ _ _ _ _ => h.2⟩
  | reveal hph hme => exact Or.inr ⟨by rw [Reader.remember_frame], hother hph (by decide)⟩
  | result hph | prepare hph | encrypt hph | scramble hph | decrypt hph =>
    exact Or.inr ⟨rfl, hother hph (by decide)⟩

/-- The loop starts the goroutine of a stage, unless it has scrambled in this round. -/
theorem Reads.works (h : Reads env c active draws rd v a) {st : Stage} {me : ℕ}
    (hd : Duty c ⟨v, active⟩ st me) :
    (∃ keys, st.task v.round v.currentRoundInfo me keys ∈ a.tasks) ∨
      st = .scramble ∧ v.round ≤ rd.lastScrambledRound := by
  have hph : v.currentRoundInfo.phase = st.phase := hd.phase
  have hme : c.business active v = some me := hd.business
  have hsame : ∀ {me'}, c.business active v = some me' → me' = me :=
    fun hme' => Option.some.inj (hme'.symm.trans hme)
  cases h with
  | result hph' | prepare hph' | refuse hph' | generate hph' | submit hph' | reveal hph' =>
    rw [hph'] at hph
    cases st <;> cases hph
  | idle hne hidle =>
    refine Or.inr ?_
    rcases hidle (by cases st <;> simp [Phase.Live, hph, Stage.phase]) with
      hno | ⟨hscr, hle | hturn⟩
    · rw [hno] at hme
      cases hme
    · refine ⟨?_, hle⟩
      rw [hscr] at hph
      cases st <;> first | rfl | cases hph
    · have hst : st = .scramble := by
        rw [hscr] at hph
        cases st <;> first | rfl | cases hph
      exact absurd (hme.trans (congrArg some (hd.turn hst))) hturn
  | encrypt hph' hme' =>
    rw [hph'] at hph
    obtain rfl := hsame hme'
    cases st <;> cases hph
    exact Or.inl ⟨rd.keys, List.mem_singleton_self _⟩
  | scramble hph' hme' =>
    rw [hph'] at hph
    obtain rfl := hsame hme'
    cases st <;> cases hph
    exact Or.inl ⟨rd.keys, List.mem_singleton_self _⟩
  | decrypt hph' hme' =>
    rw [hph'] at hph
    obtain rfl := hsame hme'
    cases st <;> cases hph
    exact Or.inl ⟨rd.keys, List.mem_singleton_self _⟩

/-- It scrambles only in its turn. -/
theorem Reads.duty_of_scramble (h : Reads env c active draws rd v a) {t : Task} (ht : t ∈ a.tasks)
    {r : ℤ} (hr : t.scrambleRound = some r) : ∃ me keys, Duty c ⟨v, active⟩ .scramble me ∧
      t = Stage.scramble.task v.round v.currentRoundInfo me keys := by
  cases h with
  | result hph hp hlast =>
    rcases List.mem_cons.1 ht with rfl | ht
    · cases hr
    · obtain ⟨me, rfl⟩ := hp t ht
      cases hr
  | prepare hph hp hlast =>
    obtain ⟨me, rfl⟩ := hp t ht
    cases hr
  | idle => cases ht
  | generate | submit =>
    rw [Reader.eq_of_mem_submitOnce ht] at hr
    cases hr
  | scramble hph hme hlast hturn =>
    exact ⟨_, rd.keys, ⟨hph, hme, fun _ => hturn⟩, List.mem_singleton.1 ht⟩
  | _ =>
    rw [List.mem_singleton.1 ht] at hr
    cases hr

theorem Reads.reveals (h : Reads env c active draws rd v a) {me : ℕ}
    (hme : c.business active v = some me) (hph : v.currentRoundInfo.phase = .reveal) :
    ∃ key, .reveal v.round v.currentRoundInfo me key ∈ a.tasks := by
  cases h with
  | reveal _ hme' =>
    rw [hme] at hme'
    cases hme'
    exact ⟨_, List.mem_singleton_self _⟩
  | idle _ hidle =>
    rcases hidle (by simp [Phase.Live, hph]) with hno | ⟨hscr, -⟩
    · rw [hno] at hme
      cases hme
    · rw [hph] at hscr
      cases hscr
  | result hph' | prepare hph' | refuse hph' | generate hph' | submit hph' | encrypt hph'
  | scramble hph' | decrypt hph' =>
    rw [hph] at hph'
    cases hph'

end Turn

/-! ## Whole sessions -/

section Session

variable {env : Env} {c : Client} {s : Session} {v : StateMachine} {active : Bool} {draws : Draws}
  {a : Reaction}

/-- The client was asked for a message in every round in which there was reason to. -/
structure Session.Asked (env : Env) (c : Client) (s : Session) : Prop where
  le : s.reader.lastMessageRound ≤ s.reader.lastSm.round
  last : 0 ≤ s.reader.lastMessageRound → s.Submits s.reader.lastMessageRound
  submits : ∀ x ∈ s.reads, ∀ me mo, x.sm.currentRoundInfo.phase = .submit →
    c.business x.active x.sm = some me → x.sm.currentRoundInfo.crypto = some mo →
    mo.verify env (c.messageSize + 16) = .ok () → s.Submits x.sm.round

/-- An update that gives reason to ask for a message has the client asked in this round. -/
theorem Session.Asked.read (h : s.Asked env c) (hv : s.Next v)
    (ha : Reads env c active draws s.reader v a) : (s.react ⟨v, active⟩ a).Asked env c := by
  have hle := h.le
  have hround := hv.follows.round_le
  have hmono : ∀ {r}, s.Submits r → (s.react ⟨v, active⟩ a).Submits r := fun hs =>
    hs.mono (List.subset_append_right _ _)
  rcases ha.asks with ⟨hlast, t, ht, hr⟩ | ⟨hlast, hasked⟩
  · have hnew : (s.react ⟨v, active⟩ a).Submits v.round := ⟨t, List.mem_append_left _ ht, hr⟩
    refine ⟨?_, fun _ => ?_, fun x hx me mo hph hme hmo hver => ?_⟩
    · rw [Session.reader_react, ha.lastSm, hlast]
    · rw [Session.reader_react, hlast]
      exact hnew
    · rcases List.mem_cons.1 hx with rfl | hx
      · exact hnew
      · exact hmono (h.submits x hx me mo hph hme hmo hver)
  · refine ⟨?_, fun h₀ => ?_, fun x hx me mo hph hme hmo hver => ?_⟩
    · rw [Session.reader_react, ha.lastSm, hlast]
      omega
    · rw [Session.reader_react, hlast] at h₀ ⊢
      exact hmono (h.last h₀)
    · rcases List.mem_cons.1 hx with rfl | hx
      · have hge := hasked hph me mo hme hmo hver
        have h₀ := hv.view.inv.round_nonneg
        have heq : s.reader.lastMessageRound = v.round := by omega
        exact hmono (heq ▸ h.last (by omega))
      · exact hmono (h.submits x hx me mo hph hme hmo hver)

theorem Session.Asked.of_reachable {w : World} (h : World.Reachable env c w) :
    w.session.Asked env c := by
  refine World.session_induction ⟨by decide, fun h₀ => absurd h₀ (by decide), by simp⟩
    (fun _ _ _ _ _ hs hv ha => hs.read hv ha) (fun s active leaving stored hs => ?_) h
  have hmono : ∀ {r}, s.Submits r → (s.configure c active leaving stored).Submits r := fun hr =>
    hr.mono (List.subset_append_right _ _)
  exact ⟨hs.le, fun h₀ => hmono (hs.last h₀),
    fun x hx me mo hph hme hmo hver => hmono (hs.submits x hx me mo hph hme hmo hver)⟩

/-- The client has started a goroutine for every update that asked it to. -/
structure Session.Worked (c : Client) (s : Session) : Prop where
  scrambles : ∀ t ∈ s.tasks, ∀ r, t.scrambleRound = some r → ∃ x ∈ s.reads, ∃ me keys,
    Duty c x .scramble me ∧ t = Stage.scramble.task x.sm.round x.sm.currentRoundInfo me keys
  works : ∀ x ∈ s.reads, ∀ st me, Duty c x st me →
    ∃ keys, Stage.task st x.sm.round x.sm.currentRoundInfo me keys ∈ s.tasks
  reveals : ∀ x ∈ s.reads, ∀ me, c.business x.active x.sm = some me →
    x.sm.currentRoundInfo.phase = .reveal →
    ∃ key, .reveal x.sm.round x.sm.currentRoundInfo me key ∈ s.tasks

/-- There is one state of a round in which it is the client's turn to scramble. -/
theorem Duty.currentRoundInfo_eq {x y : Read} {me me' : ℕ} (hx : Duty c x .scramble me)
    (hy : Duty c y .scramble me') (hf : Follows x.sm y.sm) (hr : y.sm.round = x.sm.round)
    (h₀ : 0 ≤ y.sm.round) :
    y.sm.currentRoundInfo = x.sm.currentRoundInfo ∧ me' = me := by
  have hlater := hf.later_of_round_eq h₀ hr
  have hparts := (hlater.fixed (by rw [hx.phase]; decide)).1
  have hme : me' = me := by
    have hmx := Client.me_of_business hx.business
    have hmy := Client.me_of_business hy.business
    rw [Client.me, hparts] at hmy
    exact Option.some.inj (hmy.symm.trans hmx)
  refine ⟨(hlater.ticket .scramble hx.phase hy.phase).2 ?_, hme⟩
  exact (hx.turn rfl).symm.trans (hme.symm.trans (hy.turn rfl))

/-- An update that asks for work starts a goroutine for it. -/
theorem Session.Worked.read (h : s.Worked c) (hc : Counts s) (ho : Ordered s) (hv : s.Next v)
    (ha : Reads env c active draws s.reader v a) : (s.react ⟨v, active⟩ a).Worked c where
  scrambles t ht r hr := by
    rcases List.mem_append.1 ht with ht | ht
    · exact ⟨_, List.mem_cons_self, ha.duty_of_scramble ht hr⟩
    · obtain ⟨x, hx, hduty⟩ := h.scrambles t ht r hr
      exact ⟨x, List.mem_cons_of_mem _ hx, hduty⟩
  works x hx st me hd := by
    rcases List.mem_cons.1 hx with rfl | hx
    · rcases ha.works hd with ⟨keys, hk⟩ | ⟨rfl, hle⟩
      · exact ⟨keys, List.mem_append_left _ hk⟩
      · -- it has scrambled in this round: that was from an update that shows the same
        have hbound := hc.le
        have hround := hv.follows.round_le
        have h₀ := hv.view.inv.round_nonneg
        have hlast : s.reader.lastScrambledRound = v.round := by omega
        obtain ⟨t, ht, hr⟩ := hc.scrambled (by omega)
        obtain ⟨y, hy, me', keys, hdy, rfl⟩ := h.scrambles t ht _ hr
        have hyr : y.sm.round = v.round := (Option.some.inj hr).trans hlast
        have hf : Follows y.sm v := (ho.last y hy).trans hv.inv_last.round_nonneg hv.follows
        obtain ⟨hri, rfl⟩ := hdy.currentRoundInfo_eq hd hf hyr.symm h₀
        refine ⟨keys, List.mem_append_right _ ?_⟩
        dsimp only at hri ⊢
        rw [hri, ← hyr]
        exact ht
    · obtain ⟨keys, hk⟩ := h.works x hx st me hd
      exact ⟨keys, List.mem_append_right _ hk⟩
  reveals x hx me hme hph := by
    rcases List.mem_cons.1 hx with rfl | hx
    · obtain ⟨key, hk⟩ := ha.reveals hme hph
      exact ⟨key, List.mem_append_left _ hk⟩
    · obtain ⟨key, hk⟩ := h.reveals x hx me hme hph
      exact ⟨key, List.mem_append_right _ hk⟩

theorem Session.Worked.of_reachable {w : World} (h : World.Reachable env c w) :
    w.session.Worked c := by
  refine World.session_induction_of (Q := fun s => Counts s ∧ Ordered s)
    (fun hw => ⟨hw.reports.1, hw.reports.2.2.1⟩) ⟨by simp, by simp, by simp⟩
    (fun _ _ _ _ _ hq hs hv ha => hs.read hq.1 hq.2 hv ha) (fun s active leaving stored hs => ?_) h
  refine ⟨fun t ht r hr => hs.scrambles t ?_ r hr, fun x hx st me hd => ?_,
    fun x hx me hme hph => ?_⟩
  · exact Session.mem_of_mem_configure (fun _ _ => rfl) ht hr
  · obtain ⟨keys, hk⟩ := hs.works x hx st me hd
    exact ⟨keys, List.mem_append_right _ hk⟩
  · obtain ⟨key, hk⟩ := hs.reveals x hx me hme hph
    exact ⟨key, List.mem_append_right _ hk⟩

end Session

/-! ## The operation that is needed -/

section Advances

variable {plan : Plan} {env : Env} {c : Client} {hist : List StateMachine} {w : World}
  {S : StateMachine} {p : ℕ}

/-- The user is asked for a message while it is missing. -/
theorem HonestWorld.fresh (hexact : env.Exact) (h : HonestWorld plan env c hist w) :
    ∀ r ri me ek rk, .submit r ri me ek rk ∈ w.session.tasks →
      ∃ m, ri.messages[me]? = some m ∧ m.isNil = true := by
  induction h with
  | init => simp
  | @commit hist w w' op b h hop hown hs ih =>
    have hsess : w'.session = w.session := by cases Steps.of_step hs <;> rfl
    rw [hsess]
    exact ih
  | @other hist w w' act b h hact hs ih =>
    intro r ri me ek rk ht
    cases Steps.of_step hs with
    | @read active leaving draws v ch a hch ha =>
      rcases List.mem_append.1 ht with ht | ht
      · obtain ⟨hph, hme, hri, hlt⟩ : v.currentRoundInfo.phase = .submit ∧
            c.business active v = some me ∧ ri = v.currentRoundInfo ∧
            w.session.reader.lastMessageRound < v.round := by
          cases ha with
          | generate hph hme | submit hph hme =>
            have heq := Reader.eq_of_mem_submitOnce ht
            injection heq with _ hri hmes
            unfold Reader.submitOnce at ht
            split_ifs at ht with hlt
            · exact ⟨hph, hmes ▸ hme, hri, hlt⟩
            · cases ht
          | result hph hp =>
            rcases List.mem_cons.1 ht with ht | ht
            · cases ht
            · obtain ⟨_, ht⟩ := hp _ ht
              cases ht
          | prepare hph hp =>
            obtain ⟨_, ht⟩ := hp _ ht
            cases ht
          | idle => cases ht
          | _ => cases List.mem_singleton.1 ht
        subst hri
        have hv := h.mem_of_mem_updates hexact v (by simp [World.updates, hch])
        have hview := (Delivered.of_reachable h.reachable).next hch
        have hid := (Client.foldl_zipIdx _).1 me (Client.me_of_business hme)
        have hmlt : me < v.currentRoundInfo.messages.length := by
          rw [hview.view.length_messages]
          exact (List.getElem?_eq_some_iff.1 hid).1
        refine ⟨_, List.getElem?_eq_getElem hmlt, ?_⟩
        -- if the message were there, the client would have been asked for it
        by_contra hnil
        have hsub := (h.spoken v hv _ _
          (getRoundInfo_currentRoundInfo hview.view.inv.round_nonneg)).message hph me _ hid
          (List.getElem?_eq_getElem hmlt) (by simpa using hnil)
        obtain ⟨t, ht', hr⟩ := hsub
        have hle := (Acts.of_reachable h.reachable).submits.le _ (List.mem_filterMap.2 ⟨t, ht', hr⟩)
        omega
      · exact ih r ri me ek rk ht
    | configure active leaving stored =>
      rcases List.mem_append.1 ht with ht | ht
      · obtain ⟨_, ht⟩ := Reader.eq_of_mem_prepares ht
        cases ht
      · exact ih r ri me ek rk ht
    | commit => exact absurd rfl (hact _)
    | unseen => exact absurd rfl (hact _)
    | _ => exact ih r ri me ek rk ht

/-- An operation of client `c` that takes the current round of `S` further. -/
structure Advances (c : Client) (S : StateMachine) (op : Op) : Prop where
  round : op.round = S.round
  id : op.id = some c.id
  type : op.type ∈ roundTypes
  accepts : ∃ ri, Accepts S.currentRoundInfo op ri

theorem Stage.exists_of_task_op {st : Stage} {r : ℤ} {ri : RoundInfo} {me : ℕ} {keys : Keys}
    {chance : Chance} (h : Runs ((st.task r ri me keys).op env c chance))
    (hf : (st.flags ri)[me]? = some false) : ∃ messages,
      (st.task r ri me keys).op env c chance =
        .ok (some (st.op c.id r messages (numTrue (st.flags ri)))) := by
  obtain ⟨ms, hms⟩ : ∃ ms, (st.task r ri me keys).op env c chance = c.offer st r ri me ms := by
    cases st <;> exact ⟨_, rfl⟩
  rw [hms] at h ⊢
  obtain ⟨o, ho⟩ := h
  obtain ⟨raised, hr, h⟩ := bind_eq_ok_iff.1 ho
  obtain rfl : false = raised := Option.some.inj (hf.symm.trans (getAt_eq_ok_iff.1 hr))
  obtain ⟨messages, hm, -⟩ := bind_eq_ok_iff.1 h
  exact ⟨messages, Client.offer_eq_some_iff.2 ⟨hf, messages, hm, rfl⟩⟩

theorem Client.exists_of_submit {r : ℤ} {ri : RoundInfo} {me : ℕ} {ek rk : PrivateKey}
    {msg : Bytes} {r₁ r₂ : Nonce} (h : Runs (c.submit env r ri me ek rk msg r₁ r₂)) {m : Msg}
    (hm : ri.messages[me]? = some m) (hnil : m.isNil = true) :
    ∃ op, c.submit env r ri me ek rk msg r₁ r₂ = .ok (some op) := by
  obtain ⟨o, ho⟩ := h
  have hsub := ho
  obtain ⟨m', hm', ho⟩ := bind_eq_ok_iff.1 ho
  obtain rfl : m = m' := Option.some.inj (hm.symm.trans (getAt_eq_ok_iff.1 hm'))
  rw [if_pos hnil] at ho
  obtain ⟨_, -, ho⟩ := bind_eq_ok_iff.1 ho
  obtain ⟨_, -, ho⟩ := bind_eq_ok_iff.1 ho
  cases ho
  exact ⟨_, hsub⟩

/-- **A client does its part.** If it has read, while it was active, a state in which it is its
turn, then one of its goroutines sends an operation that this state accepts, whatever it gets from
the user and from chance. -/
theorem HonestWorld.exists_advances (hexact : env.Exact) (h : HonestWorld plan env c hist w)
    (hruns : w.session.Calm env c)
    (hx : ⟨S, true⟩ ∈ w.session.reads) (hme : c.me S.currentRoundInfo = some p)
    (hturn : Turn S.currentRoundInfo p)
    (hver : ∀ mo, S.currentRoundInfo.crypto = some mo →
      mo.verify env (c.messageSize + 16) = .ok ())
    (hmo : S.currentRoundInfo.crypto ≠ none) :
    ∃ t ∈ w.session.tasks, ∀ chance, ∃ op, t.op env c chance = .ok (some op) ∧
      Advances c S op := by
  have hS : IsView S := h.reachable.reports.2.2.1.views _ hx
  have hI := hS.inv.current
  have hbusiness : c.business true S = some p := hme
  have hindex : S.currentRoundInfo.participantIndex c.id = some p :=
    (Client.me_eq_participantIndex hI.nodup).symm.trans hme
  have hlt := RoundInfo.participantIndex_lt hindex
  have hworked := Session.Worked.of_reachable h.reachable
  cases hturn with
  | submit hph hm hnil =>
    obtain ⟨mo, hmo⟩ := Option.ne_none_iff_exists'.1 hmo
    obtain ⟨t, ht, hr⟩ := (Session.Asked.of_reachable h.reachable).submits _ hx p mo hph hbusiness
      hmo (hver mo hmo)
    cases t with
    | submit r ri me ek rk =>
      cases hr
      obtain ⟨m', hm', hnil'⟩ := h.fresh hexact _ _ _ _ _ ht
      refine ⟨_, ht, fun chance => ?_⟩
      obtain ⟨op, hop⟩ := Client.exists_of_submit (hruns _ ht rfl chance) hm' hnil'
      obtain ⟨m, hash, rfl⟩ := Client.eq_message_of_submit hop
      refine ⟨_, hop, rfl, rfl, by simp [roundTypes, Op.type], _, .message hph hindex ?_ ?_⟩
      · rwa [hS.length_messages]
      · rwa [hI.hashes_length]
    | _ => cases hr
  | work st hph hf hturn =>
    obtain ⟨keys, hk⟩ := hworked.works _ hx st p ⟨hph, hbusiness, hturn⟩
    refine ⟨_, hk, fun chance => ?_⟩
    obtain ⟨messages, hop⟩ := Stage.exists_of_task_op
      (hruns _ hk (by cases st <;> rfl) chance) hf
    refine ⟨_, hop, ⟨st.round_op .., ?_, ?_, _, .transform st _ hph hindex ?_ hf⟩⟩
    · cases st <;> rfl
    · cases st <;> simp [roundTypes, Op.type, Stage.op]
    · cases st with
      | scramble => exact congrArg _ (hturn rfl).symm
      | _ => rfl
  | reveal hph hkey hnil =>
    obtain ⟨key, hk⟩ := hworked.reveals _ hx p hbusiness hph
    refine ⟨_, hk, fun chance => ⟨_, Client.reveal_eq_some_iff.2 ⟨⟨_, hkey, hnil⟩, rfl⟩, rfl, rfl,
      by simp [roundTypes, Op.type], _, .reveal hph hindex ?_⟩⟩
    rwa [hI.keys_length]

end Advances

end EggScrambler
