import Mathlib
import EggScrambler.Lib.Permute
import EggScrambler.Alike

/-!
# One shuffle hides who wrote what

Two honest rounds with the same participants, crypto and keys, in which the plaintexts are the same
but for who sends which, run under the same schedule.  Whatever participant `j` is, its shuffle can
be chosen in the second round such that the messages of the two rounds are the same as soon as `j`
has scrambled (`authorship_erased`).

A schedule is a list of `Commit`s: which client built the operation that is committed next, and from
which earlier state of the round.  So operations may be delayed, repeated or lost; `Setup.play` is
the round that results, and every honest round without an abort is one (`exists_play`).

`Twin` says of the states of two plays that they match one by one.  One commit keeps that
(`Twin.commit`) if the list that `j` sends is the same in both rounds.  When `j` scrambles, a
shuffle makes it the same (`Twin.exists_shuffle`), since the two lists are rearrangements of each
other; at any other time the shuffle of `j` does not matter (`Twin.commit_reshuffle`).
-/

namespace EggScrambler

open StateMachine Transition ExpCipher Permute

/-- `rand.Shuffle` permutes positions. -/
def Shuffle.ofPerm {n : ℕ} (σ : Equiv.Perm (Fin n)) : Shuffle := ⟨permute σ, permute_perm σ⟩

/-! ## Plays -/

/-- What is committed next: an operation that `client` built from the state that was the current one
`built` commits ago. -/
structure Commit where
  client : Client
  built : ℕ
  shuffle : Shuffle

/-- Participant `j` shuffles in another way. -/
def Commit.reshuffle (j : UUID) (shuffle : Shuffle) (e : Commit) : Commit :=
  if e.client.id = j then { e with shuffle } else e

namespace Commit

variable (e : Commit)

theorem client_reshuffle (j : UUID) (sh : Shuffle) : (e.reshuffle j sh).client = e.client := by
  unfold reshuffle
  split_ifs <;> rfl

theorem built_reshuffle (j : UUID) (sh : Shuffle) : (e.reshuffle j sh).built = e.built := by
  unfold reshuffle
  split_ifs <;> rfl

theorem shuffle_reshuffle {j : UUID} (sh : Shuffle) (h : e.client.id ≠ j) :
    (e.reshuffle j sh).shuffle = e.shuffle := by
  rw [reshuffle, if_neg h]

end Commit

namespace Setup

variable (s : Setup) (env : Env) (r : ℤ)

/-- The operation of round `r` that is committed, if there is one. -/
def committed (hist : List StateMachine) (e : Commit) : Option Op :=
  (hist[e.built]?).bind fun S =>
    if S.round = r then s.act env e.shuffle e.client S else none

/-- One commit; `hist` are the states of the round, newest first. -/
def commit : List StateMachine → Commit → Go (List StateMachine × Bool)
  | [], _ => .ok ([], false)
  | sm :: hist, e =>
    match s.committed env r (sm :: hist) e with
    | none => .ok (sm :: hist, false)
    | some op => do
      let (sm', updated) ← sm.apply op
      return (sm' :: sm :: hist, updated)

/-- The states of the round under a schedule. -/
def play (sm : StateMachine) (commits : List Commit) : Go (List StateMachine) :=
  run (s.commit env r) [sm] commits

end Setup

/-! ## Two rounds under one schedule -/

/-- `a` is round `r` of `sm`: it has been started, and goes on or is done. -/
structure Shows (sm : StateMachine) (r : ℤ) (a : RoundInfo) : Prop where
  info : sm.getRoundInfo r = .ok a
  started : 1 ≤ phaseOrder a.phase
  not_failed : a.phase ≠ .failed
  round : sm.round = r ↔ a.phase ≠ .done

namespace Shows

variable {sm : StateMachine} {r : ℤ} {a a' : RoundInfo} {op : Op}

theorem current (h : Shows sm r a) (hr : sm.round = r) : sm.currentRoundInfo = a := by
  subst hr
  have h₀ := (getRoundInfo_eq_ok_iff.1 h.info).1
  exact Except.ok.inj ((getRoundInfo_currentRoundInfo h₀).symm.trans h.info)

theorem advance (h : Shows sm r a) (hr : sm.round = r) (ha : Accepts a op a')
    (hfail : a'.phase ≠ .failed) : Shows (sm.advance a') r a' where
  info := by
    subst hr
    exact getRoundInfo_advance_self (getRoundInfo_eq_ok_iff.1 h.info).1
  started := h.started.trans ha.later.order
  not_failed := hfail
  round := by
    by_cases hdone : a'.phase = .done
    · rw [advance_finished (Or.inl hdone), round_nextRound, round_setCurrent]
      simp [hdone, hr]
    · rw [advance_unfinished (not_or.2 ⟨hdone, hfail⟩), round_setCurrent]
      simp [hdone, hr]

end Shows

/-- Two states whose rounds `r₁` and `r₂` are alike. -/
def Matched (mo : Crypto) (r₁ r₂ : ℤ) (ids : List UUID) (j : UUID) (T₁ T₂ : StateMachine) : Prop :=
  ∃ a b, Shows T₁ r₁ a ∧ Shows T₂ r₂ b ∧ Alike j a b ∧ a.participants = ids ∧ a.crypto = some mo

/-- The states of two honest runs, newest first, match one by one. -/
structure Twin (s₁ s₂ : Setup) (env : Env) (mo : Crypto) (r₁ r₂ : ℤ) (ids : List UUID) (j : UUID)
    (hist₁ hist₂ : List StateMachine) : Prop where
  matched : List.Forall₂ (Matched mo r₁ r₂ ids j) hist₁ hist₂
  honest₁ : ∃ past, HonestRun (s₁.conduct env) (hist₁ ++ past)
  honest₂ : ∃ past, HonestRun (s₂.conduct env) (hist₂ ++ past)

section Matched

variable {s₁ s₂ : Setup} {env : Env} {mo : Crypto} {r₁ r₂ : ℤ} {ids : List UUID} {j : UUID}
  {S₁ S₂ T₁ T₂ T₁' T₂' : StateMachine} {hist₁ hist₂ : List StateMachine} {c : Client}
  {sh₁ sh₂ : Shuffle} {op₁ op₂ : Op} {a₀ b₀ : RoundInfo}

theorem Matched.symm (h : Matched mo r₁ r₂ ids j T₁ T₂) : Matched mo r₂ r₁ ids j T₂ T₁ := by
  obtain ⟨a, b, ha, hb, hab, hids, hmo⟩ := h
  exact ⟨b, a, hb, ha, hab.symm, hab.participants.trans hids, hab.crypto.trans hmo⟩

theorem Matched.round_iff (h : Matched mo r₁ r₂ ids j T₁ T₂) : T₁.round = r₁ ↔ T₂.round = r₂ := by
  obtain ⟨a, b, ha, hb, hab, -⟩ := h
  rw [ha.round, hb.round, hab.phase]

theorem Matched.accepts (h : Matched mo r₁ r₂ ids j T₁ T₂) (hI : Inv T₂)
    (hc : Counterpart s₁ s₂ env mo r₁ r₂ c sh₁ sh₂ a₀ b₀ op₁ op₂)
    (hap : T₁.apply op₁ = .ok (T₁', true)) : ∃ T₂', T₂.apply op₂ = .ok (T₂', true) := by
  obtain ⟨hr, a', hacc, -⟩ := apply_true_iff.1 hap
  rw [hc.round.1] at hr
  have hr₂ := h.round_iff.1 hr.symm
  obtain ⟨a, b, ha, hb, hab, -⟩ := h
  rw [ha.current hr.symm] at hacc
  have hcur := hb.current hr₂
  obtain ⟨b', hb'⟩ := hc.accepts hab (hcur ▸ hI.current) hacc
  exact ⟨_, apply_of_accepts (hc.round.2.trans hr₂.symm) (hcur.symm ▸ hb')⟩

/-- Whether a list is accepted does not depend on it. -/
theorem Matched.scrambled (h : Matched mo r₁ r₂ ids j T₁ T₂) {id : UUID} {ms₁ : List Msg}
    (hap : T₁.apply (.scrambled id r₁ ms₁) = .ok (T₁', true)) (ms₂ : List Msg) :
    ∃ T₂', T₂.apply (.scrambled id r₂ ms₂) = .ok (T₂', true) := by
  obtain ⟨hr, a', hacc, -⟩ := apply_true_iff.1 hap
  obtain ⟨hph, p, hp, hn, hf, -⟩ := Accepts.of_op .scramble 0 hacc
  have hr₂ := h.round_iff.1 hr.symm
  obtain ⟨a, b, ha, hb, hab, -⟩ := h
  obtain rfl := ha.current hr.symm
  obtain rfl := hb.current hr₂
  have hacc₂ : Accepts T₂.currentRoundInfo (.scrambled id r₂ ms₂) _ :=
    .transform .scramble 0 (hab.phase.trans hph) ((hab.participantIndex id).trans hp)
      (by rw [hab.flags]; exact hn) (by rw [hab.flags]; exact hf)
  exact ⟨_, apply_of_accepts hr₂.symm hacc₂⟩

theorem Matched.step (h : Matched mo r₁ r₂ ids j T₁ T₂) (hp : Permuted s₁ s₂ mo r₁ r₂ ids)
    (hI₁ : Inv T₁) (hI₂ : Inv T₂) (h₁ : HonestState s₁ env T₁') (h₂ : HonestState s₂ env T₂')
    (hc : Counterpart s₁ s₂ env mo r₁ r₂ c sh₁ sh₂ S₁.currentRoundInfo S₂.currentRoundInfo op₁ op₂)
    (hfresh₁ : ∀ st id r messages prev, op₁ = Stage.op st id r messages prev →
      T₁.currentRoundInfo = S₁.currentRoundInfo)
    (hfresh₂ : ∀ st id r messages prev, op₂ = Stage.op st id r messages prev →
      T₂.currentRoundInfo = S₂.currentRoundInfo)
    (hshuffle : c.id ≠ j → sh₂ = sh₁)
    (hj : ∀ ms₁ ms₂, op₁ = .scrambled j r₁ ms₁ → op₂ = .scrambled j r₂ ms₂ → ms₁ = ms₂)
    (hap₁ : T₁.apply op₁ = .ok (T₁', true)) (hap₂ : T₂.apply op₂ = .ok (T₂', true)) :
    Matched mo r₁ r₂ ids j T₁' T₂' := by
  obtain ⟨hr₁, a', ha', rfl⟩ := apply_true_iff.1 hap₁
  obtain ⟨hr₂, b', hb', rfl⟩ := apply_true_iff.1 hap₂
  rw [hc.round.1] at hr₁
  rw [hc.round.2] at hr₂
  obtain ⟨a, b, ha, hb, hab, rfl, hmo⟩ := h
  obtain rfl := ha.current hr₁.symm
  obtain rfl := hb.current hr₂.symm
  have ha'' := ha.advance hr₁.symm ha' (hc.not_failed ha')
  have hb'' := hb.advance hr₂.symm hb' (hc.symm.not_failed hb')
  have hab' := hc.alike hp.keys hab hI₁.current hI₂.current (h₁ _ _ ha''.info) (h₂ _ _ hb''.info)
    hfresh₁ hfresh₂ hshuffle hj ha' hb'
  obtain ⟨hparts, hcrypto⟩ := ha'.later.fixed ha.started
  exact ⟨a', b', ha'', hb'', hab', hparts, hcrypto.trans hmo⟩

end Matched

/-! ### One commit -/

namespace Setup

variable {s : Setup} {env : Env} {r : ℤ} {hist past : List StateMachine} {e : Commit} {op : Op}
  {S T : StateMachine}

/-- The commit `e` brings operation `op` of round `r`, which was built from `S`. -/
structure Built (s : Setup) (env : Env) (r : ℤ) (hist : List StateMachine) (e : Commit)
    (S : StateMachine) (op : Op) : Prop where
  state : hist[e.built]? = some S
  round : S.round = r
  act : s.act env e.shuffle e.client S = some op

theorem committed_eq_some_iff :
    s.committed env r hist e = some op ↔ ∃ S, s.Built env r hist e S op := by
  unfold committed
  rw [Option.bind_eq_some_iff]
  constructor
  · rintro ⟨S, hS, hact⟩
    split_ifs at hact with hr
    exact ⟨S, hS, hr, hact⟩
  · rintro ⟨S, hS, hr, hact⟩
    exact ⟨S, hS, by rwa [if_pos hr]⟩

theorem Built.mem (h : s.Built env r hist e S op) : S ∈ hist := List.mem_of_getElem? h.state

theorem Built.committed (h : s.Built env r hist e S op) : s.committed env r hist e = some op :=
  committed_eq_some_iff.2 ⟨S, h⟩

theorem commit_of_committed {T' : StateMachine} {b : Bool}
    (hop : s.committed env r (T :: hist) e = some op) (hap : T.apply op = .ok (T', b)) :
    s.commit env r (T :: hist) e = .ok (T' :: T :: hist, b) := by
  simp only [commit, hop, hap]
  rfl

theorem commit_of_not_committed (hop : s.committed env r (T :: hist) e = none) :
    s.commit env r (T :: hist) e = .ok (T :: hist, false) := by
  simp only [commit, hop]

/-- An operation that is committed is honest. -/
theorem Built.honestRun {T' : StateMachine} {b : Bool}
    (h : HonestRun (s.conduct env) (T :: hist ++ past)) (hop : s.Built env r (T :: hist) e S op)
    (hap : T.apply op = .ok (T', b)) : HonestRun (s.conduct env) (T' :: T :: hist ++ past) :=
  .next h (Conduct.act_honest (fun _ _ _ _ _ => submits_of_submit)
    (List.mem_append_left _ hop.mem) hop.act) hap

section Act

variable {shuffle : Shuffle} {c : Client} (hord : 1 ≤ phaseOrder S.currentRoundInfo.phase)
  (hact : s.act env shuffle c S = some op)

include hord hact

/-- A list operation that is accepted was built from the round as it is. -/
theorem fresh_of_act {T' : StateMachine} (hS : Inv S) (hl : Leads apply S T)
    (hap : T.apply op = .ok (T', true)) {st : Stage} {id : UUID} {messages : List Msg} {prev : ℤ}
    (hop : op = st.op id r messages prev) : T.currentRoundInfo = S.currentRoundInfo := by
  cases Conduct.Offers.of_act hord hact with
  | submit hph hme hsub =>
    obtain ⟨-, mo, -, rfl⟩ := submits_of_submit hsub
    cases st <;> cases hop
  | @work st' me mo keys hph hme hmo hk hturn hf =>
    cases st' with
    | encrypt =>
      have hb : Builds c S .encrypt _ := .encrypt keys.encryptKey (Or.inl rfl) hph hme
        ((Client.encrypt_eq_some_iff hmo).2 ⟨hf, rfl⟩)
      exact (hb.eq_of_accepted hS hl hap).2
    | scramble =>
      have hb : Builds c S .scramble _ := .scramble keys.scrambleKey keys.revealKey shuffle
        (Or.inl rfl) hph hme (hturn rfl) ((Client.scramble_eq_some_iff hmo).2 ⟨hf, rfl⟩)
      exact (hb.eq_of_accepted hS hl hap).2
    | decrypt =>
      have hb : Builds c S .decrypt _ := .decrypt keys.scrambleKey keys.encryptKey (Or.inl rfl)
        hph hme ((Client.decrypt_eq_some_iff hmo).2 ⟨hf, rfl⟩)
      exact (hb.eq_of_accepted hS hl hap).2
  | reveal => cases st <;> cases hop

/-- The shuffle matters for nothing but the list of a `ScrambledOp`. -/
theorem act_shuffle (shuffle' : Shuffle) : s.act env shuffle' c S = some op ∨ ∃ ms ms',
    op = .scrambled c.id S.round ms ∧
      s.act env shuffle' c S = some (.scrambled c.id S.round ms') := by
  cases Conduct.Offers.of_act hord hact with
  | submit hph hme hsub => exact Or.inl (Conduct.Offers.submit hph hme hsub).act_eq
  | @work st me mo keys hph hme hmo hk hturn hf =>
    have hoffer : (s.conduct env).Offers (s.submit env) shuffle' c S _ :=
      .work st hph hme hmo hk hturn hf
    cases st with
    | encrypt | decrypt => exact Or.inl hoffer.act_eq
    | scramble => exact Or.inr ⟨_, _, rfl, hoffer.act_eq⟩
  | reveal hph hme hmo hk hkey hnil =>
    exact Or.inl (Conduct.Offers.reveal hph hme hmo hk hkey hnil).act_eq

end Act

end Setup

/-! ### Every round is a play -/

section Play

variable {s : Setup} {env : Env} {hist past : List StateMachine} {S T X : StateMachine} {op : Op}

/-- A started round of an honest run is seen as it is. -/
theorem Seen.eq_of_started {ri : RoundInfo} (hs : Seen X ri) (hI : Inv X)
    (hX : HonestState s env X) (hord : 1 ≤ phaseOrder ri.phase) : ri = X.currentRoundInfo := by
  rw [hs.phase hI] at hord
  obtain ⟨mo, hL⟩ := hX.layered_current hI hord
  exact hs.eq_current hI hL.length

/-- An operation that takes effect in a started round without making it fail is what some client
builds from a state of the run. -/
theorem Honest.exists_act {ri ri' : RoundInfo} (hop : Honest (s.conduct env) hist op)
    (hhist : ∀ X ∈ hist, Inv X ∧ HonestState s env X) (ha : Accepts ri op ri')
    (hord : 1 ≤ phaseOrder ri.phase) (hfail : ri'.phase ≠ .failed) :
    ∃ X ∈ hist, X.round = op.round ∧ 1 ≤ phaseOrder X.currentRoundInfo.phase ∧
      ∃ c shuffle, s.act env shuffle c X = some op := by
  have hnil : Shuffle := ⟨id, List.Perm.refl⟩
  have hcur : ∀ {X ri}, X ∈ hist → Seen X ri → 1 ≤ phaseOrder ri.phase → ri = X.currentRoundInfo :=
    fun hX hs hord => hs.eq_of_started (hhist _ hX).1 (hhist _ hX).2 hord
  cases hop with
  | prepare hsm hs h =>
    unfold Client.prepare at h
    split_ifs at h
    cases h
    rw [ha.of_join.1] at hord
    exact absurd hord (by decide)
  | start hsm hmo h =>
    unfold Client.start at h
    split_ifs at h
    cases h
    rw [ha.of_start.1] at hord
    exact absurd hord (by decide)
  | @submit X ri c me op hsm hs hph hme h =>
    have hord' : 1 ≤ phaseOrder ri.phase := by rw [hph]; decide
    obtain rfl := hcur hsm hs hord'
    obtain ⟨⟨m, hm, hnull⟩, mo, hmo, rfl⟩ := h
    have hsubmit : s.submit env c X.round X.currentRoundInfo me =
        some (s.messageOp env mo c.id X.round) := by
      rw [Setup.submit, hm, Option.map_some, hnull, if_pos rfl, hmo]
      rfl
    exact ⟨X, hsm, rfl, hord', c, hnil, (Conduct.Offers.submit hph hme hsubmit).act_eq⟩
  | @encrypt X ri c me mo keys op hsm hs hph hme hmo hk h =>
    have hord' : 1 ≤ phaseOrder ri.phase := by rw [hph]; decide
    obtain rfl := hcur hsm hs hord'
    obtain ⟨hf, rfl⟩ := (Client.encrypt_eq_some_iff hmo).1 h
    exact ⟨X, hsm, rfl, hord', c, hnil,
      (Conduct.Offers.work .encrypt hph hme hmo hk (by simp) hf).act_eq⟩
  | @scramble X ri c me mo keys shuffle op hsm hs hph hme hturn hmo hk h =>
    have hord' : 1 ≤ phaseOrder ri.phase := by rw [hph]; decide
    obtain rfl := hcur hsm hs hord'
    obtain ⟨hf, rfl⟩ := (Client.scramble_eq_some_iff hmo).1 h
    exact ⟨X, hsm, rfl, hord', c, shuffle,
      (Conduct.Offers.work .scramble hph hme hmo hk (fun _ => hturn) hf).act_eq⟩
  | @decrypt X ri c me mo keys op hsm hs hph hme hmo hk h =>
    have hord' : 1 ≤ phaseOrder ri.phase := by rw [hph]; decide
    obtain rfl := hcur hsm hs hord'
    obtain ⟨hf, rfl⟩ := (Client.decrypt_eq_some_iff hmo).1 h
    exact ⟨X, hsm, rfl, hord', c, hnil,
      (Conduct.Offers.work .decrypt hph hme hmo hk (by simp) hf).act_eq⟩
  | @reveal X ri c me mo keys op hsm hs hph hme hmo hk h =>
    have hord' : 1 ≤ phaseOrder ri.phase := by rw [hph]; decide
    obtain rfl := hcur hsm hs hord'
    obtain ⟨⟨key, hkey, hnull⟩, rfl⟩ := Client.reveal_eq_some_iff.1 h
    exact ⟨X, hsm, rfl, hord', c, hnil,
      (Conduct.Offers.reveal hph hme hmo hk hkey hnull).act_eq⟩
  | abort r =>
    obtain rfl := ha.of_abort
    exact absurd rfl hfail

/-- **Every honest round without an abort is a play.** The run goes on from `S`, where the round has
just been started, up to the end of the round at most. -/
theorem exists_play (h : HonestRun (s.conduct env) (hist ++ S :: past))
    (hS : 1 ≤ phaseOrder S.currentRoundInfo.phase)
    (hpast : ∀ X ∈ past, X.round = S.round → X.currentRoundInfo.phase = .prepare)
    (hround : ∀ X ∈ hist.tail, X.round = S.round)
    (hfail : ∀ X ∈ hist, ∀ a, X.getRoundInfo S.round = .ok a → a.phase ≠ .failed) :
    ∃ commits T play, s.play env S.round S commits = .ok (T :: play) ∧
      (hist ++ [S]).head? = some T ∧ ∀ X ∈ hist ++ [S], X ∈ T :: play := by
  induction hist with
  | nil => exact ⟨[], S, [], rfl, rfl, fun X hX => hX⟩
  | cons T' hist ih =>
    obtain ⟨T, rest, hT⟩ : ∃ T rest, hist ++ S :: past = T :: rest :=
      List.exists_cons_of_ne_nil (by simp)
    rw [List.cons_append, hT] at h
    rcases h with _ | ⟨h', hop, hap⟩
    rw [← hT] at hop
    obtain ⟨commits, T₀, play, hplay, hhead, hall⟩ := ih (hT ▸ h')
      (fun X hX => hround X (List.mem_of_mem_tail hX))
      fun X hX => hfail X (List.mem_cons_of_mem _ hX)
    obtain rfl : T₀ = T := by
      have hhead' := congrArg List.head? hT
      rw [List.head?_append] at hhead hhead'
      exact Option.some.inj (hhead.symm.trans hhead')
    have hmem : T₀ ∈ hist ++ [S] := List.mem_of_mem_head? hhead
    have hTr : T₀.round = S.round := by
      rcases List.mem_append.1 hmem with hmem | hmem
      · exact hround T₀ hmem
      · rw [List.mem_singleton.1 hmem]
    rename_i op b
    cases b with
    | false =>
      rw [eq_of_apply_false hap]
      exact ⟨commits, T₀, play, hplay, rfl, List.forall_mem_cons.2 ⟨List.mem_cons_self, hall⟩⟩
    | true =>
      have hinv : ∀ X ∈ hist ++ S :: past, Inv X ∧ HonestState s env X := by
        rw [hT]
        exact fun X hX => ⟨Reachable.inv (h'.leads_of_mem hX), HonestRun.layered h' X hX⟩
      have hIS := (hinv S (by simp)).1
      have hl : Leads apply S T₀ := h'.leads (by rw [← hT]; simp)
      obtain ⟨hr, ri', ha, rfl⟩ := apply_true_iff.1 hap
      have hIT := hIS.of_leads hl
      have hlater := (Follows.of_leads hIS hl).later_of_round_eq hIT.round_nonneg hTr
      obtain ⟨X, hX, hXr, hXord, c, shuffle, hact⟩ := hop.exists_act hinv ha
        (hS.trans hlater.order) (hfail _ List.mem_cons_self ri'
          (hTr ▸ getRoundInfo_advance_self hIT.round_nonneg))
      -- the operation was built after the round had started
      have hXr' : X.round = S.round := hXr.trans (hr.trans hTr)
      have hXmem : X ∈ hist ++ [S] := by
        rcases List.mem_append.1 hX with hX | hX
        · exact List.mem_append_left _ hX
        · rcases List.mem_cons.1 hX with rfl | hX
          · simp
          · rw [hpast X hX hXr'] at hXord
            exact absurd hXord (by decide)
      obtain ⟨i, hi⟩ := List.mem_iff_getElem?.1 (hall X hXmem)
      have hb : s.Built env S.round (T₀ :: play) ⟨c, i, shuffle⟩ X op := ⟨hi, hXr', hact⟩
      refine ⟨commits ++ [⟨c, i, shuffle⟩], _, T₀ :: play, run_append_iff.2 ⟨_, hplay,
        run_cons_iff.2 ⟨_, Setup.commit_of_committed hb.committed hap, rfl⟩⟩, rfl,
        List.forall_mem_cons.2 ⟨List.mem_cons_self, fun X hX =>
          List.mem_cons_of_mem _ (hall X hX)⟩⟩

end Play

/-! ### Commits in two rounds -/

namespace Twin

variable {s₁ s₂ : Setup} {env : Env} {mo : Crypto} {r₁ r₂ : ℤ} {ids : List UUID} {j : UUID}
  {T₁ T₂ : StateMachine} {hist₁ hist₂ : List StateMachine} {e₁ e₂ : Commit} {op₁ : Op}

theorem symm (h : Twin s₁ s₂ env mo r₁ r₂ ids j hist₁ hist₂) :
    Twin s₂ s₁ env mo r₂ r₁ ids j hist₂ hist₁ where
  matched := (h.matched.imp fun _ _ hm => hm.symm).flip
  honest₁ := h.honest₂
  honest₂ := h.honest₁

theorem matched_getElem? (h : Twin s₁ s₂ env mo r₁ r₂ ids j hist₁ hist₂) {i : ℕ}
    (hi : hist₁[i]? = some T₁) : ∃ T₂, hist₂[i]? = some T₂ ∧ Matched mo r₁ r₂ ids j T₁ T₂ := by
  obtain ⟨hlen, hget⟩ := List.forall₂_iff_get.1 h.matched
  obtain ⟨hlt, rfl⟩ := List.getElem?_eq_some_iff.1 hi
  exact ⟨_, List.getElem?_eq_getElem (hlen ▸ hlt), hget i hlt (hlen ▸ hlt)⟩

theorem layered₁ (h : Twin s₁ s₂ env mo r₁ r₂ ids j hist₁ hist₂) (hT₁ : T₁ ∈ hist₁)
    {a : RoundInfo} (ha : Shows T₁ r₁ a) (hmo : a.crypto = some mo) :
    Layered s₁ env mo r₁ a := by
  obtain ⟨past₁, hrun₁⟩ := h.honest₁
  have hst₁ := HonestRun.layered hrun₁ T₁ (List.mem_append_left past₁ hT₁)
  obtain ⟨mo₁, hL₁⟩ := (hst₁ _ _ ha.info).layered ha.started ha.not_failed
  obtain rfl : mo₁ = mo := Option.some.inj (hL₁.crypto.symm.trans hmo)
  exact hL₁

/-- The two rounds of states that match. -/
theorem layered (h : Twin s₁ s₂ env mo r₁ r₂ ids j hist₁ hist₂) (hT₁ : T₁ ∈ hist₁)
    (hT₂ : T₂ ∈ hist₂) (hm : Matched mo r₁ r₂ ids j T₁ T₂) :
    ∃ a b, Shows T₁ r₁ a ∧ Shows T₂ r₂ b ∧ Alike j a b ∧ a.participants = ids ∧
      Layered s₁ env mo r₁ a ∧ Layered s₂ env mo r₂ b := by
  obtain ⟨a, b, ha, hb, hab, hids, hmo⟩ := hm
  exact ⟨a, b, ha, hb, hab, hids, h.layered₁ hT₁ ha hmo,
    h.symm.layered₁ hT₂ hb (hab.crypto.trans hmo)⟩

theorem inv₁ (h : Twin s₁ s₂ env mo r₁ r₂ ids j hist₁ hist₂) (hT₁ : T₁ ∈ hist₁) : Inv T₁ := by
  obtain ⟨past₁, hrun₁⟩ := h.honest₁
  exact Reachable.inv (hrun₁.leads_of_mem (List.mem_append_left past₁ hT₁))

theorem leads₁ (h : Twin s₁ s₂ env mo r₁ r₂ ids j (T₁ :: hist₁) hist₂) {S₁ : StateMachine}
    (hS₁ : S₁ ∈ T₁ :: hist₁) : Leads apply S₁ T₁ := by
  obtain ⟨past₁, hrun₁⟩ := h.honest₁
  exact History.leads hrun₁ (List.mem_append_left past₁ hS₁)

theorem started₁ (h : Twin s₁ s₂ env mo r₁ r₂ ids j hist₁ hist₂) {op : Op}
    (hop : s₁.Built env r₁ hist₁ e₁ T₁ op) : 1 ≤ phaseOrder T₁.currentRoundInfo.phase := by
  obtain ⟨T₂, -, a, b, ha, -⟩ := h.matched_getElem? hop.state
  rw [ha.current hop.round]
  exact ha.started

theorem fresh₁ (h : Twin s₁ s₂ env mo r₁ r₂ ids j (T₁ :: hist₁) hist₂) {S₁ T₁' : StateMachine}
    {op : Op} (hop : s₁.Built env r₁ (T₁ :: hist₁) e₁ S₁ op) (hap : T₁.apply op = .ok (T₁', true))
    {st : Stage} {id : UUID} {r : ℤ} {messages : List Msg} {prev : ℤ}
    (hst : op = st.op id r messages prev) : T₁.currentRoundInfo = S₁.currentRoundInfo :=
  Setup.fresh_of_act (h.started₁ hop) hop.act (h.inv₁ hop.mem) (h.leads₁ hop.mem) hap hst

/-- What is committed in one round has its counterpart in the other. -/
theorem built (h : Twin s₁ s₂ env mo r₁ r₂ ids j hist₁ hist₂) (hp : Permuted s₁ s₂ mo r₁ r₂ ids)
    (e₂ : Commit) (hclient : e₂.client = e₁.client) (hbuilt : e₂.built = e₁.built)
    (hop : s₁.committed env r₁ hist₁ e₁ = some op₁) :
    ∃ S₁ S₂ op₂, s₁.Built env r₁ hist₁ e₁ S₁ op₁ ∧ s₂.Built env r₂ hist₂ e₂ S₂ op₂ ∧
      Counterpart s₁ s₂ env mo r₁ r₂ e₁.client e₁.shuffle e₂.shuffle S₁.currentRoundInfo
        S₂.currentRoundInfo op₁ op₂ := by
  obtain ⟨S₁, hb₁⟩ := Setup.committed_eq_some_iff.1 hop
  obtain ⟨S₂, hS₂, hm⟩ := h.matched_getElem? hb₁.state
  have hr₂ := hm.round_iff.1 hb₁.round
  obtain ⟨a, b, ha, hb, hab, rfl, hL₁, hL₂⟩ :=
    h.layered hb₁.mem (List.mem_of_getElem? hS₂) hm
  obtain rfl := ha.current hb₁.round
  obtain rfl := hb.current hr₂
  obtain rfl := hb₁.round
  subst hr₂
  obtain ⟨op₂, hact₂, hc⟩ :=
    hab.counterpart hp hL₁ hL₂ (h.inv₁ hb₁.mem).current ha.started hb₁.act
  rw [← hclient] at hact₂
  exact ⟨S₁, S₂, op₂, hb₁, ⟨hbuilt ▸ hS₂, rfl, hact₂⟩, hc⟩

theorem committed_none (h : Twin s₁ s₂ env mo r₁ r₂ ids j hist₁ hist₂)
    (hp : Permuted s₁ s₂ mo r₁ r₂ ids) (e₂ : Commit) (hclient : e₂.client = e₁.client)
    (hbuilt : e₂.built = e₁.built) (hop : s₁.committed env r₁ hist₁ e₁ = none) :
    s₂.committed env r₂ hist₂ e₂ = none := by
  by_contra hne
  obtain ⟨op₂, hop₂⟩ := Option.ne_none_iff_exists'.1 hne
  obtain ⟨-, _, op, -, hb₁, -⟩ := h.symm.built hp.symm e₁ hclient.symm hbuilt.symm hop₂
  rw [hb₁.committed] at hop
  cases hop

/-- One commit keeps the rounds alike, if the list that `j` sends is the same. -/
theorem commit (h : Twin s₁ s₂ env mo r₁ r₂ ids j (T₁ :: hist₁) (T₂ :: hist₂))
    (hp : Permuted s₁ s₂ mo r₁ r₂ ids) (hclient : e₂.client = e₁.client)
    (hbuilt : e₂.built = e₁.built) (hshuffle : e₁.client.id ≠ j → e₂.shuffle = e₁.shuffle)
    (hj : ∀ ms₁ ms₂ T', s₁.committed env r₁ (T₁ :: hist₁) e₁ = some (.scrambled j r₁ ms₁) →
      T₁.apply (.scrambled j r₁ ms₁) = .ok (T', true) →
      s₂.committed env r₂ (T₂ :: hist₂) e₂ = some (.scrambled j r₂ ms₂) → ms₁ = ms₂) :
    ∃ T₁' hist₁' T₂' hist₂' b, s₁.commit env r₁ (T₁ :: hist₁) e₁ = .ok (T₁' :: hist₁', b) ∧
      s₂.commit env r₂ (T₂ :: hist₂) e₂ = .ok (T₂' :: hist₂', b) ∧
      Twin s₁ s₂ env mo r₁ r₂ ids j (T₁' :: hist₁') (T₂' :: hist₂') ∧ Leads apply T₁ T₁' := by
  rcases hop₁ : s₁.committed env r₁ (T₁ :: hist₁) e₁ with _ | op₁
  · exact ⟨T₁, hist₁, T₂, hist₂, false, Setup.commit_of_not_committed hop₁,
      Setup.commit_of_not_committed (h.committed_none hp e₂ hclient hbuilt hop₁), h, Leads.refl _⟩
  · obtain ⟨S₁, S₂, op₂, hb₁, hb₂, hc⟩ := h.built hp e₂ hclient hbuilt hop₁
    have hm := (List.forall₂_cons.1 h.matched).1
    have hI₁ := h.inv₁ List.mem_cons_self
    have hI₂ := h.symm.inv₁ List.mem_cons_self
    obtain ⟨past₁, hrun₁⟩ := h.honest₁
    obtain ⟨past₂, hrun₂⟩ := h.honest₂
    obtain ⟨T₁', b, hap₁, -⟩ := hI₁.apply_total op₁
    obtain ⟨T₂', b₂, hap₂, -⟩ := hI₂.apply_total op₂
    have hrun₁' := hb₁.honestRun hrun₁ hap₁
    have hrun₂' := hb₂.honestRun hrun₂ hap₂
    have hnext : b₂ = b ∧ Matched mo r₁ r₂ ids j T₁' T₂' := by
      cases b with
      | true =>
        obtain ⟨T, hT⟩ := hm.accepts hI₂ hc hap₁
        cases hap₂.symm.trans hT
        refine ⟨rfl, hm.step hp hI₁ hI₂ (HonestRun.layered hrun₁' _ List.mem_cons_self)
          (HonestRun.layered hrun₂' _ List.mem_cons_self) hc
          (fun _ _ _ _ _ => h.fresh₁ hb₁ hap₁) (fun _ _ _ _ _ => h.symm.fresh₁ hb₂ hap₂) hshuffle
          (fun ms₁ ms₂ h₁ h₂ => ?_) hap₁ hap₂⟩
        subst h₁ h₂
        exact hj ms₁ ms₂ T₁' hop₁ hap₁ hb₂.committed
      | false =>
        cases b₂ with
        | true =>
          obtain ⟨T, hT⟩ := hm.symm.accepts hI₁ hc.symm hap₂
          cases hap₁.symm.trans hT
        | false =>
          rw [eq_of_apply_false hap₁, eq_of_apply_false hap₂]
          exact ⟨rfl, hm⟩
    obtain ⟨rfl, hm'⟩ := hnext
    exact ⟨T₁', _, T₂', _, b₂, Setup.commit_of_committed hop₁ hap₁,
      Setup.commit_of_committed hb₂.committed hap₂,
      ⟨.cons hm' h.matched, ⟨past₁, hrun₁'⟩, ⟨past₂, hrun₂'⟩⟩, Leads.of_step hap₁⟩

/-! ### Whole plays -/

/-- Once `j` has scrambled, its shuffle does not matter. -/
theorem run_of_scrambled {commits : List Commit} (sh : Shuffle)
    (h : Twin s₁ s₂ env mo r₁ r₂ ids j (T₁ :: hist₁) (T₂ :: hist₂))
    (hp : Permuted s₁ s₂ mo r₁ r₂ ids) (hover : ∀ T, Leads apply T₁ T →
      ∀ ms T', T.apply (.scrambled j r₁ ms) ≠ .ok (T', true)) :
    ∃ hist₁' hist₂', run (s₁.commit env r₁) (T₁ :: hist₁) commits = .ok hist₁' ∧
      run (s₂.commit env r₂) (T₂ :: hist₂) (commits.map (Commit.reshuffle j sh)) = .ok hist₂' ∧
      Twin s₁ s₂ env mo r₁ r₂ ids j hist₁' hist₂' := by
  induction commits generalizing T₁ hist₁ T₂ hist₂ with
  | nil => exact ⟨_, _, rfl, rfl, h⟩
  | cons e commits ih =>
    obtain ⟨T₁', hist₁', T₂', hist₂', b, hcommit₁, hcommit₂, h', hl⟩ :=
      h.commit hp (e.client_reshuffle j sh) (e.built_reshuffle j sh) (e.shuffle_reshuffle sh)
        fun ms₁ _ T' _ hap => absurd hap (hover T₁ (Leads.refl _) ms₁ T')
    obtain ⟨hist₁'', hist₂'', hrun₁, hrun₂, h''⟩ := ih h' fun T hT => hover T (hl.trans hT)
    exact ⟨hist₁'', hist₂'', run_cons_iff.2 ⟨_, hcommit₁, hrun₁⟩,
      run_cons_iff.2 ⟨_, hcommit₂, hrun₂⟩, h''⟩

/-- When `j` scrambles, its shuffle can be chosen such that it sends the same list. -/
theorem exists_shuffle (h : Twin s₁ s₂ env mo r₁ r₂ ids j (T₁ :: hist₁) (T₂ :: hist₂))
    (hp : Permuted s₁ s₂ mo r₁ r₂ ids) {ms₁ : List Msg} {T₁' : StateMachine}
    (hop : s₁.committed env r₁ (T₁ :: hist₁) e₁ = some (.scrambled j r₁ ms₁))
    (hap : T₁.apply (.scrambled j r₁ ms₁) = .ok (T₁', true)) :
    ∃ ρ : Equiv.Perm (Fin ids.length), ∀ ms₂,
      s₂.committed env r₂ (T₂ :: hist₂) (e₁.reshuffle j (.ofPerm ρ)) =
        some (.scrambled j r₂ ms₂) → ms₁ = ms₂ := by
  have hm := (List.forall₂_cons.1 h.matched).1
  obtain ⟨hr₁, a', hacc, -⟩ := apply_true_iff.1 hap
  have hph : T₁.currentRoundInfo.phase = .scramble := (Accepts.of_op .scramble 0 hacc).1
  obtain ⟨S₁, _, _, hb₁, -, hc⟩ := h.built hp e₁ rfl rfl hop
  obtain ⟨rfl, hms₁, -⟩ := hc.of_scrambled
  rw [← h.fresh₁ hb₁ hap (show _ = Stage.op .scramble _ r₁ ms₁ 0 from rfl)] at hms₁
  obtain ⟨a, b, ha, hb, hab, rfl, hL₁, hL₂⟩ := h.layered List.mem_cons_self List.mem_cons_self hm
  obtain rfl := ha.current hr₁.symm
  obtain rfl := hb.current (hm.round_iff.1 hr₁.symm)
  have hperm := hp.scrLayers_perm hab ((layers_scramble_iff hph).1 hL₁.layers)
    ((layers_scramble_iff (hab.phase.trans hph)).1 hL₂.layers)
  have hsent : (T₂.currentRoundInfo.messages.map fun m =>
      mo.encrypt (s₁.keys mo e₁.client.id r₁).revealKey
        (mo.encrypt (s₁.keys mo e₁.client.id r₁).scrambleKey m)).Perm ms₁ := by
    rw [hms₁]
    exact (hperm.symm.map _).trans (e₁.shuffle.perm _).symm
  obtain ⟨ρ, hρ⟩ := exists_permute_eq hsent (by rw [List.length_map, hL₂.length, hab.participants])
  refine ⟨ρ, fun ms₂ hop₂ => ?_⟩
  obtain ⟨_, S₂, op₂, -, hb₂, hc₂⟩ := h.built hp (e₁.reshuffle e₁.client.id (.ofPerm ρ))
    (e₁.client_reshuffle _ _) (e₁.built_reshuffle _ _) hop
  obtain rfl := Option.some.inj (hop₂.symm.trans hb₂.committed)
  obtain ⟨T₂', hap₂⟩ := hm.scrambled hap ms₂
  obtain ⟨-, -, hms₂⟩ := hc₂.of_scrambled
  rw [← h.symm.fresh₁ hb₂ hap₂ (show _ = Stage.op .scramble _ r₂ ms₂ 0 from rfl),
    Commit.reshuffle, if_pos rfl] at hms₂
  cases hms₂
  exact hρ.symm

section Reshuffle

variable (h : Twin s₁ s₂ env mo r₁ r₂ ids j (T₁ :: hist₁) (T₂ :: hist₂))
  (hp : Permuted s₁ s₂ mo r₁ r₂ ids)
  (hno : ∀ ms T', s₁.committed env r₁ (T₁ :: hist₁) e₁ = some (.scrambled j r₁ ms) →
    T₁.apply (.scrambled j r₁ ms) ≠ .ok (T', true))

include h hp hno

/-- A list of `j` that is turned down in one round is turned down in the other, and so is any other
list. -/
theorem apply_scrambled {ms : List Msg}
    (hop : s₂.committed env r₂ (T₂ :: hist₂) e₁ = some (.scrambled j r₂ ms)) (ms' : List Msg) :
    T₂.apply (.scrambled j r₂ ms') = .ok (T₂, false) := by
  obtain ⟨_, S₁, op₁, -, hb₁, hc⟩ := h.symm.built hp.symm e₁ rfl rfl hop
  obtain ⟨rfl, -, rfl⟩ := hc.of_scrambled
  obtain ⟨T₂', b, hap, -⟩ := (h.symm.inv₁ List.mem_cons_self).apply_total _
  cases b with
  | false =>
    rw [eq_of_apply_false hap] at hap
    exact hap
  | true =>
    obtain ⟨T₁', hap₁⟩ := (List.forall₂_cons.1 h.matched).1.symm.scrambled hap _
    exact absurd hap₁ (hno _ T₁' hb₁.committed)

/-- Unless a list of `j` is accepted now, the shuffle of `j` does not matter. -/
theorem commit_reshuffle (sh : Shuffle) : s₂.commit env r₂ (T₂ :: hist₂) (e₁.reshuffle j sh) =
    s₂.commit env r₂ (T₂ :: hist₂) e₁ := by
  by_cases hj : e₁.client.id = j
  · rcases hop : s₁.committed env r₁ (T₁ :: hist₁) e₁ with _ | op₁
    · rw [Setup.commit_of_not_committed (h.committed_none hp e₁ rfl rfl hop),
        Setup.commit_of_not_committed (h.committed_none hp _ (e₁.client_reshuffle j sh)
          (e₁.built_reshuffle j sh) hop)]
    · obtain ⟨S₁, S₂, op₂, -, hb₂, -⟩ := h.built hp e₁ rfl rfl hop
      rw [Commit.reshuffle, if_pos hj]
      have hb₂' : ∀ op, s₂.act env sh e₁.client S₂ = some op →
          s₂.Built env r₂ (T₂ :: hist₂) { e₁ with shuffle := sh } S₂ op :=
        fun op hact => ⟨hb₂.state, hb₂.round, hact⟩
      subst hj
      rcases Setup.act_shuffle (h.symm.started₁ hb₂) hb₂.act sh with hact | ⟨ms, ms', rfl, hact⟩
      · obtain ⟨T₂', b, hap, -⟩ := (h.symm.inv₁ List.mem_cons_self).apply_total op₂
        rw [Setup.commit_of_committed hb₂.committed hap,
          Setup.commit_of_committed (hb₂' _ hact).committed hap]
      · have hcom := hb₂.committed
        have hcom' := (hb₂' _ hact).committed
        rw [hb₂.round] at hcom hcom'
        rw [Setup.commit_of_committed hcom (h.apply_scrambled hp hno hcom ms),
          Setup.commit_of_committed hcom' (h.apply_scrambled hp hno hcom ms')]
  · rw [Commit.reshuffle, if_neg hj]

end Reshuffle

/-- The second run can take the commits of the first, with another shuffle of client `j`. -/
theorem run_commits {commits : List Commit}
    (h : Twin s₁ s₂ env mo r₁ r₂ ids j (T₁ :: hist₁) (T₂ :: hist₂))
    (hp : Permuted s₁ s₂ mo r₁ r₂ ids) :
    ∃ (ρ : Equiv.Perm (Fin ids.length)) (hist₁' hist₂' : List StateMachine),
      run (s₁.commit env r₁) (T₁ :: hist₁) commits = .ok hist₁' ∧
      run (s₂.commit env r₂) (T₂ :: hist₂) (commits.map (Commit.reshuffle j (.ofPerm ρ))) =
        .ok hist₂' ∧ Twin s₁ s₂ env mo r₁ r₂ ids j hist₁' hist₂' := by
  induction commits generalizing T₁ hist₁ T₂ hist₂ with
  | nil => exact ⟨1, _, _, rfl, rfl, h⟩
  | cons e commits ih =>
    by_cases hown : ∃ ms T', s₁.committed env r₁ (T₁ :: hist₁) e = some (.scrambled j r₁ ms) ∧
        T₁.apply (.scrambled j r₁ ms) = .ok (T', true)
    · obtain ⟨ms, T', hop, hap⟩ := hown
      obtain ⟨ρ, hρ⟩ := h.exists_shuffle hp hop hap
      obtain ⟨T₁', hist₁', T₂', hist₂', b, hcommit₁, hcommit₂, h', -⟩ :=
        h.commit hp (e.client_reshuffle j _) (e.built_reshuffle j _) (e.shuffle_reshuffle _)
          fun ms₁ ms₂ _ hop₁ _ hop₂ => by
            cases hop.symm.trans hop₁
            exact hρ ms₂ hop₂
      cases hcommit₁.symm.trans (Setup.commit_of_committed hop hap)
      obtain ⟨hist₁'', hist₂'', hrun₁, hrun₂, h''⟩ := h'.run_of_scrambled (.ofPerm ρ) hp
        fun T hT ms' T'' hap' => by
          have hno : T.apply (Stage.op .scramble j r₁ ms' 0) = .ok (T, false) :=
            apply_of_raised (h.inv₁ List.mem_cons_self)
              (show T₁.apply (Stage.op .scramble j r₁ ms 0) = _ from hap) hT
          cases hap'.symm.trans hno
      exact ⟨ρ, hist₁'', hist₂'', run_cons_iff.2 ⟨_, hcommit₁, hrun₁⟩,
        run_cons_iff.2 ⟨_, hcommit₂, hrun₂⟩, h''⟩
    · have hno : ∀ ms T', s₁.committed env r₁ (T₁ :: hist₁) e = some (.scrambled j r₁ ms) →
          T₁.apply (.scrambled j r₁ ms) ≠ .ok (T', true) :=
        fun ms T' hop hap => hown ⟨ms, T', hop, hap⟩
      obtain ⟨T₁', hist₁', T₂', hist₂', b, hcommit₁, hcommit₂, h', -⟩ :=
        h.commit hp rfl rfl (fun _ => rfl) fun ms₁ _ T' hop hap => absurd hap (hno ms₁ T' hop)
      obtain ⟨ρ, hist₁'', hist₂'', hrun₁, hrun₂, h''⟩ := ih h'
      rw [← h.commit_reshuffle hp hno (.ofPerm ρ)] at hcommit₂
      exact ⟨ρ, hist₁'', hist₂'', run_cons_iff.2 ⟨_, hcommit₁, hrun₁⟩,
        run_cons_iff.2 ⟨_, hcommit₂, hrun₂⟩, h''⟩

end Twin

/-! ## From the start of a round to its end -/

/-- The state `S` right after a client started a round with the crypto `mo`, in an honest run. -/
def Setup.Begins (s : Setup) (env : Env) (mo : Crypto) (S : StateMachine) : Prop :=
  ∃ past R id, HonestRun (s.conduct env) (R :: past) ∧
    Honest (s.conduct env) (R :: past) (.start id R.round (some mo)) ∧
    R.apply (.start id R.round (some mo)) = .ok (S, true)

namespace Setup.Begins

variable {s s₁ s₂ : Setup} {env : Env} {mo : Crypto} {S S₁ S₂ : StateMachine}

theorem honestRun (h : s.Begins env mo S) : ∃ past, HonestRun (s.conduct env) (S :: past) := by
  obtain ⟨past, R, id, hrun, hop, hap⟩ := h
  exact ⟨_, .next hrun hop hap⟩

theorem currentRoundInfo (h : s.Begins env mo S) : S.currentRoundInfo =
      { RoundInfo.blank S.currentRoundInfo.participants with
        phase := .submit, crypto := some mo } := by
  obtain ⟨past, R, id, hrun, -, hap⟩ := h
  have hR : Reachable R := hrun.leads_of_mem List.mem_cons_self
  obtain ⟨-, ri, ha, rfl⟩ := apply_true_iff.1 hap
  obtain ⟨hph, rfl⟩ := ha.of_start
  rw [advance_unfinished (by simp), currentRoundInfo_setCurrent hR.inv.round_nonneg]
  have hblank := hR.blank hph
  exact congrArg (fun ri : RoundInfo => { ri with phase := .submit, crypto := some mo }) hblank

theorem shows (h : s.Begins env mo S) : Shows S S.round S.currentRoundInfo := by
  obtain ⟨past, hrun⟩ := h.honestRun
  have hI : Inv S := Reachable.inv (hrun.leads_of_mem List.mem_cons_self)
  have hph : S.currentRoundInfo.phase = .submit := by rw [h.currentRoundInfo]
  exact ⟨getRoundInfo_currentRoundInfo hI.round_nonneg, by rw [hph]; decide, by rw [hph]; decide,
    by simp [hph]⟩

/-- Two rounds with the same participants and the same crypto start alike. -/
theorem twin (h₁ : s₁.Begins env mo S₁) (h₂ : s₂.Begins env mo S₂)
    (hids : S₂.currentRoundInfo.participants = S₁.currentRoundInfo.participants) (j : UUID) :
    Twin s₁ s₂ env mo S₁.round S₂.round S₁.currentRoundInfo.participants j [S₁] [S₂] where
  matched := by
    have hcur : S₂.currentRoundInfo = S₁.currentRoundInfo := by
      rw [h₁.currentRoundInfo, h₂.currentRoundInfo, hids]
    refine .cons ⟨_, _, h₁.shows, h₂.shows, ?_, rfl, ?_⟩ .nil
    · rw [hcur]
      exact ⟨rfl, fun _ => rfl⟩
    · rw [h₁.currentRoundInfo]
  honest₁ := h₁.honestRun
  honest₂ := h₂.honestRun

end Setup.Begins

/-- What two states show of their rounds is the same once `j` has scrambled, and so is the outcome.
-/
def Erased (mo : Crypto) (j : UUID) (r₁ r₂ : ℤ) (T₁ T₂ : StateMachine) : Prop :=
  ∃ a b, T₁.getRoundInfo r₁ = .ok a ∧ T₂.getRoundInfo r₂ = .ok b ∧
    a.phase ≠ .failed ∧ b.phase = a.phase ∧ (b.HasScrambled j ↔ a.HasScrambled j) ∧
    (a.HasScrambled j → b.messages = a.messages) ∧
    (a.phase = .done →
      a.HasScrambled j ∧ b.messages.map (b.decryptAll mo) = a.messages.map (a.decryptAll mo))

theorem Matched.erased {mo : Crypto} {r₁ r₂ : ℤ} {ids : List UUID} {j : UUID}
    {T₁ T₂ : StateMachine} (h : Matched mo r₁ r₂ ids j T₁ T₂) (hI : Inv T₁) (hj : j ∈ ids) :
    Erased mo j r₁ r₂ T₁ T₂ := by
  obtain ⟨a, b, ha, hb, hab, rfl, -⟩ := h
  have hscr : b.HasScrambled j ↔ a.HasScrambled j := by rw [hab.eq]; rfl
  refine ⟨a, b, ha.info, hb.info, ha.not_failed, hab.phase, hscr,
    fun h => (hab.messages h).symm, fun hdone => ?_⟩
  obtain ⟨p, hp⟩ := List.mem_iff_getElem?.1 hj
  have hraised : a.scrambled = List.replicate a.participants.length true :=
    (hI.roundInv ha.info).flags_eq_true .scramble (by rw [hdone]; decide) ha.not_failed
  have hown : a.HasScrambled j := by
    refine ⟨p, hp, ?_⟩
    rw [hraised, List.getElem?_replicate_of_lt (List.getElem?_eq_some_iff.1 hp).1]
  have hdecrypt : b.decryptAll mo = a.decryptAll mo := by
    funext m
    rw [RoundInfo.decryptAll, RoundInfo.decryptAll, hab.revealedKeys]
  exact ⟨hown, by rw [hdecrypt, hab.messages hown]⟩

/-- **One shuffle hides who wrote what.** Let two honest rounds begin with the same participants and
the same crypto, with the same keys and with the same plaintexts in another order.  Whatever is
committed in the first round, and for every participant `j`, there is a shuffle of `j` such that the
second round, with the same commits and with all other shuffles unchanged, shows the same messages
from the moment that `j` has scrambled, and has the same outcome. -/
theorem authorship_erased {s₁ s₂ : Setup} {env : Env} {mo : Crypto} {S₁ S₂ : StateMachine}
    (h₁ : s₁.Begins env mo S₁) (h₂ : s₂.Begins env mo S₂)
    (hids : S₂.currentRoundInfo.participants = S₁.currentRoundInfo.participants)
    (hp : Permuted s₁ s₂ mo S₁.round S₂.round S₁.currentRoundInfo.participants) {j : UUID}
    (hj : j ∈ S₁.currentRoundInfo.participants) (commits : List Commit) :
    ∃ (ρ : Equiv.Perm (Fin S₁.currentRoundInfo.participants.length))
      (hist₁ hist₂ : List StateMachine), s₁.play env S₁.round S₁ commits = .ok hist₁ ∧
      s₂.play env S₂.round S₂ (commits.map (Commit.reshuffle j (.ofPerm ρ))) = .ok hist₂ ∧
      List.Forall₂ (Erased mo j S₁.round S₂.round) hist₁ hist₂ := by
  obtain ⟨ρ, hist₁, hist₂, hplay₁, hplay₂, h⟩ := (h₁.twin h₂ hids j).run_commits hp
  obtain ⟨hlen, hget⟩ := List.forall₂_iff_get.1 h.matched
  exact ⟨ρ, hist₁, hist₂, hplay₁, hplay₂, List.forall₂_iff_get.2 ⟨hlen, fun i hi₁ hi₂ =>
    (hget i hi₁ hi₂).erased (h.inv₁ (List.get_mem hist₁ ⟨i, hi₁⟩)) hj⟩⟩

theorem swapped_plain_mem {P : ℕ} (id : UUID) (hP : P.Prime) :
    1 ≤ (if P = 7 ∧ id = 1 then 4 else 1) ∧ (if P = 7 ∧ id = 1 then 4 else 1) ≤ P - 1 := by
  have := hP.two_le
  split_ifs <;> omega

/-- As `sevenSetup`, with the two plaintexts swapped. -/
def swappedSetup : Setup where
  keys := sevenSetup.keys
  plain mo id _ := if mo.getP = 7 ∧ id = 1 then 4 else 1
  inverts := sevenSetup.inverts
  plain_mem _ id _ hP := swapped_plain_mem id hP

theorem begins_begun (s : Setup) : s.Begins plainEnv ⟨[7]⟩ (begun [1, 2] ⟨[7]⟩) := by
  have hP : (Crypto.getP ⟨[7]⟩).Prime := by
    rw [show Crypto.getP ⟨[7]⟩ = 7 from by decide +kernel]
    norm_num
  have hinit : HonestRun (s.conduct plainEnv) [joined []] := by
    rw [show joined [] = newStateMachine from by decide +kernel]
    exact .init
  have hjoin : ∀ {ids id past}, HonestRun (s.conduct plainEnv) (joined ids :: past) → id ∉ ids →
      Client.me ⟨id, 0⟩ (.blank ids) = none →
      (joined ids).advance ((RoundInfo.blank ids).addParticipant id) = joined (ids ++ [id]) →
      HonestRun (s.conduct plainEnv) (joined (ids ++ [id]) :: joined ids :: past) := by
    intro ids id past h hid hme heq
    have hop : Honest (s.conduct plainEnv) (joined ids :: past) (.join id 0) :=
      .prepare (c := ⟨id, 0⟩) List.mem_cons_self (Or.inl rfl) (if_pos hme)
    exact .next h hop (apply_true_iff.2 ⟨rfl, _, .join rfl hid, heq.symm⟩)
  have hrun := hjoin (hjoin hinit (show (1 : UUID) ∉ [] by simp) rfl (by decide +kernel))
    (show (2 : UUID) ∉ [] ++ [1] by decide) (by decide) (by decide +kernel)
  have hstart : Client.start ⟨1, 0⟩ (joined [1, 2]) 0 ⟨[7]⟩ = .ok (.start 1 0 (some ⟨[7]⟩)) := rfl
  exact ⟨_, _, 1, hrun, .start List.mem_cons_self hP hstart,
    apply_true_iff.2 ⟨rfl, _, .start rfl, by decide +kernel⟩⟩

/-- The commits of a round: in each phase the second participant comes first, if it may. -/
def pairCommits : List Commit :=
  let commit (id : UUID) : Commit := ⟨⟨id, 0⟩, 0, ⟨List.reverse, List.reverse_perm⟩⟩
  [commit 2, commit 1, commit 2, commit 1, commit 1, commit 2, commit 2, commit 1, commit 2,
    commit 1]

theorem authorship_erased_pair :
    endsWith (sevenSetup.commit plainEnv 0) [begun [1, 2] ⟨[7]⟩] pairCommits
      (fun hist => hist.head?.map StateMachine.round = some 1) = true ∧
    ∃ (ρ : Equiv.Perm (Fin 2)) (hist₁ hist₂ : List StateMachine),
      sevenSetup.play plainEnv 0 (begun [1, 2] ⟨[7]⟩) pairCommits = .ok hist₁ ∧
      swappedSetup.play plainEnv 0 (begun [1, 2] ⟨[7]⟩)
        (pairCommits.map (Commit.reshuffle 1 (.ofPerm ρ))) = .ok hist₂ ∧
      List.Forall₂ (Erased ⟨[7]⟩ 1 0 0) hist₁ hist₂ :=
  ⟨by decide +kernel, authorship_erased (begins_begun sevenSetup) (begins_begun swappedSetup) rfl
    ⟨fun _ _ => rfl, by decide +kernel⟩ (by decide) pairCommits⟩

end EggScrambler
