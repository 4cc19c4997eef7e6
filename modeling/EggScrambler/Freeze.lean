import Mathlib
import EggScrambler.Plan
import EggScrambler.Results

/-!
# Commit, then freeze

A participant commits to its reveal key and to the messages before any key is revealed.  From then
on nothing but the revealed keys can change, so the snapshot that a client takes when it hands out
its key is still right when the round ends (`commit_then_freeze`).

Which round the snapshot is of also tells the client whether it has handed out its key, and that is
how it judges a round that failed (`failed_result_iff`).
-/

namespace EggScrambler

open StateMachine Transition

/-! ## Snapshots -/

/-- The snapshot is that of an update which the client read in a reveal phase, and the client has
revealed its key in that round. -/
structure Snapshot.TakenIn (snap : Snapshot) (s : Session) : Prop where
  update : ∃ x ∈ s.reads, x.sm.round = snap.revealKeyHashesRound ∧
    x.sm.currentRoundInfo.phase = .reveal ∧
    snap.revealKeyHashes = x.sm.currentRoundInfo.revealKeyHashes ∧
    snap.messagesBeforeReveal = x.sm.currentRoundInfo.messages
  revealed : s.Reveals snap.revealKeyHashesRound

/-- The loop has this snapshot, or has handed it to a goroutine. -/
def Session.Holds (s : Session) (snap : Snapshot) : Prop :=
  snap = s.reader.snapshot ∨ ∃ sm r, Task.sendRoundResult sm r snap ∈ s.tasks

/-- Where the snapshots of a session are from. -/
structure Remembers (s : Session) : Prop where
  taken : ∀ snap, s.Holds snap → 0 ≤ snap.revealKeyHashesRound → snap.TakenIn s
  released : ∀ sm r snap, Task.sendRoundResult sm r snap ∈ s.tasks → s.Reveals (r - 1) →
    snap.revealKeyHashesRound = r - 1

section Memory

variable {env : Env} {c : Client} {s : Session} {v : StateMachine} {active : Bool} {draws : Draws}
  {a : Reaction}

theorem Snapshot.TakenIn.react {snap : Snapshot} (h : snap.TakenIn s) (x : Read) (a : Reaction) :
    snap.TakenIn (s.react x a) where
  update := by
    obtain ⟨y, hy, hsnap⟩ := h.update
    exact ⟨y, List.mem_cons_of_mem _ hy, hsnap⟩
  revealed := Session.started_react x a h.revealed

/-- A new result is sent with the snapshot of the loop. -/
theorem Reads.result_of_mem (h : Reads env c active draws s.reader v a) {sm : StateMachine} {r : ℤ}
    {snap : Snapshot} (ht : Task.sendRoundResult sm r snap ∈ a.tasks) :
    r = v.round ∧ snap = s.reader.snapshot ∧ v.currentRoundInfo.phase = .prepare ∧
      s.reader.lastResChSend < v.round - 1 := by
  rcases h.result_cases with ⟨hph, hlt, -, rest, htasks, hrest⟩ | ⟨-, hnone, -⟩
  · rw [htasks] at ht
    rcases List.mem_cons.1 ht with heq | ht
    · cases heq
      exact ⟨rfl, rfl, hph, hlt⟩
    · cases hrest _ ht
  · cases hnone _ ht

namespace Remembers

theorem init : Remembers {} where
  taken := by
    rintro snap (rfl | ⟨sm, r, ht⟩) h₀
    · exact absurd h₀ (by decide)
    · simp at ht
  released := by simp

theorem configure (h : Remembers s) (active leaving : Bool) (stored : ℕ) :
    Remembers (s.configure c active leaving stored) := by
  refine ⟨fun snap hs h₀ => ?_, fun sm r snap ht hr => ?_⟩
  · have hs' : s.Holds snap := by
      rcases hs with hs | ⟨sm, r, ht⟩
      · exact Or.inl hs
      · exact Or.inr ⟨sm, r, Session.result_of_mem_configure ht⟩
    have htaken := h.taken snap hs' h₀
    exact ⟨htaken.update, Session.reveals_configure.2 htaken.revealed⟩
  · exact h.released sm r snap (Session.result_of_mem_configure ht)
      (Session.reveals_configure.1 hr)

/-- The snapshot of the loop after a turn. -/
theorem taken_next (h : Remembers s) (ha : Reads env c active draws s.reader v a)
    (h₀ : 0 ≤ a.reader.snapshot.revealKeyHashesRound) :
    a.reader.snapshot.TakenIn (s.react ⟨v, active⟩ a) := by
  have hold := h.taken s.reader.snapshot (Or.inl rfl)
  rcases ha.reveal_cases with ⟨hph, hsnap, ⟨t, ht, htr⟩, -⟩ | ⟨hsnap, -, -⟩
  · rw [hsnap] at h₀ ⊢
    unfold Reader.remember at h₀ ⊢
    split_ifs at h₀ ⊢ with hlt
    · exact ⟨⟨⟨v, active⟩, List.mem_cons_self, rfl, hph, by simp, by simp⟩,
        t, List.mem_append_left _ ht, htr⟩
    · exact (hold h₀).react _ a
  · -- the turn may have counted the messages, which does not matter here
    rw [hsnap] at h₀ ⊢
    obtain ⟨hupd, hrev⟩ := (hold h₀).react ⟨v, active⟩ a
    exact ⟨hupd, hrev⟩

/-- A snapshot that the loop makes of an update is taken from it. -/
theorem read (h : Remembers s) (hm : Recalls s) (hrep : Reports s) (hv : s.Next v)
    (ha : Reads env c active draws s.reader v a) : Remembers (s.react ⟨v, active⟩ a) := by
  refine ⟨?_, fun sm r snap ht hr => ?_⟩
  · rintro snap (rfl | ⟨sm, r, ht⟩) h₀
    · exact h.taken_next ha h₀
    · rcases List.mem_append.1 ht with ht | ht
      · obtain ⟨-, rfl, -, -⟩ := ha.result_of_mem ht
        exact (h.taken _ (Or.inl rfl) h₀).react _ a
      · exact (h.taken snap (Or.inr ⟨sm, r, ht⟩) h₀).react _ a
  · rcases List.mem_append.1 ht with ht | ht
    · obtain ⟨rfl, rfl, hph, hlt⟩ := ha.result_of_mem ht
      exact (hrep.revealed_next hm hv hph hlt
        (Session.started_of_react (by omega) ha.revealRound_eq hr)).2
    · exact h.released sm r snap ht
        (Session.started_of_react (hrep.lt_of_mem hv ht) ha.revealRound_eq hr)

theorem of_reachable {w : World} (h : World.Reachable env c w) : Remembers w.session := by
  refine World.session_induction_of
    (Q := fun s => Counts s ∧ Recalls s ∧ Ordered s ∧ Reports s) (·.reports) init ?_ ?_ h
  · rintro s v active draws a ⟨-, hm, -, hr⟩ hs hv ha
    exact hs.read hm hr hv ha
  · exact fun s active leaving stored hs => hs.configure active leaving stored

end Remembers

end Memory

/-! ## What is fixed -/

section Freeze

variable {env : Env} {c : Client} {w : World}

/-- A snapshot agrees with every update that shows the round of the snapshot, from its reveal phase
on. -/
theorem Snapshot.TakenIn.eq_of_getRoundInfo {snap : Snapshot} (h : snap.TakenIn w.session)
    (hord : Ordered w.session) {x : Read} (hx : x ∈ w.session.reads) {ri : RoundInfo}
    (hri : x.sm.getRoundInfo snap.revealKeyHashesRound = .ok ri)
    (hph : 5 ≤ phaseOrder ri.phase) :
    snap.revealKeyHashes = ri.revealKeyHashes ∧ snap.messagesBeforeReveal = ri.messages := by
  obtain ⟨y, hy, hround, hrev, hhash, hmsgs⟩ := h.update
  have hcur := getRoundInfo_currentRoundInfo (hord.views y hy).inv.round_nonneg
  rw [hround] at hcur
  rw [hhash, hmsgs]
  rcases hord.comparable y hy x hx with hf | hf
  · have hlater := hf.later_of_getRoundInfo hcur hri
    have hph' : 5 ≤ phaseOrder y.sm.currentRoundInfo.phase := by rw [hrev]; decide
    exact ⟨(hlater.hashes (le_trans (by decide) hph')).symm, (hlater.frozen hph').1.symm⟩
  · have hlater := hf.later_of_getRoundInfo hri hcur
    exact ⟨hlater.hashes (le_trans (by decide) hph), (hlater.frozen hph).1⟩

/-- **Commit, then freeze.** Of two states of a run that show a round, the later one has the same
participants and crypto if the round has started in the earlier one, the same key hashes from the
encrypt phase on, and the same messages and flags from the reveal phase on.  A snapshot that a
client has taken in a reveal phase has the hashes and messages with which the round ends. -/
theorem commit_then_freeze {s t : StateMachine} (hs : StateMachine.Reachable s)
    (hl : Leads apply s t) {r : ℤ} {a b : RoundInfo} (ha : s.getRoundInfo r = .ok a)
    (hb : t.getRoundInfo r = .ok b) (hw : World.Reachable env c w) :
    (phaseOrder .submit ≤ phaseOrder a.phase →
      b.participants = a.participants ∧ b.crypto = a.crypto) ∧
    (phaseOrder .encrypt ≤ phaseOrder a.phase → b.revealKeyHashes = a.revealKeyHashes) ∧
    (phaseOrder .reveal ≤ phaseOrder a.phase →
      b.messages = a.messages ∧ b.revealKeyHashes = a.revealKeyHashes ∧
        b.encrypted = a.encrypted ∧ b.scrambled = a.scrambled ∧ b.decrypted = a.decrypted) ∧
    ∀ snap, w.session.Holds snap → 0 ≤ snap.revealKeyHashesRound →
      snap.TakenIn w.session ∧ ∀ x ∈ w.session.reads, ∀ ri,
        x.sm.getRoundInfo snap.revealKeyHashesRound = .ok ri →
        ri.phase = .done ∨ ri.phase = .failed →
        snap.revealKeyHashes = ri.revealKeyHashes ∧ snap.messagesBeforeReveal = ri.messages := by
  have hlater := (Follows.of_leads hs.inv hl).later_of_getRoundInfo ha hb
  refine ⟨hlater.fixed, hlater.hashes, fun hph => ?_, fun snap hsnap h₀ => ?_⟩
  · obtain ⟨hmsgs, hflags⟩ := hlater.frozen hph
    exact ⟨hmsgs, hlater.hashes (le_trans (by decide) hph), hflags .encrypt, hflags .scramble,
      hflags .decrypt⟩
  · have htaken := (Remembers.of_reachable hw).taken snap hsnap h₀
    refine ⟨htaken, fun x hx ri hri hph => ?_⟩
    refine htaken.eq_of_getRoundInfo hw.reports.2.2.1 hx hri ?_
    rcases hph with hph | hph <;> rw [hph] <;> decide

end Freeze

/-- A round of one participant. -/
def oneRound (phase : Phase) : RoundInfo where
  phase := phase
  crypto := some pairCrypto
  participants := [1]
  messages := [⟨[5]⟩]
  encrypted := [true]
  scrambled := [true]
  decrypted := [true]
  revealedKeys := [nilPrivateKey]
  revealKeyHashes := [keyOne.hash exactEnv]

/-- The operations that lead to its reveal phase. -/
def oneLog : List Op :=
  [.join 1 0, .start 1 0 (some pairCrypto), .message 1 0 ⟨[5]⟩ (keyOne.hash exactEnv),
    .encrypted 1 0 [⟨[5]⟩] 0, .scrambled 1 0 [⟨[5]⟩], .decrypted 1 0 [⟨[5]⟩] 0]

def oneReveal : StateMachine where
  round := 0
  rounds := ![oneRound .reveal, {}, {}]

/-- The round has failed. -/
def oneFailed : StateMachine where
  round := 1
  rounds := ![oneRound .failed, { phase := .prepare }, {}]

/-- The participant reads all updates. -/
def oneActions : List Action :=
  .subscribe :: (oneLog.map .commit ++ [.commit (.abort 0)]) ++
    List.replicate 8 (.read true false ⟨[0], [0], [0]⟩)

instance (s : Session) (r : ℤ) : Decidable (s.Reveals r) :=
  inferInstanceAs (Decidable (∃ t ∈ s.tasks, t.revealRound = some r))

theorem exists_run_oneActions : ∃ w, World.Reachable exactEnv ⟨1, 2⟩ w ∧
    ⟨oneReveal, true⟩ ∈ w.session.reads ∧ ⟨oneFailed, true⟩ ∈ w.session.reads ∧
    w.session.reader.snapshot.revealKeyHashesRound = 0 ∧ w.session.Reveals 0 := by
  obtain ⟨w, hw, htest⟩ : ∃ w, run (World.step exactEnv ⟨1, 2⟩) {} oneActions = .ok w ∧
      decide (⟨oneReveal, true⟩ ∈ w.session.reads ∧ ⟨oneFailed, true⟩ ∈ w.session.reads ∧
        w.session.reader.snapshot.revealKeyHashesRound = 0 ∧ w.session.Reveals 0) = true :=
    exists_of_endsWith (by decide +kernel)
  exact ⟨w, ⟨_, hw⟩, of_decide_eq_true htest⟩

/-- A round that is aborted when the participant has revealed its key. -/
theorem commit_then_freeze_aborted :
    (oneRound .failed).messages = (oneRound .reveal).messages ∧
      ∃ w, World.Reachable exactEnv ⟨1, 2⟩ w ∧
        w.session.reader.snapshot.TakenIn w.session ∧
        w.session.reader.snapshot.revealKeyHashes = (oneRound .failed).revealKeyHashes ∧
        w.session.reader.snapshot.messagesBeforeReveal = (oneRound .failed).messages := by
  have hs : run apply newStateMachine oneLog = .ok oneReveal := run_of_endsIn (by decide +kernel)
  have hl : Leads apply oneReveal oneFailed := ⟨[.abort 0], run_of_endsIn (by decide +kernel)⟩
  obtain ⟨w, hw, -, hx, hround, -⟩ := exists_run_oneActions
  have h := commit_then_freeze (r := 0) (a := oneRound .reveal) (b := oneRound .failed) ⟨_, hs⟩ hl
    rfl rfl hw
  obtain ⟨htaken, hend⟩ := h.2.2.2 _ (Or.inl rfl) hround.ge
  refine ⟨(h.2.2.1 le_rfl).1, w, hw, htaken, hend _ hx _ ?_ (Or.inr rfl)⟩
  rw [hround]
  rfl

/-! ## Failed rounds -/

section Failed

variable {env : Env} {c : Client} {w w' : World} {r : ℤ}

/-- Between `w₀` and `w₁` the client reads its first update of round `r + 1`. -/
structure Passes (env : Env) (c : Client) (r : ℤ) (w₀ w₁ : World) : Prop where
  reachable : World.Reachable env c w₀
  step : ∃ act b, w₀.step env c act = .ok (w₁, b)
  before : ∀ x ∈ w₀.session.reads, x.sm.round ≤ r
  after : ∃ x ∈ w₁.session.reads, x.sm.round = r + 1

/-- What was read before is in order with what is read next. -/
theorem World.Reachable.round_le (h : World.Reachable env c w) {v : StateMachine}
    {ch : List StateMachine} (hch : w.updCh = some (v :: ch)) {x : Read}
    (hx : x ∈ w.session.reads) : x.sm.round ≤ v.round :=
  (h.reports.2.2.1.last x hx).round_le.trans ((Delivered.of_reachable h).next hch).follows.round_le

theorem Steps.mem_reads {act : Action} (hs : Steps env c w act w') {x : Read}
    (hx : x ∈ w.session.reads) : x ∈ w'.session.reads := by
  cases hs with
  | read hch ha => exact List.mem_cons_of_mem _ hx
  | _ => exact hx

/-- Once the client has read an update after round `r`, it does not reveal its key in round `r`. -/
theorem Steps.reveals_iff (h : World.Reachable env c w) {act : Action} (hs : Steps env c w act w')
    (hx : ∃ x ∈ w'.session.reads, r < x.sm.round) :
    w'.session.Reveals r ↔ w.session.Reveals r := by
  cases hs with
  | @read _ _ _ v ch a hch ha =>
    have hlt : r < v.round := by
      obtain ⟨x, hx, hxr⟩ := hx
      rcases List.mem_cons.1 hx with rfl | hx
      · exact hxr
      · exact hxr.trans_le (h.round_le hch hx)
    exact ⟨Session.started_of_react hlt ha.revealRound_eq, Session.started_react _ a⟩
  | configure active leaving stored => exact Session.reveals_configure
  | _ => exact Iff.rfl

/-- The keys that were revealed in a round are those that were revealed before the next one. -/
theorem Passes.reveals_iff {w₀ w₁ : World} (h : Passes env c r w₀ w₁)
    (hl : Leads (World.step env c) w₁ w) : w.session.Reveals r ↔ w₀.session.Reveals r := by
  obtain ⟨act, b, hstep⟩ := h.step
  obtain ⟨x, hx, hxr⟩ := h.after
  have hx₁ : ∃ x ∈ w₁.session.reads, r < x.sm.round := ⟨x, hx, by omega⟩
  obtain ⟨log, hlog⟩ := hl
  refine (run_preserves (I := fun w => World.Reachable env c w ∧
    (∃ x ∈ w.session.reads, r < x.sm.round) ∧
    (w.session.Reveals r ↔ w₀.session.Reveals r)) ?_ ?_ hlog).2.2
  · rintro u act' u' b' ⟨hu, ⟨x, hx, hxr⟩, hiff⟩ hs
    have hx' : ∃ x ∈ u'.session.reads, r < x.sm.round :=
      ⟨x, (Steps.of_step hs).mem_reads hx, hxr⟩
    exact ⟨hu.trans (Leads.of_step hs), hx', ((Steps.of_step hs).reveals_iff hu hx').trans hiff⟩
  · exact ⟨h.reachable.trans (Leads.of_step hstep), hx₁,
      (Steps.of_step hstep).reveals_iff h.reachable hx₁⟩

/-- A client that reads an update of a round up to `r` and then one of a later round reads the first
update of round `r + 1`. -/
theorem World.Reachable.exists_passes (h : World.Reachable env c w) {x y : Read}
    (hy : y ∈ w.session.reads) (hyr : y.sm.round ≤ r) (hx : x ∈ w.session.reads)
    (hxr : r < x.sm.round) :
    ∃ w₀ w₁, Passes env c r w₀ w₁ ∧ Leads (World.step env c) w₁ w := by
  obtain ⟨w₀, w₁, act, b, hw₀, hstep, hl, hbefore, ⟨y, hy, hyr⟩, x, hx, hxr⟩ :=
    h.exists_turn (P := fun w => (∃ y ∈ w.session.reads, y.sm.round ≤ r) ∧
      ∃ x ∈ w.session.reads, r < x.sm.round) (by simp) ⟨⟨y, hy, hyr⟩, x, hx, hxr⟩
  refine ⟨w₀, w₁, ?_, hl⟩
  have hs := Steps.of_step hstep
  cases hs with
  | @read _ _ _ v ch a hch ha =>
    have hnext := (Delivered.of_reachable hw₀).next hch
    have hvr : r < v.round := by
      rcases List.mem_cons.1 hx with rfl | hx
      · exact hxr
      · exact hxr.trans_le (World.Reachable.round_le hw₀ hch hx)
    have hy' : y ∈ w₀.session.reads := by
      rcases List.mem_cons.1 hy with rfl | hy
      · exact absurd hvr (not_lt.2 hyr)
      · exact hy
    have hold : ∀ x ∈ w₀.session.reads, x.sm.round ≤ r := by
      intro z hz
      by_contra hlt
      exact hbefore ⟨⟨y, hy', hyr⟩, z, hz, not_le.1 hlt⟩
    have hlast : w₀.session.reader.lastSm.round ≤ r := by
      rw [hnext.last]
      obtain ⟨z, rest, hz⟩ := List.exists_cons_of_ne_nil (List.ne_nil_of_mem hy')
      rw [hz]
      exact hold z (by rw [hz]; exact List.mem_cons_self)
    refine ⟨hw₀, ⟨_, _, hstep⟩, hold, ⟨v, _⟩, List.mem_cons_self, ?_⟩
    rcases (hnext.consecutive (List.ne_nil_of_mem hy')).round_cases with heq | ⟨heq, -⟩
    · exact absurd hvr (by omega)
    · show v.round = r + 1
      omega
  | _ => exact absurd ⟨⟨y, hy, hyr⟩, x, hx, hxr⟩ hbefore

/-- The result of a failed round. -/
theorem Client.sendRoundResult_of_failed {sm : StateMachine} {ri : RoundInfo} (snap : Snapshot)
    (hri : sm.getRoundInfo r = .ok ri) (hph : ri.phase = .failed) (hme : c.id ∈ ri.participants) :
    c.sendRoundResult env sm (r + 1) snap = .ok (some {
      round := r
      succeeded := false
      maliciousError :=
        if snap.revealKeyHashesRound = r then some .revealKeySubmitted else none }) := by
  have hr : r + 1 - 1 = r := by omega
  rw [Client.sendRoundResult, hr, hri]
  simp [bind, Except.bind, pure, Except.pure, hph, hme, assertf_of]

/-- **Failed rounds.** About a failed round in which it participated, and which ended after it began
to read, the client sends one result; it has an error exactly if the client had revealed its key in
the round before it read the first update of the next round. -/
theorem failed_result_iff (h : World.Reachable env c w) {x y : Read} {ri : RoundInfo}
    (hy : y ∈ w.session.reads) (hyr : y.sm.round ≤ r) (hx : x ∈ w.session.reads)
    (hri : x.sm.getRoundInfo r = .ok ri) (hph : ri.phase = .failed)
    (hme : c.id ∈ ri.participants) :
    ∃ res, w.session.results env c r = [.ok (some res)] ∧ res.succeeded = false ∧
      (∃ w₀ w₁, Passes env c r w₀ w₁ ∧ Leads (World.step env c) w₁ w) ∧
      ∀ w₀ w₁, Passes env c r w₀ w₁ → Leads (World.step env c) w₁ w →
        (res.maliciousError ≠ none ↔ w₀.session.Reveals r) := by
  have hmem := Remembers.of_reachable h
  have hlt := h.lt_of_finished hx hri (Or.inr hph)
  obtain ⟨sm, snap, ht, hget, hres⟩ := h.result_eq hy hyr hx hri (Or.inr hph)
  rw [Client.sendRoundResult_of_failed snap hget hph hme] at hres
  refine ⟨_, hres, rfl, h.exists_passes hy hyr hx hlt, fun w₀ w₁ hp hl => ?_⟩
  have hround : snap.revealKeyHashesRound = r ↔ w.session.Reveals r := by
    constructor
    · rintro rfl
      exact (hmem.taken snap (Or.inr ⟨sm, _, ht⟩) (getRoundInfo_eq_ok_iff.1 hri).1).revealed
    · intro hrev
      have hr : r + 1 - 1 = r := by omega
      exact (hmem.released sm (r + 1) snap ht (by rw [hr]; exact hrev)).trans hr
  rw [← hp.reveals_iff hl, ← hround]
  simp

end Failed

/-- The participant had revealed its key, and is told so. -/
theorem failed_result_iff_aborted :
    ∃ w res, World.Reachable exactEnv ⟨1, 2⟩ w ∧
      w.session.results exactEnv ⟨1, 2⟩ 0 = [.ok (some res)] ∧ res.maliciousError ≠ none ∧
      ∃ w₀ w₁, Passes exactEnv ⟨1, 2⟩ 0 w₀ w₁ ∧ w₀.session.Reveals 0 := by
  obtain ⟨w, hw, hy, hx, -, hrev⟩ := exists_run_oneActions
  obtain ⟨res, hres, -, ⟨w₀, w₁, hp, hl⟩, hiff⟩ :=
    failed_result_iff (r := 0) hw hy (by decide) hx rfl rfl (by decide)
  have hrev₀ := (hp.reveals_iff hl).1 hrev
  exact ⟨w, res, hw, hres, (hiff w₀ w₁ hp hl).2 hrev₀, w₀, w₁, hp, hrev₀⟩

end EggScrambler
