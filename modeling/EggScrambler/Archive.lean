import Mathlib
import EggScrambler.Order

/-!
# The ring of rounds as a window on all rounds

A replica stores three rounds, at their number modulo three, and a handler writes through a pointer
to the current one before it resets the slot of the next.  `Archive` is the machine that one would
like to reason about instead: it has a place for every round number and writes to a place only while
that round is the current one.  `RoundInfo.accept` is what an operation does to a round, as a
function.

`Window a sm` says that `sm` shows what `a` has stored about the last three rounds.  It holds at
first, one operation keeps it (`Window.apply`), and so it holds after every log.
-/

namespace EggScrambler

open StateMachine Transition

namespace RoundInfo

/-- What a list operation of the stage `st` makes of a round, if it takes effect. -/
def acceptList (ri : RoundInfo) (st : Stage) (id : UUID) (messages : List Msg) (prev : ℤ) :
    Option RoundInfo :=
  if ri.phase = st.phase then
    (ri.participantIndex id).bind fun p =>
      if (numTrue (st.flags ri) : ℤ) = st.ticket prev p ∧ (st.flags ri)[p]? = some false then
        some (ri.install st p messages)
      else none
  else none

/-- What an operation makes of a round, if it takes effect. -/
def accept (ri : RoundInfo) : Op → Option RoundInfo
  | .join id _ =>
    if ri.phase = .prepare ∧ id ∉ ri.participants then some (ri.addParticipant id) else none
  | .start _ _ crypto =>
    if ri.phase = .prepare then some { ri with phase := .submit, crypto } else none
  | .message id _ msg hash =>
    if ri.phase = .submit then (ri.participantIndex id).map (ri.putMessage · msg hash) else none
  | .encrypted id _ messages prev => ri.acceptList .encrypt id messages prev
  | .scrambled id _ messages => ri.acceptList .scramble id messages 0
  | .decrypted id _ messages prev => ri.acceptList .decrypt id messages prev
  | .reveal id _ key =>
    if ri.phase = .reveal then (ri.participantIndex id).map (ri.putKey · key) else none
  | .abort _ => some { ri with phase := .failed }

theorem acceptList_eq_some_iff {ri ri' : RoundInfo} {st : Stage} {id : UUID} {r : ℤ}
    {messages : List Msg} {prev : ℤ} :
    ri.acceptList st id messages prev = some ri' ↔ Accepts ri (st.op id r messages prev) ri' := by
  unfold acceptList
  constructor
  · intro h
    split_ifs at h with hph
    obtain ⟨p, hp, h⟩ := Option.bind_eq_some_iff.1 h
    split_ifs at h with ht
    cases h
    exact .transform st prev hph hp ht.1 ht.2
  · intro h
    obtain ⟨hph, p, hp, hn, hf, rfl⟩ := Accepts.of_op st prev h
    rw [if_pos hph, hp, Option.bind_some, if_pos ⟨hn, hf⟩]

/-- `accept` computes `Accepts`. -/
theorem accept_eq_some_iff {ri ri' : RoundInfo} (h : RoundInv ri) {op : Op} :
    ri.accept op = some ri' ↔ Accepts ri op ri' := by
  cases op with
  | join id r =>
    simp only [accept, Option.ite_none_right_eq_some, Option.some.injEq]
    constructor
    · rintro ⟨⟨hph, hid⟩, rfl⟩
      exact .join hph hid
    · intro ha
      obtain ⟨hph, hid, rfl⟩ := ha.of_join
      exact ⟨⟨hph, hid⟩, rfl⟩
  | start id r crypto =>
    simp only [accept, Option.ite_none_right_eq_some, Option.some.injEq]
    constructor
    · rintro ⟨hph, rfl⟩
      exact .start hph
    · intro ha
      obtain ⟨hph, rfl⟩ := ha.of_start
      exact ⟨hph, rfl⟩
  | message id r msg hash =>
    simp only [accept, Option.ite_none_right_eq_some, Option.map_eq_some_iff]
    constructor
    · rintro ⟨hph, p, hp, rfl⟩
      have hlt := participantIndex_lt hp
      have hlen := h.messages_length (by rw [hph]; decide)
      exact .message hph hp (hlen ▸ hlt) (h.hashes_length ▸ hlt)
    · intro ha
      obtain ⟨hph, p, hp, rfl⟩ := ha.of_message
      exact ⟨hph, p, hp, rfl⟩
  | encrypted id r messages prev => exact acceptList_eq_some_iff
  | scrambled id r messages => exact acceptList_eq_some_iff
  | decrypted id r messages prev => exact acceptList_eq_some_iff
  | reveal id r key =>
    simp only [accept, Option.ite_none_right_eq_some, Option.map_eq_some_iff]
    constructor
    · rintro ⟨hph, p, hp, rfl⟩
      exact .reveal hph hp (h.keys_length ▸ participantIndex_lt hp)
    · intro ha
      obtain ⟨hph, p, hp, -, rfl⟩ := ha.of_reveal
      exact ⟨hph, p, hp, rfl⟩
  | abort r =>
    simp only [accept, Option.some.injEq]
    constructor
    · rintro rfl
      exact .abort
    · intro ha
      exact ha.of_abort.symm

end RoundInfo

/-- The reference machine: every round has a place of its own. -/
structure Archive where
  round : ℤ
  rounds : ℤ → RoundInfo

namespace Archive

/-- No round has a phase, except that round zero can be joined. -/
def new : Archive := ⟨0, Function.update (fun _ => {}) 0 { phase := .prepare }⟩

/-- Write to the current round; once it is finished the next one can be joined. -/
def advance (a : Archive) (ri : RoundInfo) : Archive :=
  let rounds := Function.update a.rounds a.round ri
  if ri.phase = .done ∨ ri.phase = .failed then
    ⟨a.round + 1, Function.update rounds (a.round + 1) { phase := .prepare }⟩
  else ⟨a.round, rounds⟩

def apply (a : Archive) (op : Op) : Archive :=
  if op.round = a.round then
    match (a.rounds a.round).accept op with
    | some ri => a.advance ri
    | none => a
  else a

/-- The archive after a log. -/
def run (a : Archive) (log : List Op) : Archive := log.foldl apply a

theorem round_le_advance (a : Archive) (ri : RoundInfo) : a.round ≤ (a.advance ri).round := by
  simp only [advance]
  split_ifs <;> simp

theorem rounds_advance_of_lt {a : Archive} {r : ℤ} (hr : r < a.round) (ri : RoundInfo) :
    (a.advance ri).rounds r = a.rounds r := by
  have h₁ : r ≠ a.round + 1 := by omega
  unfold advance
  split_ifs
  · exact (Function.update_of_ne h₁ _ _).trans (Function.update_of_ne hr.ne _ _)
  · exact Function.update_of_ne hr.ne _ _

theorem rounds_advance_self (a : Archive) (ri : RoundInfo) :
    (a.advance ri).rounds a.round = ri := by
  have h₁ : a.round ≠ a.round + 1 := by omega
  unfold advance
  split_ifs
  · exact (Function.update_of_ne h₁ _ _).trans (Function.update_self ..)
  · exact Function.update_self ..

/-- An operation leaves the finished rounds alone. -/
theorem apply_frame (a : Archive) (op : Op) :
    a.round ≤ (a.apply op).round ∧ ∀ r < a.round, (a.apply op).rounds r = a.rounds r := by
  unfold apply
  split_ifs
  · split
    · exact ⟨round_le_advance a _, fun r hr => rounds_advance_of_lt hr _⟩
    · exact ⟨le_rfl, fun _ _ => rfl⟩
  · exact ⟨le_rfl, fun _ _ => rfl⟩

theorem run_frame (a : Archive) (log : List Op) :
    a.round ≤ (a.run log).round ∧ ∀ r < a.round, (a.run log).rounds r = a.rounds r := by
  induction log generalizing a with
  | nil => exact ⟨le_rfl, fun _ _ => rfl⟩
  | cons op log ih =>
    obtain ⟨hle, hold⟩ := a.apply_frame op
    obtain ⟨hle', hold'⟩ := ih (a.apply op)
    exact ⟨hle.trans hle', fun r hr => (hold' r (hr.trans_le hle)).trans (hold r hr)⟩

/-- The rounds before the current one are over. -/
def Closed (a : Archive) : Prop :=
  ∀ r, 0 ≤ r → r < a.round → (a.rounds r).phase = .done ∨ (a.rounds r).phase = .failed

theorem Closed.advance {a : Archive} (h : a.Closed) (ri : RoundInfo) : (a.advance ri).Closed := by
  intro r h₀ hr
  rcases lt_trichotomy r a.round with hlt | rfl | hgt
  · rw [rounds_advance_of_lt hlt]
    exact h r h₀ hlt
  · rw [rounds_advance_self]
    by_contra hfin
    simp [Archive.advance, hfin] at hr
  · simp only [Archive.advance] at hr
    split_ifs at hr
    · dsimp only at hr
      omega
    · dsimp only at hr
      omega

theorem Closed.run {a : Archive} (h : a.Closed) (log : List Op) : (a.run log).Closed := by
  induction log generalizing a with
  | nil => exact h
  | cons op log ih =>
    refine ih ?_
    unfold apply
    split_ifs
    · split
      · exact h.advance _
      · exact h
    · exact h

theorem closed_new : new.Closed := fun _ h₀ hr => absurd hr (not_lt.2 h₀)

end Archive

/-! ## The window -/

/-- The replica shows what the archive has stored. -/
structure Window (a : Archive) (sm : StateMachine) : Prop where
  round_eq : a.round = sm.round
  shows : ∀ r ri, sm.getRoundInfo r = .ok ri → a.rounds r = ri

namespace Window

variable {a : Archive} {sm sm' : StateMachine}

theorem new : Window Archive.new newStateMachine where
  round_eq := rfl
  shows r ri hri := by
    obtain ⟨h₀, h₁, -, rfl⟩ := getRoundInfo_eq_ok_iff.1 hri
    obtain rfl : r = 0 := le_antisymm h₁ h₀
    rfl

theorem current (h : Window a sm) (hsm : Inv sm) : a.rounds a.round = sm.currentRoundInfo := by
  rw [h.round_eq]
  exact h.shows _ _ (getRoundInfo_currentRoundInfo hsm.round_nonneg)

theorem advance (h : Window a sm) (hsm : Inv sm) (ri : RoundInfo) :
    Window (a.advance ri) (sm.advance ri) where
  round_eq := by
    unfold StateMachine.advance
    simp only [Archive.advance, h.round_eq]
    split_ifs <;> simp
  shows r x hx := by
    rcases getRoundInfo_advance hsm.round_nonneg hx with ⟨hlt, hold⟩ | ⟨rfl, rfl⟩ | ⟨rfl, rfl⟩
    · rw [Archive.rounds_advance_of_lt (h.round_eq ▸ hlt)]
      exact h.shows r x hold
    · rw [← h.round_eq, Archive.rounds_advance_self]
    · -- the next round can only be retrieved if this one is finished
      have hr := (getRoundInfo_eq_ok_iff.1 hx).2.1
      unfold StateMachine.advance at hr
      simp only [Archive.advance, h.round_eq]
      split_ifs at hr ⊢
      · exact Function.update_self ..
      · rw [round_setCurrent] at hr
        omega

/-- The replica shows what the archive has stored also after an operation. -/
theorem apply (h : Window a sm) (hsm : Inv sm) {op : Op} {b : Bool}
    (hs : sm.apply op = .ok (sm', b)) : Window (a.apply op) sm' := by
  have hiff : ∀ {ri}, (a.rounds a.round).accept op = some ri ↔ Accepts sm.currentRoundInfo op ri :=
    fun {ri} => by rw [h.current hsm]; exact RoundInfo.accept_eq_some_iff hsm.current
  unfold Archive.apply
  cases b with
  | true =>
    obtain ⟨hr, ri, ha, rfl⟩ := apply_true_iff.1 hs
    rw [if_pos (hr.trans h.round_eq.symm), hiff.2 ha]
    exact h.advance hsm ri
  | false =>
    obtain rfl := eq_of_apply_false hs
    split_ifs with hr
    · split
      · rename_i ri ha
        rw [apply_of_accepts (hr.trans h.round_eq) (hiff.1 ha)] at hs
        simp at hs
      · exact h
    · exact h

/-- The same after a log. -/
theorem run (h : Window a sm) (hsm : Inv sm) {log : List Op}
    (hrun : Transition.run StateMachine.apply sm log = .ok sm') : Window (a.run log) sm' := by
  induction log generalizing a sm with
  | nil =>
    cases hrun
    exact h
  | cons op log ih =>
    obtain ⟨⟨t, b⟩, hs, ht⟩ := run_cons_iff.1 hrun
    exact ih (h.apply hsm hs) (hsm.apply hs) ht

end Window

/-- A round before the current one is over. -/
theorem StateMachine.Reachable.finished {sm : StateMachine} (h : StateMachine.Reachable sm) {r : ℤ}
    {ri : RoundInfo} (hr : r < sm.round) (hri : sm.getRoundInfo r = .ok ri) :
    ri.phase = .done ∨ ri.phase = .failed := by
  obtain ⟨log, hrun⟩ := h
  have hw := Window.new.run Inv.new hrun
  rw [← hw.shows r ri hri]
  exact Archive.closed_new.run log r (getRoundInfo_eq_ok_iff.1 hri).1 (hw.round_eq ▸ hr)

/-- **The ring refines the archive.** After every log, `GetRoundInfo` fails outside the last three
rounds and returns what the archive has stored otherwise; so a finished round is done or failed, and
after any further operations it is returned unchanged as long as it is returned at all. -/
theorem getRoundInfo_archive (log : List Op) :
    ∃ sm, run apply newStateMachine log = .ok sm ∧ sm.round = (Archive.new.run log).round ∧
      ∀ r : ℤ,
        ((∃ e, sm.getRoundInfo r = .error e) ↔ r < 0 ∨ sm.round < r ∨ r ≤ sm.round - 3) ∧
        (∀ ri, sm.getRoundInfo r = .ok ri → ri = (Archive.new.run log).rounds r) ∧
        (r < sm.round → ∀ ri, sm.getRoundInfo r = .ok ri →
          (ri.phase = .done ∨ ri.phase = .failed) ∧
          ∀ log', ∃ sm', run apply sm log' = .ok sm' ∧
            ∀ ri', sm'.getRoundInfo r = .ok ri' → ri' = ri) := by
  obtain ⟨sm, hrun, hsm⟩ := run_total (fun s op hs => Inv.apply_total hs op) Inv.new log
  have hw := Window.new.run Inv.new hrun
  refine ⟨sm, hrun, hw.round_eq.symm, fun r => ⟨?_, fun ri hri => (hw.shows r ri hri).symm, ?_⟩⟩
  · unfold getRoundInfo
    split_ifs <;> simp <;> omega
  · intro hr ri hri
    have hold := hw.shows r ri hri
    refine ⟨StateMachine.Reachable.finished ⟨log, hrun⟩ hr hri, fun log' => ?_⟩
    obtain ⟨sm', hrun', hsm'⟩ := run_total (fun s op hs => Inv.apply_total hs op) hsm log'
    refine ⟨sm', hrun', fun ri' hri' => ?_⟩
    rw [← (hw.run hsm hrun').shows r ri' hri', (Archive.run_frame _ log').2 r (hw.round_eq ▸ hr),
      hold]

end EggScrambler
