import Mathlib
import EggScrambler.ResultChannel
import EggScrambler.Freeze

/-!
# From the goroutines to the user

A client with its result channel: the loop of `readUpdates` starts goroutines, each of which works
out the result of a round in its own time, and hands it to the user if there is a channel.

* `delivered_once`: about a round the user is told once at most, and what the goroutine of this
  round found out.
* `listener_told_all`: a user that keeps its channel and reads is told about all rounds.
* `order_spec`, `ordered_results`: `resultOrderer` puts what the user receives in order, so that the
  `i`-th result is that of round `i`, and keeps nothing back that is next.
-/

namespace EggScrambler

open StateMachine Transition

/-! ## The client and its channel -/

/-- A client, with its goroutines by the order in which they were started. -/
structure Reporting where
  world : World := {}
  /-- The goroutines that have worked out what to send. -/
  reported : List ℕ := []
  channel : ResultChannel := {}

inductive ReportingEvent where
  | act (a : Action)
  /-- Goroutine `k` comes to the last lines of `sendRoundResult`, or returns before them. -/
  | report (k : ℕ)
  | channel (e : ResultEvent)
  deriving Inhabited

namespace Reporting

/-- One step; goroutines come to the channel only with a result. -/
def step (env : Env) (c : Client) (s : Reporting) : ReportingEvent → Go (Reporting × Bool)
  | .act a => do
    let (world, b) ← s.world.step env c a
    return ({ s with world }, b)
  | .report k =>
    match s.world.session.tasks.reverse[k]? with
    | none => return (s, false)
    | some t =>
      if k ∈ s.reported then return (s, false)
      else do
        match ← t.result env c with
        | none => return ({ s with reported := k :: s.reported }, true)
        | some res => do
          let (channel, _) ← s.channel.step env (.spawn res)
          return ({ s with reported := k :: s.reported, channel }, true)
  | .channel (.spawn _) => return (s, false)
  | .channel e => do
    let (channel, b) ← s.channel.step env e
    return ({ s with channel }, b)

/-- The states after any events. -/
def Reachable (env : Env) (c : Client) (s : Reporting) : Prop := Leads (step env c) {} s

/-- What goroutine `k` has for the user. -/
def outcome (env : Env) (c : Client) (tasks : List Task) (k : ℕ) : Option RoundResult :=
  tasks.reverse[k]?.bind fun t => (t.result env c).toOption.join

structure Sound (env : Env) (c : Client) (s : Reporting) : Prop where
  world : World.Reachable env c s.world
  channel : s.channel.Reachable env
  nodup : s.reported.Nodup
  lt : ∀ k ∈ s.reported, k < s.world.session.tasks.length
  senders : s.channel.senders.map Sender.result =
    s.reported.reverse.filterMap (outcome env c s.world.session.tasks)

/-- What an event can do. -/
inductive Tells (env : Env) (c : Client) (s : Reporting) : ReportingEvent → Reporting → Prop
  | act {a : Action} {world : World} {b : Bool} (h : s.world.step env c a = .ok (world, b)) :
      Tells env c s (.act a) { s with world }
  | silent {k : ℕ} {t : Task} (hk : s.world.session.tasks.reverse[k]? = some t)
      (hnew : k ∉ s.reported) (hres : t.result env c = .ok none) :
      Tells env c s (.report k) { s with reported := k :: s.reported }
  | report {k : ℕ} {t : Task} {res : RoundResult} {channel : ResultChannel} {b : Bool}
      (hk : s.world.session.tasks.reverse[k]? = some t) (hnew : k ∉ s.reported)
      (hres : t.result env c = .ok (some res))
      (hch : s.channel.step env (.spawn res) = .ok (channel, b)) :
      Tells env c s (.report k) { s with reported := k :: s.reported, channel }
  | channel {e : ResultEvent} {channel : ResultChannel} {b : Bool} (he : ∀ res, e ≠ .spawn res)
      (h : s.channel.step env e = .ok (channel, b)) : Tells env c s (.channel e) { s with channel }
  | stay (e : ReportingEvent) : Tells env c s e s

variable {env : Env} {c : Client} {s t : Reporting} {e : ReportingEvent} {b : Bool}

/-- A step is of one of these forms. -/
theorem Tells.of_step (h : s.step env c e = .ok (t, b)) : Tells env c s e t := by
  cases e with
  | act a =>
    obtain ⟨⟨world, b⟩, hw, h⟩ := bind_eq_ok_iff.1 h
    cases h
    exact .act hw
  | report k =>
    unfold step at h
    dsimp only at h
    split at h
    · cases h
      exact .stay _
    · rename_i task hk
      split_ifs at h with hold
      · cases h
        exact .stay _
      · obtain ⟨o, hres, h⟩ := bind_eq_ok_iff.1 h
        cases o with
        | none =>
          cases h
          exact .silent hk hold hres
        | some res =>
          obtain ⟨⟨channel, b⟩, hch, h⟩ := bind_eq_ok_iff.1 h
          cases h
          exact .report hk hold hres hch
  | channel e =>
    cases e with
    | spawn res =>
      cases h
      exact .stay _
    | _ =>
      obtain ⟨⟨channel, b⟩, hch, h⟩ := bind_eq_ok_iff.1 h
      cases h
      exact .channel (by simp) hch

end Reporting

/-! ## The results of the goroutines -/

/-- Goroutines are only added. -/
theorem Steps.exists_tasks {env : Env} {c : Client} {w w' : World} {act : Action}
    (h : Steps env c w act w') : ∃ new, w'.session.tasks = new ++ w.session.tasks := by
  cases h with
  | read hch ha => exact ⟨_, rfl⟩
  | configure => exact ⟨_, rfl⟩
  | commit | unseen | subscribe | stay => exact ⟨[], rfl⟩

/-- A goroutine reports about its own round, which is a round. -/
theorem Task.resultRound_of_result {env : Env} {c : Client} {t : Task} {res : RoundResult}
    (h : t.result env c = .ok (some res)) : t.resultRound = some res.round ∧ 0 ≤ res.round := by
  cases t with
  | sendRoundResult sm r snap =>
    rw [Task.result, Client.sendRoundResult] at h
    split at h
    · rename_i ri' hget
      obtain ⟨ri, hri, h⟩ := bind_eq_ok_iff.1 h
      obtain ⟨-, -, h⟩ := bind_eq_ok_iff.1 h
      have hround : res.round = r - 1 := by
        by_cases hme : c.id ∈ ri.participants
        · rw [if_neg (not_not.2 hme)] at h
          by_cases hph : ri.phase = .failed
          · rw [if_pos hph] at h
            cases h
            rfl
          · rw [if_neg hph] at h
            obtain ⟨-, -, h⟩ := bind_eq_ok_iff.1 h
            obtain ⟨o, -, h⟩ := bind_eq_ok_iff.1 h
            split at h <;> cases h <;> rfl
        · rw [if_pos hme] at h
          cases h
      refine ⟨congrArg some hround.symm, ?_⟩
      rw [hround]
      exact (getRoundInfo_eq_ok_iff.1 hget).1
    · obtain ⟨-, -, h⟩ := bind_eq_ok_iff.1 h
      obtain ⟨ri, hri, h⟩ := bind_eq_ok_iff.1 h
      obtain ⟨-, -, h⟩ := bind_eq_ok_iff.1 h
      cases hri
      rw [if_pos (by simp)] at h
      cases h
  | _ => cases h

namespace ResultChannel

/-- Only a new goroutine brings a new result. -/
theorem Moves.results {s t : ResultChannel} {e : ResultEvent} (h : Moves s e t)
    (he : ∀ res, e ≠ .spawn res) :
    t.senders.map Sender.result = s.senders.map Sender.result := by
  have hput : ∀ {k : ℕ} {res : RoundResult} {st st' : SenderState},
      s.senders[k]? = some ⟨res, st⟩ →
      (s.senders.set k ⟨res, st'⟩).map Sender.result = s.senders.map Sender.result := by
    intro k res st st' hk
    obtain ⟨l₁, l₂, hl, hset⟩ := Threads.exists_split hk
    rw [hset, hl]
    simp
  cases h with
  | spawn res => exact absurd rfl (he res)
  | skip hk | lock hk | receive hk | eat hj hk | unlock hk => exact hput hk
  | _ => rfl

end ResultChannel

namespace Reporting

variable {env : Env} {c : Client} {s t : Reporting} {e : ReportingEvent} {b : Bool}

theorem outcome_append {tasks new : List Task} {k : ℕ} (hk : k < tasks.length) :
    outcome env c (new ++ tasks) k = outcome env c tasks k := by
  rw [outcome, outcome, List.reverse_append, List.getElem?_append_left (by simpa using hk)]

namespace Sound

theorem init : Sound env c {} where
  world := Leads.refl _
  channel := Leads.refl _
  nodup := List.nodup_nil
  lt := by simp
  senders := rfl

/-- Every step keeps the correspondence of goroutines, senders and results. -/
theorem tells (h : s.Sound env c) (ht : Tells env c s e t) : t.Sound env c := by
  cases ht with
  | act hw =>
    obtain ⟨new, hnew⟩ := (Steps.of_step hw).exists_tasks
    refine { h with world := h.world.trans (Leads.of_step hw), lt := fun k hk => ?_, senders := ?_ }
    · have := h.lt k hk
      simp only [hnew, List.length_append]
      omega
    · rw [h.senders]
      refine List.filterMap_congr fun k hk => ?_
      rw [hnew, outcome_append (h.lt k (List.mem_reverse.1 hk))]
  | silent hk hnew hres =>
    have hlt := (List.getElem?_eq_some_iff.1 hk).1
    refine { h with nodup := h.nodup.cons hnew, lt := fun k' hk' => ?_, senders := ?_ }
    · rcases List.mem_cons.1 hk' with rfl | hk'
      · simpa using hlt
      · exact h.lt k' hk'
    · rw [h.senders]
      simp [outcome, hk, hres, Except.toOption]
  | report hk hnew hres hch =>
    have hlt := (List.getElem?_eq_some_iff.1 hk).1
    refine { h with
      channel := h.channel.trans (Leads.of_step hch)
      nodup := h.nodup.cons hnew
      lt := fun k' hk' => ?_
      senders := ?_ }
    · rcases List.mem_cons.1 hk' with rfl | hk'
      · simpa using hlt
      · exact h.lt k' hk'
    · cases hch
      rw [List.map_append, h.senders]
      simp [outcome, hk, hres, Except.toOption]
  | channel he hch =>
    refine { h with channel := h.channel.trans (Leads.of_step hch), senders := ?_ }
    rcases ResultChannel.moves_of_step hch with ⟨-, hm⟩ | ⟨-, rfl⟩
    · exact (hm.results he).trans h.senders
    · exact h.senders
  | stay => exact h

theorem of_reachable (h : s.Reachable env c) : s.Sound env c := by
  obtain ⟨events, hrun⟩ := h
  exact run_preserves (I := Sound env c) (fun s e t b hs hst => hs.tells (.of_step hst)) init hrun

/-- A result at the channel comes from a goroutine. -/
theorem exists_task {tasks : List Task} {k : ℕ} {res : RoundResult}
    (h : outcome env c tasks k = some res) :
    ∃ t, tasks.reverse[k]? = some t ∧ t.result env c = .ok (some res) := by
  obtain ⟨t, ht, hres⟩ := Option.bind_eq_some_iff.1 h
  exact ⟨t, ht, Conduct.toOption_join_eq_some hres⟩

/-- No two of them are about one round. -/
theorem nodup_rounds (h : s.Sound env c) :
    (s.channel.senders.map fun snd => snd.result.round).Nodup := by
  have honce : (s.world.session.tasks.reverse.filterMap Task.resultRound).Nodup := by
    rw [List.filterMap_reverse]
    exact List.nodup_reverse.2 h.world.reports.2.2.2.once
  have hmap : (s.channel.senders.map fun snd => snd.result.round) = s.reported.reverse.filterMap
      fun k => (outcome env c s.world.session.tasks k).map RoundResult.round := by
    rw [← List.map_filterMap, ← h.senders, List.map_map]
    rfl
  rw [hmap]
  refine (List.nodup_reverse.2 h.nodup).filterMap fun k k' r hk hk' => ?_
  obtain ⟨res, hres, rfl⟩ := Option.map_eq_some_iff.1 hk
  obtain ⟨res', hres', heq⟩ := Option.map_eq_some_iff.1 hk'
  obtain ⟨t, ht, hres⟩ := exists_task hres
  obtain ⟨t', ht', hres'⟩ := exists_task hres'
  have hr := (Task.resultRound_of_result hres).1
  have hr' := (Task.resultRound_of_result hres').1
  rw [heq] at hr'
  rw [List.Nodup, List.pairwise_filterMap, List.pairwise_iff_getElem] at honce
  obtain ⟨hlt, rfl⟩ := List.getElem?_eq_some_iff.1 ht
  obtain ⟨hlt', rfl⟩ := List.getElem?_eq_some_iff.1 ht'
  rcases lt_trichotomy k k' with hk | hk | hk
  · exact absurd rfl (honce k k' hlt hlt' hk _ hr _ hr')
  · exact hk
  · exact absurd rfl (honce k' k hlt' hlt hk _ hr' _ hr)

/-- What a goroutine sends is the result of its round. -/
theorem results_eq (h : s.Sound env c) {snd : Sender} (hsnd : snd ∈ s.channel.senders) :
    s.world.session.results env c snd.result.round = [.ok (some snd.result)] ∧
      0 ≤ snd.result.round := by
  have hmem := List.mem_map_of_mem (f := Sender.result) hsnd
  rw [h.senders] at hmem
  obtain ⟨k, -, hk⟩ := List.mem_filterMap.1 hmem
  obtain ⟨t, ht, hres⟩ := exists_task hk
  obtain ⟨hr, h₀⟩ := Task.resultRound_of_result hres
  have htask := List.mem_reverse.1 (List.mem_of_getElem? ht)
  rw [h.world.results_of_mem htask hr, hres]
  exact ⟨rfl, h₀⟩

end Sound

/-- What was received was sent by a goroutine. -/
theorem Sender.result_of_delivered {snd : Sender} {res : RoundResult}
    (h : snd.delivered = some res) : snd.result = res := by
  unfold Sender.delivered at h
  split at h
  · exact Option.some.inj h
  · exact Option.some.inj h
  · cases h

/-- **At most once.** Whatever happens, about a round the user and the goroutines of `DestroyResCh`
receive one result at most, and it is the one that the goroutine of this round has worked out. -/
theorem delivered_once (h : s.Reachable env c) :
    ((s.channel.received ++ s.channel.eaten).map RoundResult.round).Nodup ∧
    ∀ res ∈ s.channel.received ++ s.channel.eaten,
      s.world.session.results env c res.round = [.ok (some res)] := by
  have hs := Sound.of_reachable h
  have hperm := (ResultChannel.Sound.of_reachable hs.channel).delivered
  refine ⟨?_, fun res hres => ?_⟩
  · have hne := hs.nodup_rounds
    rw [List.Nodup, List.pairwise_map] at hne
    rw [(hperm.map _).nodup_iff, List.Nodup, List.pairwise_map, List.pairwise_filterMap]
    refine hne.imp fun hne x hx y hy => ?_
    rwa [← Sender.result_of_delivered hx, ← Sender.result_of_delivered hy]
  · obtain ⟨snd, hsnd, hdel⟩ := List.mem_filterMap.1 (hperm.mem_iff.1 hres)
    rw [← Sender.result_of_delivered hdel]
    exact (hs.results_eq hsnd).1

/-- The participant of `oneActions` is told that its round has failed. -/
def oneEvents : List ReportingEvent :=
  oneActions.map .act ++ (List.range 9).map .report ++
    [.channel (.lock 0), .channel (.receive 0), .channel (.unlock 0)]

def oneResult : RoundResult :=
  { round := 0, succeeded := false, maliciousError := some .revealKeySubmitted }

theorem exists_run_oneEvents : ∃ s t : Reporting, s.Reachable exactEnv ⟨1, 2⟩ ∧
    run (step exactEnv ⟨1, 2⟩) s oneEvents = .ok t ∧ s.channel.user = .listening 0 ∧
    s.channel.senders = [] ∧ t.channel.received = [oneResult] ∧
    t.world.session.tasks.length = 9 ∧ (∀ k ∈ List.range 9, k ∈ t.reported) ∧
    ∀ snd ∈ t.channel.senders, snd.state = .returned true := by
  have hbegin : run (step exactEnv ⟨1, 2⟩) {} [.channel .create, .channel .created] =
      .ok { channel := { resCh := some 0, made := 1, user := .listening 0 } } := rfl
  obtain ⟨t, ht, htest⟩ := exists_of_endsWith (by decide +kernel :
    endsWith (step exactEnv ⟨1, 2⟩)
      { channel := { resCh := some 0, made := 1, user := .listening 0 } } oneEvents
      (fun t : Reporting => decide (t.channel.received = [oneResult] ∧
        t.world.session.tasks.length = 9 ∧ (∀ k ∈ List.range 9, k ∈ t.reported) ∧
        ∀ snd ∈ t.channel.senders, snd.state = .returned true)) = true)
  exact ⟨_, t, ⟨_, hbegin⟩, ht, rfl, rfl, of_decide_eq_true htest⟩

theorem delivered_once_failed : ∃ s : Reporting, s.Reachable exactEnv ⟨1, 2⟩ ∧
    s.channel.received = [oneResult] ∧
    s.world.session.results exactEnv ⟨1, 2⟩ 0 = [.ok (some oneResult)] := by
  obtain ⟨s, t, hs, hrun, -, -, hreceived, -⟩ := exists_run_oneEvents
  have ht := hs.trans ⟨_, hrun⟩
  exact ⟨t, ht, hreceived, (delivered_once ht).2 oneResult (by simp [hreceived])⟩

end Reporting

/-! ## A user that listens -/

/-- The user has had the channel since the goroutines came to it. -/
structure ResultChannel.Attended (ch : ℕ) (s : ResultChannel) : Prop where
  user : s.user = .listening ch
  senders : ∀ snd ∈ s.senders, snd.state ≠ .returned false
  eaten : s.eaten = []

theorem ResultChannel.Attended.moves {ch : ℕ} {s t : ResultChannel} {e : ResultEvent}
    (h : s.Attended ch) (hs : s.Sound) (hm : Moves s e t) (he : e ≠ .destroy) : t.Attended ch := by
  have hch : s.resCh = some ch := by rw [← hs.user, h.user, UserState.channel]
  have hput : ∀ {k : ℕ} {snd : Sender}, snd.state ≠ .returned false →
      ∀ snd' ∈ s.senders.set k snd, snd'.state ≠ .returned false := by
    intro k snd hsnd snd' hmem
    rcases List.mem_or_eq_of_mem_set hmem with hmem | rfl
    · exact h.senders snd' hmem
    · exact hsnd
  have hother : ∀ {u : UserState}, s.user = u → u ≠ .listening ch → False :=
    fun hu hne => hne (hu.symm.trans h.user)
  cases hm with
  | spawn res =>
    refine ⟨h.user, fun snd hsnd => ?_, h.eaten⟩
    rcases List.mem_append.1 hsnd with hsnd | hsnd
    · exact h.senders snd hsnd
    · rw [List.mem_singleton.1 hsnd]
      simp
  | skip hk hmu hnone =>
    rw [hch] at hnone
    cases hnone
  | lock hk | receive hk | unlock hk => exact ⟨h.user, hput (by simp), h.eaten⟩
  | @eat j k ch' res hj hk =>
    -- a channel that is destroyed is not the one that the user has
    rcases hs.drainers ch' (List.mem_of_getElem? hj) with hclosed | hu
    · exact absurd hclosed (hs.isOpen ch' (hs.sending k _ ch' hk rfl)).2
    · exact (hother hu (by simp)).elim
  | create hu | created hu | destroyed hu => exact (hother hu (by simp)).elim
  | destroy => exact absurd rfl he
  | finish hj hclosed => exact ⟨h.user, h.senders, h.eaten⟩

/-- The indices of a list, in order, give its elements. -/
theorem filterMap_getElem?_range {α β : Type} (l : List α) (f : α → Option β) :
    (List.range l.length).filterMap (fun k => l[k]?.bind f) = l.filterMap f := by
  induction l using List.reverseRecOn with
  | nil => rfl
  | append_singleton l a ih =>
    rw [List.length_append, List.length_singleton, List.range_succ, List.filterMap_append,
      List.filterMap_append, ← ih]
    refine congrArg₂ (· ++ ·) (List.filterMap_congr fun k hk => ?_) ?_
    · rw [List.getElem?_append_left (List.mem_range.1 hk)]
    · rcases hb : f a with _ | b <;> simp [hb]

namespace Reporting

variable {env : Env} {c : Client} {s t : Reporting} {ch : ℕ}

theorem attended_of_run (h : s.Reachable env c) (ha : s.channel.Attended ch)
    {events : List ReportingEvent} (hrun : run (step env c) s events = .ok t)
    (hkeep : .channel .destroy ∉ events) : t.channel.Attended ch := by
  induction events generalizing s with
  | nil =>
    cases hrun
    exact ha
  | cons e events ih =>
    obtain ⟨⟨u, b⟩, hst, hrun⟩ := run_cons_iff.1 hrun
    refine ih (h.trans (Leads.of_step hst)) ?_ hrun fun hmem => hkeep (List.mem_cons_of_mem _ hmem)
    have hs := ResultChannel.Sound.of_reachable (Sound.of_reachable h).channel
    cases Tells.of_step hst with
    | act | silent | stay => exact ha
    | report hk hnew hres hch =>
      obtain ⟨-, hm⟩ | ⟨-, rfl⟩ := ResultChannel.moves_of_step hch
      · exact ha.moves hs hm (by simp)
      · exact ha
    | channel he hch =>
      obtain ⟨-, hm⟩ | ⟨-, rfl⟩ := ResultChannel.moves_of_step hch
      · refine ha.moves hs hm ?_
        rintro rfl
        exact hkeep List.mem_cons_self
      · exact ha

/-- **Told everything.** If a user creates its channel before any goroutine has a result and keeps
it, then once all goroutines have returned, it has received the result of every round for which
there is one, each of them once. -/
theorem listener_told_all (h : s.Reachable env c) (hu : s.channel.user = .listening ch)
    (hnew : s.channel.senders = []) {events : List ReportingEvent}
    (hrun : run (step env c) s events = .ok t) (hkeep : .channel .destroy ∉ events)
    (hdone : ∀ k < t.world.session.tasks.length, k ∈ t.reported)
    (hrest : ∀ snd ∈ t.channel.senders, ∃ sent, snd.state = .returned sent) :
    t.channel.received.Perm
      (t.world.session.tasks.filterMap fun task => (task.result env c).toOption.join) := by
  have hs := ResultChannel.Sound.of_reachable (Sound.of_reachable h).channel
  have ht := Sound.of_reachable (h.trans ⟨events, hrun⟩)
  have hnone : s.channel.received ++ s.channel.eaten = [] := by
    have := hs.delivered
    rw [hnew] at this
    exact this.eq_nil
  have ha : t.channel.Attended ch := attended_of_run h
    ⟨hu, by simp [hnew], (List.append_eq_nil_iff.1 hnone).2⟩ hrun hkeep
  have hall : t.channel.senders.filterMap Sender.delivered =
      t.channel.senders.map Sender.result := by
    rw [← List.filterMap_eq_map]
    refine List.filterMap_congr fun snd hsnd => ?_
    obtain ⟨sent, hst⟩ := hrest snd hsnd
    cases sent with
    | false => exact absurd hst (ha.senders snd hsnd)
    | true => simp [Sender.delivered, hst]
  have hperm : t.reported.Perm (List.range t.world.session.tasks.length) :=
    (List.perm_ext_iff_of_nodup ht.nodup List.nodup_range).2 fun k =>
      ⟨fun hk => List.mem_range.2 (ht.lt k hk), fun hk => hdone k (List.mem_range.1 hk)⟩
  have hdel := (ResultChannel.Sound.of_reachable ht.channel).delivered
  rw [ha.eaten, List.append_nil, hall, ht.senders] at hdel
  refine hdel.trans (((List.reverse_perm _).trans hperm).filterMap _ |>.trans ?_)
  rw [← List.length_reverse]
  unfold outcome
  rw [filterMap_getElem?_range, List.filterMap_reverse]
  exact List.reverse_perm _

theorem listener_told_all_failed : ∃ t : Reporting, t.Reachable exactEnv ⟨1, 2⟩ ∧
    t.channel.received = [oneResult] ∧
    t.channel.received.Perm (t.world.session.tasks.filterMap fun task =>
      (task.result exactEnv ⟨1, 2⟩).toOption.join) := by
  obtain ⟨s, t, hs, hrun, hu, hnew, hreceived, hlen, hall, hrest⟩ := exists_run_oneEvents
  exact ⟨t, hs.trans ⟨_, hrun⟩, hreceived, listener_told_all hs hu hnew hrun
    (by simp [oneEvents, oneActions, List.range_succ])
    (fun k hk => hall k (List.mem_range.2 (hlen ▸ hk)))
    fun snd hsnd => ⟨true, hrest snd hsnd⟩⟩

end Reporting

/-! ## Results in order -/

/-- `resultOrderer`, with what it has sent on `orderedResults`. -/
structure Orderer where
  results : List RoundResult := []
  applyIndex : ℕ := 0
  ordered : List RoundResult := []
  deriving DecidableEq

namespace Orderer

/-- What stands for a round that is not known yet. -/
def unknown : RoundResult := { round := -1, succeeded := false }

/-- `for len(results) <= round { .. }`. -/
def grow (results : List RoundResult) (round : ℤ) : List RoundResult :=
  results ++ List.replicate (round + 1 - results.length).toNat unknown

/-- One result from `unorderedResults`. -/
def step (o : Orderer) (r : RoundResult) : Go (Orderer × Bool) := do
  let results := grow o.results r.round
  let results ← if 0 ≤ r.round then setAt results r.round.toNat r else .error .indexOutOfRange
  -- the inner loop stops at the end, or at a round that is not known
  let ready := (results.drop o.applyIndex).takeWhile fun r => r.round ≠ -1
  return ({ results
            applyIndex := o.applyIndex + ready.length
            ordered := o.ordered ++ ready }, true)

/-- The invariant, after the results in `log`. -/
structure Inv (start : ℕ) (log : List RoundResult) (o : Orderer) : Prop where
  slots : ∀ (i : ℕ) (r : RoundResult), o.results[i]? = some r →
    r.round = -1 ∨ (r.round = i ∧ r ∈ log)
  nonneg : ∀ r ∈ log, 0 ≤ r.round
  known : ∀ r ∈ log, ∃ r', o.results[r.round.toNat]? = some r' ∧ r'.round = r.round
  index : o.applyIndex = start + o.ordered.length
  ordered : ∀ (i : ℕ) (r : RoundResult), o.ordered[i]? = some r →
    r ∈ log ∧ r.round = start + i
  next : ∀ r, o.results[o.applyIndex]? = some r → r.round = -1

theorem Inv.init (start : ℕ) : Inv start [] { applyIndex := start } where
  slots i r h := by simp at h
  nonneg r h := by cases h
  known r h := by cases h
  index := rfl
  ordered i r h := by simp at h
  next r h := by simp at h

/-- What the inner loop sends, and where it stops. -/
theorem takeWhile_drop_spec {α : Type} (l : List α) (p : α → Bool) (a : ℕ) :
    (∀ (i : ℕ) (x : α), ((l.drop a).takeWhile p)[i]? = some x → l[a + i]? = some x ∧ p x = true) ∧
    ∀ x, l[a + ((l.drop a).takeWhile p).length]? = some x → p x = false := by
  simp only [← List.getElem?_drop]
  generalize l.drop a = d
  have hsplit : d.takeWhile p ++ d.dropWhile p = d := List.takeWhile_append_dropWhile
  refine ⟨fun i x hx => ⟨?_, List.mem_takeWhile_imp (List.mem_of_getElem? hx)⟩, fun x hx => ?_⟩
  · rw [← hx]
    nth_rewrite 1 [← hsplit]
    exact List.getElem?_append_left (List.getElem?_eq_some_iff.1 hx).1
  · have hrest : d[(d.takeWhile p).length]? = (d.dropWhile p).head? := by
      nth_rewrite 1 [← hsplit]
      rw [List.getElem?_append_right le_rfl, Nat.sub_self, List.head?_eq_getElem?]
    have hhead := List.head?_dropWhile_not p d
    rw [← hrest, hx] at hhead
    exact hhead

theorem lt_length_grow (results : List RoundResult) {round : ℤ} (h₀ : 0 ≤ round) :
    round.toNat < (grow results round).length := by
  rw [grow, List.length_append, List.length_replicate]
  omega

/-- The table after a result. -/
theorem getElem?_grow_set {results : List RoundResult} {r : RoundResult} {i : ℕ}
    (h₀ : 0 ≤ r.round) : ((grow results r.round).set r.round.toNat r)[i]? =
      if r.round.toNat = i then some r else (grow results r.round)[i]? := by
  simp only [List.getElem?_set, if_pos (lt_length_grow results h₀)]

theorem getElem?_grow {results : List RoundResult} {round : ℤ} {i : ℕ} {x : RoundResult}
    (hx : (grow results round)[i]? = some x) : results[i]? = some x ∨ x = unknown := by
  rw [grow, List.getElem?_append] at hx
  split_ifs at hx
  · exact Or.inl hx
  · exact Or.inr (List.eq_of_mem_replicate (List.mem_of_getElem? hx))

/-- A result is stored in its slot, and those that are next are shown. -/
theorem Inv.step {start : ℕ} {log : List RoundResult} {o : Orderer} (h : Inv start log o)
    {r : RoundResult} (h₀ : 0 ≤ r.round) :
    ∃ o', o.step r = .ok (o', true) ∧ Inv start (log ++ [r]) o' := by
  have hlen := lt_length_grow o.results h₀
  obtain ⟨hready, hstop⟩ := takeWhile_drop_spec ((grow o.results r.round).set r.round.toNat r)
    (fun r => decide (r.round ≠ -1)) o.applyIndex
  have hslots : ∀ (i : ℕ) (x : RoundResult),
      ((grow o.results r.round).set r.round.toNat r)[i]? = some x →
      x.round = -1 ∨ (x.round = i ∧ x ∈ log ++ [r]) := by
    intro i x hx
    rw [getElem?_grow_set h₀] at hx
    split_ifs at hx with hi
    · cases hx
      exact Or.inr ⟨by omega, by simp⟩
    · rcases getElem?_grow hx with hx | rfl
      · exact (h.slots i x hx).imp_right fun hx => ⟨hx.1, List.mem_append_left _ hx.2⟩
      · exact Or.inl rfl
  refine ⟨_, by rw [Orderer.step, if_pos h₀, setAt, if_pos hlen]; rfl, hslots, ?_, ?_, ?_, ?_, ?_⟩
  · intro x hx
    rcases List.mem_append.1 hx with hx | hx
    · exact h.nonneg x hx
    · rwa [List.mem_singleton.1 hx]
  · intro x hx
    dsimp only
    rw [getElem?_grow_set h₀]
    split_ifs with heq
    · refine ⟨r, rfl, ?_⟩
      rcases List.mem_append.1 hx with hx | hx
      · have := h.nonneg x hx
        omega
      · rw [List.mem_singleton.1 hx]
    · rcases List.mem_append.1 hx with hx | hx
      · obtain ⟨x', hx', hround⟩ := h.known x hx
        refine ⟨x', ?_, hround⟩
        rwa [grow, List.getElem?_append_left (List.getElem?_eq_some_iff.1 hx').1]
      · rw [List.mem_singleton.1 hx] at heq
        exact absurd rfl heq
  · simp [h.index, Nat.add_assoc]
  · intro i x hx
    dsimp only at hx
    rw [List.getElem?_append] at hx
    split_ifs at hx with hlt
    · obtain ⟨hmem, hround⟩ := h.ordered i x hx
      exact ⟨List.mem_append_left _ hmem, hround⟩
    · obtain ⟨hslot, hknown⟩ := hready _ x hx
      obtain ⟨hround, hmem⟩ := (hslots _ x hslot).resolve_left (of_decide_eq_true hknown)
      have := h.index
      exact ⟨hmem, by omega⟩
  · intro x hx
    simpa using hstop x hx

/-- **Order.** From results in any order, the `i`-th one that is sent on is that of the `i`-th
round, and the next one is not there yet. -/
theorem order_spec (start : ℕ) {log : List RoundResult} (h₀ : ∀ r ∈ log, 0 ≤ r.round) :
    ∃ o, run step { applyIndex := start } log = .ok o ∧
      (∀ (i : ℕ) (r : RoundResult), o.ordered[i]? = some r → r ∈ log ∧ r.round = start + i) ∧
      ∀ r ∈ log, r.round ≠ start + o.ordered.length := by
  obtain ⟨o, hrun, h⟩ : ∃ o, run step { applyIndex := start } log = .ok o ∧ Inv start log o := by
    induction log using List.reverseRecOn with
    | nil => exact ⟨_, rfl, .init start⟩
    | append_singleton log r ih =>
      obtain ⟨o, hrun, h⟩ := ih fun x hx => h₀ x (List.mem_append_left _ hx)
      obtain ⟨o', hstep, h'⟩ := h.step (h₀ r (by simp))
      exact ⟨o', run_append_iff.2 ⟨o, hrun, run_cons_iff.2 ⟨_, hstep, rfl⟩⟩, h'⟩
  refine ⟨o, hrun, h.ordered, fun r hr heq => ?_⟩
  obtain ⟨r', hr', hround⟩ := h.known r hr
  have hindex : r.round.toNat = o.applyIndex := by
    have := h.index
    omega
  rw [hindex] at hr'
  have := h.next r' hr'
  have := h₀ r hr
  omega

end Orderer

/-- **In order and once.** What `resultOrderer` has made of what the user has received: the `i`-th
result is that of round `i`, as the goroutine of this round has worked it out, and if the result of
the next round has been received then it has been sent on. -/
theorem Reporting.ordered_results {env : Env} {c : Client} {s : Reporting}
    (h : s.Reachable env c) :
    ∃ o, run Orderer.step {} s.channel.received.reverse = .ok o ∧
      (∀ (i : ℕ) (res : RoundResult), o.ordered[i]? = some res →
        res.round = i ∧ s.world.session.results env c i = [.ok (some res)]) ∧
      ∀ res ∈ s.channel.received, res.round ≠ o.ordered.length := by
  have hs := Sound.of_reachable h
  have hperm := (ResultChannel.Sound.of_reachable hs.channel).delivered
  have hresult : ∀ res ∈ s.channel.received,
      s.world.session.results env c res.round = [.ok (some res)] ∧ 0 ≤ res.round := by
    intro res hres
    obtain ⟨snd, hsnd, hdel⟩ := List.mem_filterMap.1
      (hperm.mem_iff.1 (List.mem_append_left _ hres))
    rw [← Sender.result_of_delivered hdel]
    exact hs.results_eq hsnd
  obtain ⟨o, hrun, hord, hnext⟩ := Orderer.order_spec 0 fun res hres =>
    (hresult res (List.mem_reverse.1 hres)).2
  refine ⟨o, hrun, fun i res hi => ?_, fun res hres => ?_⟩
  · obtain ⟨hmem, hround⟩ := hord i res hi
    have hround : res.round = i := by simpa using hround
    exact ⟨hround, hround ▸ (hresult res (List.mem_reverse.1 hmem)).1⟩
  · simpa using hnext res (List.mem_reverse.2 hres)

theorem Reporting.ordered_results_failed : ∃ (s : Reporting) (o : Orderer),
    s.Reachable exactEnv ⟨1, 2⟩ ∧ s.channel.received = [oneResult] ∧
    run Orderer.step {} s.channel.received.reverse = .ok o ∧ o.ordered ≠ [] ∧
    ∀ (i : ℕ) (res : RoundResult), o.ordered[i]? = some res → res.round = i ∧
      s.world.session.results exactEnv ⟨1, 2⟩ i = [.ok (some res)] := by
  obtain ⟨s, t, hs, hrun, -, -, hreceived, -⟩ := exists_run_oneEvents
  have ht := hs.trans ⟨_, hrun⟩
  obtain ⟨o, ho, hord, hnext⟩ := ordered_results ht
  refine ⟨t, o, ht, hreceived, ho, ?_, hord⟩
  rintro hnil
  exact hnext oneResult (by simp [hreceived]) (by simp [hnil, oneResult])

end EggScrambler
