import Mathlib
import EggScrambler.HonestCluster
import EggScrambler.Freeze
import EggScrambler.Verdict

/-!
# What the users are told

The results that the clients of a cluster send to their users, for any interleaving.

* `results_agree`: participants that attend a round agree on how it ended, and on its result if it
  is done, whatever others do.
* `broadcast_correct`: in a cluster of honest clients, the result of a round that is done has the
  messages of all participants.
-/

namespace EggScrambler

open StateMachine Transition

/-! ## Agreement -/

/-- A snapshot that agrees with a round is determined by it. -/
theorem Snapshot.Agrees.unique {snap snap' : Snapshot} {r : ℤ} {ri : RoundInfo}
    (h : snap.Agrees r ri) (h' : snap'.Agrees r ri) : snap = snap' := by
  obtain ⟨h₁, h₂, h₃, h₄⟩ := h
  obtain ⟨h₁', h₂', h₃', h₄'⟩ := h'
  cases snap
  cases snap'
  simp_all

/-- Two states of one run have the same picture of a round that is over. -/
theorem getRoundInfo_eq_of_follows {v u : StateMachine} (h : Follows v u ∨ Follows u v) {r : ℤ}
    {a b : RoundInfo} (hrv : r < v.round) (hru : r < u.round) (ha : v.getRoundInfo r = .ok a)
    (hb : u.getRoundInfo r = .ok b) : b = a := by
  rcases h with hf | hf
  · have hold := hf.finished r hrv b hb
    rw [ha] at hold
    exact (Except.ok.inj hold).symm
  · have hold := hf.finished r hru a ha
    rw [hb] at hold
    exact Except.ok.inj hold

/-- A client that attends a failed round is told so. -/
theorem results_of_failed {env : Env} {c : Client} {w : World} {r : ℤ} {ri : RoundInfo}
    (h : World.Reachable env c w) {x : Read} (hx : x ∈ w.session.reads)
    (hri : x.sm.getRoundInfo r = .ok ri) (hph : ri.phase = .failed) (hme : c.id ∈ ri.participants)
    (hatt : Attends w.session r) :
    ∃ res, w.session.results env c r = [.ok (some res)] ∧ res.succeeded = false := by
  obtain ⟨y, hy, hyr⟩ := hatt.start
  obtain ⟨sm, snap, -, hget, hres⟩ := h.result_eq hy (by omega) hx hri (Or.inr hph)
  rw [Client.sendRoundResult_of_failed snap hget hph hme] at hres
  exact ⟨_, hres, rfl⟩

section Cluster

variable {ι : Type} [DecidableEq ι] {D : Deployment ι} {C : Cluster ι}

/-- **Agreement.** Whatever others commit, two participants that attend a round to its end see the
same end of it; if the round is done they are told the same, and if it failed both are told so. -/
theorem results_agree (h : C.Reachable D) {i j : ι} {x y : Read}
    (hx : x ∈ (C.nodes i).world.session.reads) (hy : y ∈ (C.nodes j).world.session.reads) {r : ℤ}
    {a b : RoundInfo} (ha : x.sm.getRoundInfo r = .ok a) (hb : y.sm.getRoundInfo r = .ok b)
    (hrx : r < x.sm.round) (hry : r < y.sm.round) (hi : (D.clients i).id ∈ a.participants)
    (hj : (D.clients j).id ∈ a.participants) (hai : Attends (C.nodes i).world.session r)
    (haj : Attends (C.nodes j).world.session r) :
    b = a ∧ ((a.phase = .done ∧ ∃ res,
        (C.nodes i).world.session.results D.env (D.clients i) r = [res] ∧
        (C.nodes j).world.session.results D.env (D.clients j) r = [res]) ∨
      (a.phase = .failed ∧ ∃ res res', res.succeeded = false ∧ res'.succeeded = false ∧
        (C.nodes i).world.session.results D.env (D.clients i) r = [.ok (some res)] ∧
        (C.nodes j).world.session.results D.env (D.clients j) r = [.ok (some res')])) := by
  have hs := Cluster.Sound.of_reachable h
  have hup : ∀ {k : ι} {z : Read}, z ∈ (C.nodes k).world.session.reads →
      ∃ S ∈ states C.log, S.deepCopy = .ok z.sm := fun {k z} hz =>
    (hs k).updates z.sm (List.mem_append_right _ (List.mem_map_of_mem hz))
  obtain ⟨S, hS, hSx⟩ := hup hx
  obtain ⟨T, hT, hTy⟩ := hup hy
  have hSi := (reachable_of_mem_states hS).inv
  have hTi := (reachable_of_mem_states hT).inv
  have hf : Follows x.sm y.sm ∨ Follows y.sm x.sm :=
    (follows_total_of_mem_states hS hT).imp (fun hf => hf.deepCopy hSi hTi hSx hTy)
      fun hf => hf.deepCopy hTi hSi hTy hSx
  obtain rfl : b = a := getRoundInfo_eq_of_follows hf hrx hry ha hb
  have hview : IsView x.sm := ⟨S, reachable_of_mem_states hS, hSx⟩
  refine ⟨rfl, (hview.finished hrx ha).imp (fun hph => ⟨hph, ?_⟩) fun hph => ⟨hph, ?_⟩⟩
  · obtain ⟨snap, hag, hres⟩ := results_of_attends (hs i).reachable hx ha hph hi hai
    obtain ⟨snap', hag', hres'⟩ := results_of_attends (hs j).reachable hy hb hph hj haj
    rw [hag'.unique hag] at hres'
    exact ⟨_, hres, hres'⟩
  · obtain ⟨res, hres, hf⟩ := results_of_failed (hs i).reachable hx ha hph hi hai
    obtain ⟨res', hres', hf'⟩ := results_of_failed (hs j).reachable hy hb hph hj haj
    exact ⟨res, res', hf, hf', hres, hres'⟩

end Cluster

/-- Both clients have read the end of round 0 and were active all the time. -/
def pairRead (C : Cluster Bool) (i : Bool) : Prop :=
  ⟨twoDone pairCrypto pairMessages, true⟩ ∈ (C.nodes i).world.session.reads ∧
    (∃ x ∈ (C.nodes i).world.session.reads, x.sm.round < 0 ∨
      x.sm.round = 0 ∧ x.sm.currentRoundInfo.phase = .prepare) ∧
    ∀ x ∈ (C.nodes i).world.session.reads, x.sm.round = 0 → x.active = true

instance (C : Cluster Bool) (i : Bool) : Decidable (pairRead C i) := by
  unfold pairRead
  infer_instance

theorem exists_run_pairEvents :
    ∃ C, C.Reachable pairDeployment ∧ pairRead C false ∧ pairRead C true := by
  obtain ⟨C, hC, hread⟩ := exists_of_endsWith (by decide +kernel :
    endsWith (Cluster.step pairDeployment) {} pairEvents
      (fun C => decide (pairRead C false ∧ pairRead C true)) = true)
  exact ⟨C, ⟨_, hC⟩, of_decide_eq_true hread⟩

theorem results_agree_pair : ∃ (C : Cluster Bool) (res : Go (Option RoundResult)),
    C.Reachable pairDeployment ∧
    (C.nodes false).world.session.results exactEnv ⟨1, 2⟩ 0 = [res] ∧
    (C.nodes true).world.session.results exactEnv ⟨2, 2⟩ 0 = [res] := by
  obtain ⟨C, hC, ⟨hx, hx₁, hx₂⟩, hy, hy₁, hy₂⟩ := exists_run_pairEvents
  rcases (results_agree hC hx hy (r := 0) rfl rfl (by decide) (by decide) (by decide) (by decide)
    ⟨hx₁, hx₂⟩ ⟨hy₁, hy₂⟩).2 with ⟨-, res, hres⟩ | ⟨hph, -⟩
  · exact ⟨C, res, hC, hres⟩
  · cases hph

/-! ## Correctness -/

section Honest

variable {ι : Type} {D : Deployment ι} {C : Cluster ι} {i : ι} {x : Read} {r : ℤ}
  {ri : RoundInfo} {mo : Crypto}

theorem Cluster.Faithful.read_mem (hexact : D.env.Exact) (h : C.Faithful D)
    (hx : x ∈ (C.nodes i).world.session.reads) : x.sm ∈ states C.log :=
  states_take_subset _ _ ((h.nodes i).world.mem_of_mem_updates hexact x.sm
    (List.mem_append_right _ (List.mem_map_of_mem hx)))

/-- The participants of a round that is done have verified its crypto. -/
theorem Cluster.Faithful.verify_of_done (hexact : D.env.Exact) (h : C.Faithful D)
    (hx : x ∈ (C.nodes i).world.session.reads) (hri : x.sm.getRoundInfo r = .ok ri)
    (hph : ri.phase = .done) (hme : (D.clients i).id ∈ ri.participants)
    (hmo : ri.crypto = some mo) :
    mo.verify D.env ((D.clients i).messageSize + 16) = .ok () := by
  have hw := (h.nodes i).world
  have hmem := hw.mem_of_mem_updates hexact x.sm
    (List.mem_append_right _ (List.mem_map_of_mem hx))
  have hsub := (hw.spoken x.sm hmem r ri hri).later (by rw [hph]; decide) (by rw [hph]; decide) hme
  obtain ⟨g, hg, rfl⟩ := hw.reachable.generated_of_submits hsub
  obtain ⟨-, y, hy, hyr, hyph, hymo⟩ := (h.nodes i).planned g hg
  have hlt := hw.reachable.lt_of_finished hx hri (Or.inl hph)
  -- the update in which the client generated its keys comes before the end
  have hf : Follows y.sm x.sm := by
    refine (follows_total_of_mem_states (h.read_mem hexact hy)
      (h.read_mem hexact hx)).resolve_right fun hf => ?_
    have := hf.round_le
    omega
  have hfixed := (hf.later ri (hyr.symm ▸ hri)).fixed (by rw [hyph]; decide)
  rw [hfixed.2, hymo] at hmo
  cases hmo
  exact ((KeyInv.of_reachable hw.reachable).generated g hg).1

/-- **One verdict.** About a round that is done, and in which no message of exactly the maximum size
was submitted, every participant that has read its end sends the same verdict.  It has the messages
of all participants, less the empty ones, if the random bytes of the headers are distinct. -/
theorem Cluster.Faithful.exists_verdict (hexact : D.env.Exact) (hf : C.Faithful D)
    (hx : x ∈ (C.nodes i).world.session.reads) (hri : x.sm.getRoundInfo r = .ok ri)
    (hph : ri.phase = .done) (hme : (D.clients i).id ∈ ri.participants) (hmo : ri.crypto = some mo)
    (hfull : ∀ id ∈ ri.participants, (D.plan.text mo id r).length ≠ (D.clients i).messageSize) :
    ∃ verdict : Except MaliciousError (List Bytes),
      ((ri.participants.map fun id => D.plan.header mo id r).Nodup → ∃ messages,
        verdict = .ok messages ∧
        messages.Perm ((ri.participants.map fun id => D.plan.text mo id r).filter (· ≠ []))) ∧
      ∀ j y b, y ∈ (C.nodes j).world.session.reads → r < y.sm.round →
        y.sm.getRoundInfo r = .ok b → (D.clients j).id ∈ b.participants →
        (C.nodes j).world.session.results D.env (D.clients j) r =
          [.ok (RoundResult.ofVerdict r verdict)] := by
  have hv := hf.verify_of_done hexact hx hri hph hme hmo
  obtain ⟨hmem, snap, hag, -⟩ := (hf.nodes i).world.results_eq hexact hx hri hph hme
  have hout := outcome_of_done hexact (hf.nodes i).world.honestRun.1 hmem hri hph hmo hv
  obtain ⟨verdict, hok, hall⟩ := hout.verifyRound_of_lt hag hmo (Crypto.bytesMaxSize_of_verify hv)
    fun id hid => lt_of_le_of_ne (Crypto.messageSize_of_verify hv ▸ D.plan.length_text_le mo id r)
      (hfull id hid)
  refine ⟨verdict, hall, fun j y b hy hry hb hj => ?_⟩
  have hlt := (hf.nodes i).world.reachable.lt_of_finished hx hri (Or.inl hph)
  obtain rfl : b = ri := getRoundInfo_eq_of_follows
    (follows_total_of_mem_states (hf.read_mem hexact hx) (hf.read_mem hexact hy)) hlt hry hri hb
  obtain ⟨-, snap', hag', hres⟩ := (hf.nodes j).world.results_eq hexact hy hb hph hj
  rw [hag'.unique hag, hok] at hres
  exact hres

/-- **Correctness.** In a cluster of honest clients, let a round be done in which no message has
exactly the maximum size and the random bytes of the headers are distinct.  Then there is one list
of the messages of all participants, less the empty ones, and every participant that has read the
end of the round sends one result: a success with this list. -/
theorem broadcast_correct [DecidableEq ι] (hexact : D.env.Exact)
    (hids : Function.Injective fun i => (D.clients i).id) (hhostile : ∀ op, D.hostile op = false)
    (h : C.Reachable D) (hx : x ∈ (C.nodes i).world.session.reads)
    (hri : x.sm.getRoundInfo r = .ok ri) (hph : ri.phase = .done)
    (hme : (D.clients i).id ∈ ri.participants) (hmo : ri.crypto = some mo)
    (hsize : (D.clients i).messageSize ≠ 0)
    (hnonce : (ri.participants.map fun id => D.plan.header mo id r).Nodup)
    (hlen : ∀ id ∈ ri.participants,
      (D.plan.message id r).length ≠ (D.clients i).messageSize) :
    ∃ messages,
      messages.Perm ((ri.participants.map fun id => D.plan.text mo id r).filter (· ≠ [])) ∧
      ∀ j y b, y ∈ (C.nodes j).world.session.reads → r < y.sm.round →
        y.sm.getRoundInfo r = .ok b → (D.clients j).id ∈ b.participants →
        (C.nodes j).world.session.results D.env (D.clients j) r = [.ok (some
          { round := r, succeeded := true, messages, maliciousError := none })] := by
  have hf := Cluster.Faithful.of_reachable hexact hids hhostile h
  obtain ⟨verdict, hall, hres⟩ := hf.exists_verdict hexact hx hri hph hme hmo fun id hid =>
    D.plan.length_text_ne mo id r hsize (hlen id hid)
  obtain ⟨messages, rfl, hperm⟩ := hall hnonce
  exact ⟨messages, hperm, hres⟩

end Honest

/-- The two clients of `pairEvents` both have the message of the other. -/
theorem broadcast_correct_pair : ∃ (C : Cluster Bool) (messages : List Bytes),
    C.Reachable pairDeployment ∧ messages.Perm [[65], [66]] ∧ ∀ i,
      (C.nodes i).world.session.results exactEnv (pairDeployment.clients i) 0 = [.ok (some
        { round := 0, succeeded := true, messages, maliciousError := none })] := by
  obtain ⟨C, hC, ⟨hx, -⟩, ⟨hy, -⟩⟩ := exists_run_pairEvents
  have hri : (twoDone pairCrypto pairMessages).getRoundInfo 0 =
      .ok (twoRound pairCrypto pairMessages) := rfl
  have htexts : (([1, 2] : List UUID).map fun id => twoPlan.text pairCrypto id 0).filter (· ≠ []) =
      [[65], [66]] := by decide +kernel
  obtain ⟨messages, hperm, hall⟩ := broadcast_correct (i := false) exactEnv_exact (by decide)
    (fun _ => rfl) hC hx hri rfl (by decide) rfl (by decide) (by decide +kernel)
    fun _ _ => (by decide : (1 : ℕ) ≠ 2)
  refine ⟨C, messages, hC, htexts ▸ hperm, fun i => ?_⟩
  cases i with
  | false => exact hall false _ _ hx (by decide) hri (by decide)
  | true => exact hall true _ _ hy (by decide) hri (by decide)

end EggScrambler
