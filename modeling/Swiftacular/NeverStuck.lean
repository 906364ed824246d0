import Swiftacular.Lifetimes
import Swiftacular.WorkUnderway

/-!
No request of a Device waits for nothing, where each call in the pool has a
thread of it. Whatever a thread is doing, it can go on, or what it waits for
can: the search, the store's commit of what was handed over, or the submit
that hands it over and gets to its end; unless the store stopped.
-/
namespace Swiftacular.NeverStuck

open Function EntryStore EngineObjects Versions EngineRuns StepRuns LiveObjects DeviceRuns
  DeviceEngine DeviceWorld DeviceSteps DeviceInvariant DecisionOrder Lifetimes TurnTaking
  WorkUnderway

section Definitions

/-- The steps a thread takes itself. -/
def Own (t : ℕ) : Action → Prop
  | .go u _ | .move u | .resume u _ | .reap u => u = t
  | _ => False

def CanGo (conf : Conf) (w : World) (t : ℕ) : Prop := ∃ a, Own t a ∧ (w.step conf a).isSome

/-- There is a change to hand over that the store does not take. -/
def Stopped (w : World) : Prop := w.handed < w.batch ∧ w.hand = none

/-- Once the store commits what it was handed of a name, the thread can go on. -/
def Commits (conf : Conf) (w : World) (t : ℕ) (name : Name) : Prop :=
  ∃ v, w.step conf (.commit (conf.collection name) w.handed) = some v ∧ CanGo conf v t

/-- What a thread can go on after: nothing, or the search it waits for, or the
commit of what its future is for. A submit under way hands that over first, in
so many moves of its own, or the store stops on the way. -/
inductive Awaits (conf : Conf) (w : World) (t : ℕ) (th : Thread) : Prop
  | nothing (h : CanGo conf w t)
  | search (i : ℕ) (goal : Option Goal) (hframe : th.frame = some (.waiting i goal))
      (h : CanGo conf w i)
  | commit (id d : ℕ) (hnative : th.native = some (.sync id (.captured (some d))))
      (hhanded : d < w.handed) (h : Commits conf w t th.name)
  | submit (id d u moves : ℕ) (v : World)
      (hnative : th.native = some (.sync id (.captured (some d)))) (hlater : w.handed ≤ d)
      (hrun : w.run conf (List.replicate moves (.move u)) = some v)
      (h : Stopped v ∨ d < v.handed ∧ Commits conf v t th.name)

end Definitions

variable {conf : Conf} {G : Goal → Prop} {A : Answer → Option View → Prop} {r : Record}
  {s : EngineObjects.Store} {w w' w'' : World} {t id : ℕ} {th : Thread}

/-! Who can go on. -/

theorem canGo_go {us : UInt64} (hth : w.threads t = some th) (hnative : th.native = none)
    (h : (w.go conf t th us).isSome) : CanGo conf w t := by
  refine ⟨.go t us, rfl, ?_⟩
  unfold World.step
  simp only [hth, Option.bind_some, hnative, Option.isNone_none, if_true]
  exact h

theorem canGo_move (hth : w.threads t = some th) (h : (w.move t th).isSome) : CanGo conf w t := by
  refine ⟨.move t, rfl, ?_⟩
  unfold World.step
  simp only [hth, Option.bind_some]
  exact h

/-- A call that is over is returned from, or its thread ends with it. -/
theorem canGo_ended (hth : w.threads t = some th) (hended : w.ended conf th.name th.native = true)
    (h : th.frame = none ∨ (w.resume conf t th 0).isSome) : CanGo conf w t := by
  rcases h with hframe | hresume
  · refine ⟨.reap t, rfl, ?_⟩
    unfold World.step
    simp only [hth, Option.bind_some, hframe, hended, and_self, if_true, Option.isSome_some]
  · refine ⟨.resume t 0, rfl, ?_⟩
    unfold World.step
    simp only [hth, Option.bind_some, hended, if_true]
    exact hresume

theorem canGo_search (hr : Running conf G A r s w) (hth : w.threads t = some th)
    (hs : Searches th) : CanGo conf w t := by
  have hplaced := (hr.manned.crewed t th hth).2.placed
  unfold Placed at hplaced
  rcases hs with hframe | ⟨i, hframe⟩
  · rw [hframe] at hplaced
    refine @canGo_go conf w t th 0 hth hplaced.1 ?_
    unfold World.go
    rw [hframe]
    rfl
  · rw [hframe] at hplaced
    obtain ⟨-, -, o, ho, -, ⟨hnative, -⟩ | ⟨hnative, -⟩⟩ := hplaced
    · refine canGo_move hth ?_
      unfold World.move
      rw [hnative]
      rfl
    · refine canGo_ended hth (by rw [hnative]; rfl) (Or.inr ?_)
      unfold World.resume
      rw [hframe]
      rfl

/-- A thread with the submit lock, or about to try for it. -/
theorem canGo_submit {place : Stage} (hth : w.threads t = some th) (hstage : stage th = some place)
    (hplace : place = .enter ∨ place = .submitting) : Stopped w ∨ CanGo conf w t := by
  obtain ⟨n, hnative, hn⟩ := Option.bind_eq_some_iff.mp hstage
  have hsubmit : ∀ call : Stage → Native, Stopped w ∨ (w.submit t th place call).isSome := by
    intro call
    unfold World.submit
    rcases hplace with rfl | rfl
    · right
      dsimp only
      split <;> rfl
    · dsimp only
      split
      · rename_i hless
        cases hhand : w.hand with
        | none => exact Or.inl ⟨hless, hhand⟩
        | some v => exact Or.inr rfl
      · right
        split <;> rfl
  cases n with
  | submit place' =>
    obtain rfl := Option.some.inj hn
    refine (hsubmit .submit).imp_right fun h => canGo_move hth ?_
    unfold World.move
    rw [hnative]
    exact h
  | sync i place' =>
    obtain rfl := Option.some.inj hn
    refine (hsubmit (.sync i)).imp_right fun h => canGo_move hth ?_
    unfold World.move
    rw [hnative]
    rcases hplace with rfl | rfl
    · exact h
    · exact h
  | «open» i => contradiction
  | read part i offset size look => contradiction

/-- The calls a thread returns from. -/
def Over : Native → Prop
  | .submit .left | .sync _ (.captured _) => True
  | .read _ _ _ _ (.got _) => True
  | _ => False

/-- What a thread does after a call that is over does not depend on the rest. -/
theorem resumes {n : Native} (hplaced : Placed conf A r w th) (hnative : th.native = some n)
    (hover : Over n) (v : World) : th.frame = none ∨ (v.resume conf t th 0).isSome := by
  unfold Placed at hplaced
  cases hframe : th.frame with
  | none => exact Or.inl rfl
  | some frame =>
    right
    rw [hframe] at hplaced
    unfold World.resume
    rw [hframe, hnative]
    cases frame with
    | idle | opening | waiting | asking =>
      rw [hnative] at hplaced
      contradiction
    | search | starting =>
      rw [hnative] at hplaced
      exact absurd hplaced.1 (by simp)
    | searching i =>
      obtain ⟨-, -, o, -, -, ⟨hopen, -⟩ | ⟨hnone, -⟩⟩ := hplaced
      · rw [hnative] at hopen
        rw [Option.some.inj hopen] at hover
        contradiction
      · rw [hnative] at hnone
        contradiction
    | writing => rfl
    | syncing i answer => rfl
    | reading i version data tries goal =>
      dsimp only
      split <;> rfl
    | fetching i offset stop tries =>
      obtain ⟨size, look, hread⟩ := hplaced
      obtain rfl := Option.some.inj (hnative.symm.trans hread)
      cases look with
      | got result => rfl
      | start | «at» | seen => contradiction

theorem canGo_read (hr : Running conf G A r s w) (hth : w.threads t = some th) {part : Part}
    {offset size : ℕ} {look : Look} (hnative : th.native = some (.read part id offset size look)) :
    CanGo conf w t := by
  have hc := (hr.manned.crewed t th hth).2
  obtain ⟨o, ho, -⟩ := hc.alive id (keeps_native (by rw [hnative]; rfl))
  have hmove : (w.read t th part id offset size look).isSome → CanGo conf w t := by
    intro hsome
    refine canGo_move hth ?_
    unfold World.move
    rw [hnative]
    exact hsome
  cases look with
  | got result =>
    exact canGo_ended hth (by rw [hnative]; rfl) (resumes hc.placed hnative trivial w)
  | start =>
    refine hmove ?_
    unfold World.read
    rw [ho]
    dsimp only
    split
    · rfl
    · split <;> rfl
  | «at» a => exact hmove rfl
  | seen a found =>
    refine hmove ?_
    unfold World.read
    rw [ho]
    dsimp only
    split <;> rfl

/-! A submit that has the lock hands over everything. -/

/-- What the moves of a submit leave alone. -/
structure Hands (w w' : World) : Prop where
  core : w'.core = w.core
  threads : w'.threads = w.threads
  durable : w'.durable = w.durable
  handed : w.handed ≤ w'.handed

theorem Hands.refl (w : World) : Hands w w := ⟨rfl, rfl, rfl, le_refl _⟩

theorem Hands.trans (h : Hands w w') (h' : Hands w' w'') : Hands w w'' :=
  ⟨h'.core.trans h.core, h'.threads.trans h.threads, h'.durable.trans h.durable,
    h.handed.trans h'.handed⟩

/-- So many moves of a thread. -/
def Moves (conf : Conf) (t : ℕ) (w w' : World) : Prop :=
  ∃ n, w.run conf (List.replicate n (.move t)) = some w'

theorem Moves.step {w w' w'' : World} (hstep : w.step conf (.move t) = some w')
    (h : Moves conf t w' w'') : Moves conf t w w'' := by
  obtain ⟨n, hrun⟩ := h
  exact ⟨n + 1, Option.bind_eq_some_iff.mpr ⟨w', hstep, hrun⟩⟩

theorem Moves.trans {w w' w'' : World} (h : Moves conf t w w') (h' : Moves conf t w' w'') :
    Moves conf t w w'' := by
  obtain ⟨n, hrun⟩ := h
  obtain ⟨m, hrun'⟩ := h'
  refine ⟨n + m, ?_⟩
  rw [List.replicate_add]
  exact (run_append ..).trans (Option.bind_eq_some_iff.mpr ⟨w', hrun, hrun'⟩)

/-- A move of a thread in `submit` or `sync`, up to the end of its submit. -/
theorem step_submit {place : Stage} (hth : w.threads t = some th) (hstage : stage th = some place)
    (hplace : place = .enter ∨ place = .submitting) : ∃ call : Stage → Native,
      (∀ place, stageOf (call place) = some place) ∧
        w.step conf (.move t) = w.submit t th place call := by
  obtain ⟨n, hnative, hn⟩ := Option.bind_eq_some_iff.mp hstage
  have hstep : w.step conf (.move t) = w.move t th := by
    unfold World.step
    simp only [hth, Option.bind_some]
  unfold World.move at hstep
  rw [hnative] at hstep
  cases n with
  | submit place' =>
    obtain rfl := Option.some.inj hn
    exact ⟨.submit, fun _ => rfl, hstep⟩
  | sync i place' =>
    obtain rfl := Option.some.inj hn
    refine ⟨.sync i, fun _ => rfl, ?_⟩
    rcases hplace with rfl | rfl
    · exact hstep
    · exact hstep
  | «open» i => contradiction
  | read part i offset size look => contradiction

/-- One transaction, change by change. -/
theorem hands_one {txn : Txn} (hth : w.threads t = some th) (hstage : stage th = some .submitting)
    (hbatch : w.handed < w.batch) (htxn : w.core.log[w.handed]? = some txn) {left : ℕ}
    (hleft : txn.ops.length - w.part = left) : ∃ v, Moves conf t w v ∧ Hands w v ∧
      (Stopped v ∨ w.handed < v.handed) := by
  induction left generalizing w with
  | zero =>
    obtain ⟨call, -, hstep⟩ := @step_submit conf w t th _ hth hstage (Or.inr rfl)
    have hnone : txn.ops[w.part]? = none := List.getElem?_eq_none (by omega)
    let v : World := { w with handed := w.handed + 1, part := 0 }
    have hhand : w.hand = some v := by
      unfold World.hand
      rw [htxn]
      dsimp only
      rw [hnone]
    refine ⟨v, ⟨1, ?_⟩, ⟨rfl, rfl, rfl, Nat.le_succ _⟩, Or.inr (Nat.lt_succ_self _)⟩
    refine Option.bind_eq_some_iff.mpr ⟨v, hstep.trans ?_, rfl⟩
    unfold World.submit
    dsimp only
    rw [if_pos hbatch, hhand]
  | succ left ih =>
    obtain ⟨call, -, hstep⟩ := @step_submit conf w t th _ hth hstage (Or.inr rfl)
    obtain ⟨op, hop⟩ : ∃ op, txn.ops[w.part]? = some op :=
      ⟨_, List.getElem?_eq_getElem (by omega)⟩
    cases happly : EntryStore.apply w.store op with
    | none =>
      refine ⟨w, ⟨0, rfl⟩, .refl w, Or.inl ⟨hbatch, ?_⟩⟩
      unfold World.hand
      rw [htxn]
      dsimp only
      rw [hop]
      dsimp only
      rw [happly]
      rfl
    | some store =>
      let v : World := { w with store, part := w.part + 1 }
      have hhand : w.hand = some v := by
        unfold World.hand
        rw [htxn]
        dsimp only
        rw [hop]
        dsimp only
        rw [happly]
        rfl
      have hmove : w.step conf (.move t) = some v := by
        refine hstep.trans ?_
        unfold World.submit
        dsimp only
        rw [if_pos hbatch, hhand]
      obtain ⟨v', hmoves, hhands, hend⟩ := @ih v hth hbatch htxn
        (show txn.ops.length - (w.part + 1) = left by omega)
      have hfirst : Hands w v := ⟨rfl, rfl, rfl, le_refl _⟩
      exact ⟨v', hmoves.step hmove, hfirst.trans hhands, hend⟩

/-- The holder of the lock hands over all there is, or the store stops. -/
theorem hands_all (hth : w.threads t = some th) (hstage : stage th = some .submitting) {left : ℕ}
    (hleft : w.core.log.length - w.handed = left) : ∃ v, Moves conf t w v ∧ Hands w v ∧
      (Stopped v ∨ w.core.log.length ≤ v.handed) := by
  induction left using Nat.strongRecOn generalizing w with
  | ind left ih =>
    by_cases hall : w.core.log.length ≤ w.handed
    · exact ⟨w, ⟨0, rfl⟩, .refl w, Or.inr hall⟩
    have hlt : w.handed < w.core.log.length := Nat.lt_of_not_le hall
    -- what was prepared since is taken from the queue first
    obtain ⟨v, hmoves, hhands, hhanded, hbatch⟩ : ∃ v, Moves conf t w v ∧ Hands w v ∧
        v.handed = w.handed ∧ v.handed < v.batch := by
      by_cases hbatch : w.handed < w.batch
      · exact ⟨w, ⟨0, rfl⟩, .refl w, rfl, hbatch⟩
      obtain ⟨call, -, hstep⟩ := @step_submit conf w t th _ hth hstage (Or.inr rfl)
      let v : World := { w with batch := w.core.log.length }
      refine ⟨v, ⟨1, Option.bind_eq_some_iff.mpr ⟨v, hstep.trans ?_, rfl⟩⟩,
        ⟨rfl, rfl, rfl, le_refl _⟩, rfl, hlt⟩
      unfold World.submit
      dsimp only
      rw [if_neg hbatch, if_pos (by omega)]
    have htxn : v.core.log[v.handed]? = some w.core.log[w.handed] := by
      rw [hhands.core, hhanded]
      exact List.getElem?_eq_getElem hlt
    obtain ⟨v', hmoves', hhands', hend⟩ :=
      @hands_one conf v t th _ (hhands.threads ▸ hth) hstage hbatch htxn _ rfl
    have htrans := hhands.trans hhands'
    rcases hend with hstopped | hmore
    · exact ⟨v', hmoves.trans hmoves', htrans, Or.inl hstopped⟩
    · have hlog : v'.core.log.length = w.core.log.length := by rw [htrans.core]
      obtain ⟨v'', hmoves'', hhands'', hend⟩ := @ih (v'.core.log.length - v'.handed) (by omega) v'
        (htrans.threads ▸ hth) rfl
      refine ⟨v'', (hmoves.trans hmoves').trans hmoves'', htrans.trans hhands'', ?_⟩
      exact hend.imp_right fun hle => hlog ▸ hle

/-- So does a thread that is about to try for the lock while it is free. -/
theorem hands_enter (hth : w.threads t = some th) (hstage : stage th = some .enter)
    (hlock : w.lock = none) : ∃ v, Moves conf t w v ∧ (∀ u, u ≠ t → v.threads u = w.threads u) ∧
      v.durable = w.durable ∧ w.handed ≤ v.handed ∧
        (Stopped v ∨ w.core.log.length ≤ v.handed) := by
  obtain ⟨call, hcall, hstep⟩ := @step_submit conf w t th _ hth hstage (Or.inl rfl)
  let th' : Thread := { th with native := some (call .submitting) }
  let v : World := { w with lock := some t }.set t th'
  have hmove : w.step conf (.move t) = some v := by
    refine hstep.trans ?_
    unfold World.submit
    dsimp only
    rw [hlock]
  have hth' : v.threads t = some th' := update_self ..
  obtain ⟨v', hmoves, hhands, hend⟩ := @hands_all conf v t th' hth' (hcall _) _ rfl
  refine ⟨v', hmoves.step hmove, fun u hu => ?_, hhands.durable, hhands.handed, hend⟩
  rw [hhands.threads]
  exact update_of_ne hu _ _

/-- A future whose transaction was handed over. -/
theorem commits_handed (hplaced : Placed conf A r w th)
    {d : ℕ} (hnative : th.native = some (.sync id (.captured (some d)))) {v : World}
    (hth : v.threads t = some th) (hdurable : v.durable (conf.collection th.name) ≤ v.handed)
    (hlt : d < v.handed) : Commits conf v t th.name := by
  let v' : World := { v with durable := update v.durable (conf.collection th.name) v.handed }
  have hstep : v.step conf (.commit (conf.collection th.name) v.handed) = some v' := by
    unfold World.step
    exact if_pos ⟨hdurable, le_refl _⟩
  have hdone : v'.ended conf th.name th.native = true := by
    have hall : d < update v.durable (conf.collection th.name) v.handed
        (conf.collection th.name) := by
      rw [update_self]
      exact hlt
    rw [hnative]
    exact decide_eq_true hall
  have hover : Over (.sync id (.captured (some d))) := trivial
  exact ⟨v', hstep, canGo_ended hth hdone (resumes hplaced hnative hover v')⟩

/-- A future that is not done yet. -/
theorem awaits_captured (hr : Running conf G A r s w) (h : Underway w) (hth : w.threads t = some th)
    {done : Option ℕ} (hnative : th.native = some (.sync id (.captured done))) :
    Awaits conf w t th := by
  have hplaced := (hr.manned.crewed t th hth).2.placed
  have hover : Over (.sync id (.captured done)) := trivial
  by_cases hended : w.ended conf th.name th.native = true
  · exact .nothing (canGo_ended hth hended (resumes hplaced hnative hover w))
  cases done with
  | none =>
    rw [hnative] at hended
    exact absurd rfl hended
  | some d =>
    obtain ⟨hlog, howed⟩ := h.captured t th d hth (stage_native hnative)
    have hdurable := hr.grounded.durable (conf.collection th.name)
    by_cases hlt : d < w.handed
    · exact .commit id d hnative hlt (commits_handed hplaced hnative hth hdurable hlt)
    have hlater : w.handed ≤ d := Nat.le_of_not_lt hlt
    have hend : ∀ {v : World}, v.threads t = some th → v.durable = w.durable →
        w.handed ≤ v.handed → w.core.log.length ≤ v.handed →
        d < v.handed ∧ Commits conf v t th.name := by
      intro v hv hsame hmore hall
      have hd : d < v.handed := by omega
      exact ⟨hd, commits_handed hplaced hnative hv (hsame ▸ hdurable.trans hmore) hd⟩
    -- whoever has the lock hands it over, or whoever is about to try for it
    cases hlock : w.lock with
    | some u =>
      obtain ⟨uth, hu, hstage⟩ := h.locked u hlock
      obtain ⟨v, ⟨moves, hrun⟩, hhands, hdone⟩ := @hands_all conf w u uth hu hstage _ rfl
      refine .submit id d u moves v hnative hlater hrun (hdone.imp_right fun hall => ?_)
      exact hend (hhands.threads ▸ hth) hhands.durable hhands.handed hall
    | none =>
      rcases howed with hlt' | hheld | ⟨u, uth, hu, hstage⟩
      · exact absurd hlt' hlt
      · rw [hlock] at hheld
        contradiction
      · have hne : t ≠ u := by
          rintro rfl
          obtain rfl := Option.some.inj (hth.symm.trans hu)
          rw [stage_native hnative] at hstage
          simp [stageOf] at hstage
        obtain ⟨v, ⟨moves, hrun⟩, hothers, hsame, hmore, hdone⟩ :=
          @hands_enter conf w u uth hu hstage hlock
        refine .submit id d u moves v hnative hlater hrun (hdone.imp_right fun hall => ?_)
        exact hend ((hothers t hne).trans hth) hsame hmore hall

/-- A thread that is between two calls. -/
theorem awaits_between (hr : Running conf G A r s w) (h : Underway w) (hth : w.threads t = some th)
    (hnative : th.native = none) (hbusy : th.frame ≠ some .idle) : Awaits conf w t th := by
  have hplaced := (hr.manned.crewed t th hth).2.placed
  cases hframe : th.frame with
  | none => exact .nothing (canGo_ended hth (by rw [hnative]; rfl) (Or.inl hframe))
  | some frame =>
    have hgo : (w.go conf t th 0).isSome → Awaits conf w t th :=
      fun hsome => .nothing (canGo_go hth hnative hsome)
    unfold Placed at hplaced
    rw [hframe, hnative] at hplaced
    cases frame with
    | idle => exact absurd hframe hbusy
    | search => exact .nothing (canGo_search hr hth (Or.inl hframe))
    | searching i => exact .nothing (canGo_search hr hth (Or.inr ⟨i, hframe⟩))
    | opening goal | starting i tries goal | asking i offset stop tries =>
      refine hgo ?_
      unfold World.go
      rw [hframe]
      rfl
    | waiting i goal =>
      cases hi : w.threads i with
      | none =>
        refine hgo ?_
        unfold World.go
        rw [hframe]
        simp only [hi, Option.isSome_some]
      | some uth =>
        rcases (h.sought t th i goal hth hframe).2 uth hi with hs | ⟨hnone, -⟩
        · exact .search i goal hframe (canGo_search hr hi hs)
        · refine hgo ?_
          unfold World.go
          rw [hframe]
          simp only [hi, hnone, if_true, Option.isSome_some]
    | writing =>
      obtain ⟨place, hplace⟩ := hplaced
      contradiction
    | syncing i answer =>
      obtain ⟨place, k, hplace, -⟩ := hplaced
      contradiction
    | reading i version data tries goal =>
      obtain ⟨-, -, ⟨-, place, hplace⟩ | ⟨look, hread⟩, -⟩ := hplaced
      · contradiction
      · contradiction
    | fetching i offset stop tries =>
      obtain ⟨size, look, hread⟩ := hplaced
      contradiction

theorem awaits_thread (hr : Running conf G A r s w) (h : Underway w) (hth : w.threads t = some th)
    (hbusy : th.frame = some .idle → th.native ≠ none) : Stopped w ∨ Awaits conf w t th := by
  have hplaced := (hr.manned.crewed t th hth).2.placed
  cases hnative : th.native with
  | none => exact Or.inr (awaits_between hr h hth hnative fun hidle => hbusy hidle hnative)
  | some n =>
    have hsubmit : ∀ {place}, stageOf n = some place → place = .enter ∨ place = .submitting →
        Stopped w ∨ Awaits conf w t th := fun hn hplace =>
      (canGo_submit hth ((stage_native hnative).trans hn) hplace).imp_right Awaits.nothing
    cases n with
    | «open» i =>
      refine Or.inr (.nothing (canGo_move hth ?_))
      unfold World.move
      rw [hnative]
      rfl
    | read part i offset size look => exact Or.inr (.nothing (canGo_read hr hth hnative))
    | submit place =>
      cases place with
      | enter => exact hsubmit rfl (Or.inl rfl)
      | submitting => exact hsubmit rfl (Or.inr rfl)
      | left =>
        have hended : w.ended conf th.name th.native = true := by rw [hnative]; rfl
        exact Or.inr (.nothing (canGo_ended hth hended (resumes hplaced hnative trivial w)))
      | captured done => exact absurd hnative (h.plain t th done hth)
    | sync i place =>
      cases place with
      | enter => exact hsubmit rfl (Or.inl rfl)
      | submitting => exact hsubmit rfl (Or.inr rfl)
      | left =>
        refine Or.inr (.nothing (canGo_move hth ?_))
        unfold World.move
        rw [hnative]
        rfl
      | captured done => exact Or.inr (awaits_captured hr h hth hnative)

theorem never_stuck (hs : Mountable s) (last : UInt64) {actions : List Action}
    (hrun : (World.start s last).run conf actions = some w) (hth : w.threads t = some th)
    (hbusy : th.frame = some .idle → th.native ≠ none) : Stopped w ∨ Awaits conf w t th := by
  have hA := promises_any conf
  have hstart : Running conf (fun _ => True) (fun _ _ => True) (recordOf s) s (World.start s last) :=
    running_mounted (mounted_recordOf hs) last
  have hr := running_run hA hstart (fun a _ => admits_any a) hrun
  have h := underway_run hA hstart (underway_start s last) (fun a _ => admits_any a) hrun
  exact awaits_thread hr h hth hbusy

/-- The POST of the interrupted run, which is to be submitted. -/
theorem never_stuck_interrupted : ∃ th, interrupted.threads 2 = some th ∧
    (Stopped interrupted ∨ Awaits sample interrupted 2 th) := by
  have hsome : (interrupted.threads 2).isSome := by decide +kernel
  have hnative : (interrupted.threads 2).all fun th => th.native.isSome := by decide +kernel
  obtain ⟨th, hth⟩ := Option.isSome_iff_exists.mp hsome
  rw [hth, Option.all_some] at hnative
  refine ⟨th, hth, never_stuck mountable_empty 0 interrupted_run hth fun _ hnone => ?_⟩
  rw [hnone] at hnative
  contradiction

end Swiftacular.NeverStuck
