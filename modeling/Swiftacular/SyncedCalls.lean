import Swiftacular.DeviceInvariant

/-!
A sync is not over before what its Object last prepared is durable, whoever
handed it over. Whatever others do meanwhile, an Object that can be read stays
one, and its latest transaction only gives way to a later one.
-/
namespace Swiftacular.SyncedCalls

open Function EntryStore EngineObjects Versions EngineRuns Sweep DeviceRuns DeviceEngine DeviceWorld
  DeviceSteps DeviceDecisions DeviceReads DeviceTurns DeviceInvariant

/-- What becomes of the Objects that can be read. -/
def Ages (c c' : Core) : Prop := ∀ id o, c.heap id = some o → Readable o →
  ∃ o', c'.heap id = some o' ∧ Becomes o o'

/-- What one thread leaves to the others. -/
structure Leaves (w w' : World) (t : ℕ) : Prop where
  ages : Ages w.core w'.core
  others : ∀ u uth, u ≠ t → w.threads u = some uth → w'.threads u = some uth
  durable : w'.durable = w.durable

/-- A call of `sync` on the Object that is not over. -/
def Waits (conf : Conf) (w : World) (t id : ℕ) : Prop := ∃ th stage, w.threads t = some th ∧
  th.native = some (.sync id stage) ∧ w.ended conf th.name th.native = false

/-- The latest transaction of an Object one thread syncs is durable by the time
the call is over, in whatever comes of the state. -/
def Synced (conf : Conf) (w w' : World) : Prop := ∀ t th id stage o d, w.threads t = some th →
  th.native = some (.sync id stage) → (∀ done, stage ≠ .captured done) →
    w.core.heap id = some o → o.done = some d →
      d < w'.durable (conf.collection o.name) ∨ Waits conf w' t id

variable {conf : Conf} {G : Goal → Prop} {A : Answer → Option View → Prop} {r : Record} {s : Store}
  {c c' c'' : Core} {w w' v : World} {t id k : ℕ} {th : Thread} {name : Name}

/-! The calls of the engine. -/

theorem Ages.refl (c : Core) : Ages c c := fun _ o ho _ => ⟨o, ho, .refl o⟩

theorem Ages.trans (h : Ages c c') (h' : Ages c' c'') : Ages c c'' := by
  intro id o ho hread
  obtain ⟨o', ho', hbecomes⟩ := h id o ho hread
  obtain ⟨o'', ho'', hbecomes'⟩ := h' id o' ho' (hbecomes.readable hread)
  exact ⟨o'', ho'', hbecomes.trans hbecomes'⟩

theorem ages_update {o' : Object} (hheap : c'.heap = update c.heap id (some o'))
    (h : ∀ o, c.heap id = some o → Readable o → Becomes o o') : Ages c c' := by
  intro i o ho hread
  rw [hheap]
  by_cases hi : i = id
  · subst hi
    exact ⟨o', update_self .., h o ho hread⟩
  · exact ⟨o, (update_of_ne hi _ _).trans ho, .refl o⟩

theorem ages_fresh (hnew : ∀ id o, c.heap id = some o → id < c.fresh) {o' : Object}
    (hheap : c'.heap = update c.heap c.fresh (some o')) : Ages c c' :=
  ages_update hheap fun o ho => absurd (hnew _ o ho) (lt_irrefl _)

theorem ages_open (st : EngineObjects.Store) (id : ℕ) : Ages c (c.open st id).1 := by
  unfold Core.open
  split
  · exact .refl c
  · rename_i o ho
    refine ages_update rfl fun q hq hread => ?_
    obtain rfl := Option.some.inj (ho.symm.trans hq)
    rcases open_state st o with hsame | ⟨hpre, -⟩
    · rw [hsame]
      exact .refl o
    · rcases hread with hs | hs <;> rw [hs] at hpre <;> contradiction

theorem ages_writing {o o' : Object} {t : Txn} (ho : c.heap id = some o) (hw : Writing o) :
    Ages c (c.prepared id o' t) := by
  refine ages_update rfl fun q hq hread => ?_
  obtain rfl := Option.some.inj (ho.symm.trans hq)
  exact absurd hw hread.not_writing

theorem ages_write {data : Bytes} (h : c.write id data = .ok c') : Ages c c' := by
  rcases write_cases h with rfl | ⟨o, o', ops, ho, hcall, rfl⟩
  · exact .refl c'
  · exact ages_writing ho (write_ok hcall).1

theorem ages_tombstone {data : Bytes} (h : c.tombstone id data = .ok c') : Ages c c' := by
  rcases tombstone_cases h with rfl | ⟨o, o', ops, ho, hpre, -, rfl⟩
  · exact .refl c'
  · exact ages_writing ho (Or.inl hpre)

theorem ages_writeMetadata (hdone : ∀ o d, c.heap id = some o → o.done = some d → d < c.log.length)
    {data : Bytes} (h : c.writeMetadata id data = .ok c') : Ages c c' := by
  rcases writeMetadata_cases h with rfl | ⟨o, o', ops, ho, hcall, rfl⟩
  · exact .refl c'
  · obtain ⟨hstate | hstate | hstate, hnext, -⟩ := writeMetadata_ok hcall
    · exact ages_writing ho (Or.inl hstate)
    · exact ages_writing ho (Or.inr hstate)
    · rw [if_neg (by simp [hstate])] at hnext
      subst hnext
      refine ages_update rfl fun q hq _ => ?_
      obtain rfl := Option.some.inj (ho.symm.trans hq)
      refine ⟨rfl, fun hf => hf, fun hr => hr, fun k ⟨d, hd, hk⟩ => ⟨_, rfl, ?_⟩⟩
      exact hk.trans (hdone o' d ho hd).le

theorem ages_put {i j : ℕ} {ts : Option ℕ} (h : c.put i j ts = .ok c') : Ages c c' := by
  rcases put_cases h with rfl | ⟨n, p, n', p', ops, hn, hp, hcall, rfl⟩
  · exact .refl c'
  · obtain ⟨hwriting, hstate, -, -, -, rfl, -⟩ := put_ok hcall
    have hne : i ≠ j := by
      rintro rfl
      obtain rfl := Option.some.inj (hn.symm.trans hp)
      rcases hstate with hs | hs <;> rw [hs] at hwriting <;> contradiction
    have hretired : Ages c { c with heap := update c.heap j (some (Backend.retire p)) } := by
      refine ages_update rfl fun q hq hread => ?_
      obtain rfl := Option.some.inj (hp.symm.trans hq)
      obtain ⟨hname, hdone, -, hcases⟩ := retire_cases p
      have hold : Readable (Backend.retire p) := by
        rcases hcases with ⟨-, hs⟩ | ⟨-, hs⟩
        · exact Or.inr hs
        · rwa [hs]
      exact ⟨hname, fun _ => Or.inr hold, fun _ => hold, fun k hk => by rwa [hdone]⟩
    exact hretired.trans (ages_writing ((update_of_ne hne _ _).trans hn) (Or.inr hwriting))

/-! A thread's turns. -/

theorem leaves_turn {after : Option Thread} (hages : Ages w.core w'.core)
    (hthreads : w'.threads = update w.threads t after) (hdurable : w'.durable = w.durable) :
    Leaves w w' t :=
  ⟨hages, fun u uth hut hu => by rw [hthreads, update_of_ne hut, hu], hdurable⟩

theorem leaves_same (hages : Ages w.core w'.core) (hthreads : w'.threads = w.threads)
    (hdurable : w'.durable = w.durable) : Leaves w w' t :=
  ⟨hages, fun u uth _ hu => by rw [hthreads, hu], hdurable⟩

theorem leaves_handOver {next prev ts : ℕ} (hages : Ages w.core v.core)
    (hthreads : v.threads = w.threads) (hdurable : v.durable = w.durable) :
    Leaves w (v.handOver t th next prev ts) t := by
  unfold World.handOver
  split
  · exact leaves_turn hages (by rw [← hthreads]; rfl) hdurable
  · exact leaves_turn hages (by rw [← hthreads]; rfl) hdurable
  · rename_i core hput
    exact leaves_turn (hages.trans (ages_put hput)) (by rw [← hthreads]; rfl) hdurable

theorem leaves_decide (hg : Grounded conf G r s w) (goal : Goal) (prev : ℕ) (read : Option Bytes)
    (us : UInt64) : Leaves w (w.decide conf t th goal prev read us) t := by
  have hdone : ∀ o d {i}, w.core.heap i = some o → o.done = some d → d < w.core.log.length :=
    fun o d i => hg.engaged.done i o d
  unfold World.decide
  cases goal with
  | put own ts metadata =>
    dsimp only
    split
    · exact leaves_turn (.refl _) rfl rfl
    · rename_i core hwrite
      exact leaves_handOver (ages_writeMetadata (fun o d => hdone o d) hwrite) rfl rfl
  | delete ts metadata =>
    have hcreate : Ages w.core (w.core.create th.name none us) :=
      ages_fresh (fun i o => hg.engaged.stands.lt_fresh) rfl
    dsimp only
    split
    · exact leaves_turn (.refl _) rfl rfl
    · rename_i core htomb
      exact leaves_handOver (hcreate.trans (ages_tombstone htomb)) rfl rfl
  | post metadata =>
    dsimp only
    split
    · exact leaves_turn (.refl _) rfl rfl
    · exact leaves_turn (.refl _) rfl rfl
    · split
      · exact leaves_turn (.refl _) rfl rfl
      · rename_i core hwrite
        exact leaves_turn (ages_writeMetadata (fun o d => hdone o d) hwrite) rfl rfl

theorem leaves_look (hg : Grounded conf G r s w) (hnew : w.threads w.next = none)
    (goal : Option Goal) (us : UInt64) : Leaves w (w.look conf t th goal us) t := by
  unfold World.look
  split
  · refine ⟨.refl _, fun u uth hut hu => ?_, rfl⟩
    have hne : u ≠ w.next := by
      rintro rfl
      rw [hnew] at hu
      contradiction
    exact (update_of_ne hut _ _).trans ((update_of_ne hne _ _).trans hu)
  · exact leaves_turn (.refl _) rfl rfl
  · split
    · exact leaves_turn (.refl _) rfl rfl
    · split
      · exact leaves_decide hg _ _ _ us
      · exact leaves_turn (.refl _) rfl rfl

theorem leaves_finish (hg : Grounded conf G r s w) (data : Bytes) (goal : Option Goal) (us : UInt64) :
    Leaves w (w.finish conf t th id data goal us) t := by
  unfold World.finish
  split
  · exact leaves_turn (.refl _) rfl rfl
  · split
    · exact leaves_turn (.refl _) rfl rfl
    · split
      · exact leaves_decide hg _ _ _ us
      · exact leaves_turn (.refl _) rfl rfl

theorem leaves_gather (hg : Grounded conf G r s w) (version : ℕ) (data : Bytes) (tries : ℕ)
    (goal : Option Goal) (result : Except Error Bytes) (us : UInt64) :
    Leaves w (w.gather conf t th id version data tries goal result us) t := by
  unfold World.gather
  split
  · split
    · exact leaves_turn (.refl _) rfl rfl
    · exact leaves_turn (.refl _) rfl rfl
  · split
    · exact leaves_turn (.refl _) rfl rfl
    · split
      · exact leaves_finish hg _ goal us
      · exact leaves_turn (.refl _) rfl rfl

theorem leaves_pass (offset : ℕ) (stop : Option ℕ) (tries size : ℕ) (result : Except Error Bytes) :
    Leaves w (w.pass t th id offset stop tries size result) t := by
  unfold World.pass
  split
  · split
    · exact leaves_turn (.refl _) rfl rfl
    · exact leaves_turn (.refl _) rfl rfl
  · split
    · exact leaves_turn (.refl _) rfl rfl
    · dsimp only
      split
      · exact leaves_turn (.refl _) rfl rfl
      · split
        · exact leaves_turn (.refl _) rfl rfl
        · exact leaves_turn (.refl _) rfl rfl

theorem leaves_go (hg : Grounded conf G r s w) (hnew : w.threads w.next = none) {us : UInt64}
    (hstep : w.go conf t th us = some w') : Leaves w w' t := by
  unfold World.go at hstep
  split at hstep
  · obtain rfl := Option.some.inj hstep
    exact leaves_turn (ages_fresh (fun i o => hg.engaged.stands.lt_fresh) rfl) rfl rfl
  · obtain rfl := Option.some.inj hstep
    exact leaves_look hg hnew _ us
  · split at hstep
    · obtain rfl := Option.some.inj hstep
      exact leaves_turn (.refl _) rfl rfl
    · split at hstep
      · obtain rfl := Option.some.inj hstep
        exact leaves_turn (.refl _) rfl rfl
      · contradiction
  · obtain rfl := Option.some.inj hstep
    exact leaves_turn (.refl _) rfl rfl
  · obtain rfl := Option.some.inj hstep
    exact leaves_turn (.refl _) rfl rfl
  · contradiction

theorem leaves_ask (hg : Grounded conf G r s w) {ask : Ask} (hstep : w.ask t th ask = some w') :
    Leaves w w' t := by
  cases ask with
  | «open» =>
    obtain rfl := Option.some.inj hstep
    exact leaves_turn (.refl _) rfl rfl
  | info =>
    obtain ⟨i, -, hstep⟩ := Option.bind_eq_some_iff.mp hstep
    split at hstep
    · contradiction
    · obtain rfl := Option.some.inj hstep
      exact leaves_turn (.refl _) rfl rfl
  | create us =>
    obtain ⟨i, -, rfl⟩ := Option.map_eq_some_iff.mp hstep
    exact leaves_turn (ages_fresh (fun i o => hg.engaged.stands.lt_fresh) rfl) rfl rfl
  | write data =>
    obtain ⟨i, -, rfl⟩ := Option.map_eq_some_iff.mp hstep
    split
    · exact leaves_turn (.refl _) rfl rfl
    · rename_i core hwrite
      exact leaves_turn (ages_write hwrite) rfl rfl
  | put ts metadata =>
    obtain ⟨i, -, rfl⟩ := Option.map_eq_some_iff.mp hstep
    exact leaves_turn (.refl _) rfl rfl
  | delete ts metadata =>
    obtain ⟨i, -, rfl⟩ := Option.map_eq_some_iff.mp hstep
    exact leaves_turn (.refl _) rfl rfl
  | post metadata =>
    obtain ⟨i, -, rfl⟩ := Option.map_eq_some_iff.mp hstep
    exact leaves_turn (.refl _) rfl rfl
  | iterate start stop =>
    obtain ⟨i, -, hstep⟩ := Option.bind_eq_some_iff.mp hstep
    split at hstep
    · obtain rfl := Option.some.inj hstep
      exact leaves_turn (.refl _) rfl rfl
    · contradiction

/-! The moves of a call. -/

theorem leaves_load : Leaves w (w.load t th id) t := by
  have hages := ages_open w.store id (c := w.core)
  unfold World.load
  split
  · rename_i core e hopen
    rw [hopen] at hages
    exact leaves_turn hages rfl rfl
  · rename_i core hopen
    rw [hopen] at hages
    dsimp only
    split
    · exact leaves_turn hages rfl rfl
    · exact leaves_turn hages rfl rfl

theorem leaves_hand (hstep : w.hand = some w') : Leaves w w' t := by
  unfold World.hand at hstep
  split at hstep
  · contradiction
  · split at hstep
    · obtain ⟨store, -, rfl⟩ := Option.map_eq_some_iff.mp hstep
      exact leaves_same (.refl _) rfl rfl
    · obtain rfl := Option.some.inj hstep
      exact leaves_same (.refl _) rfl rfl

theorem leaves_submit {stage : Stage} {call : Stage → Native}
    (hstep : w.submit t th stage call = some w') : Leaves w w' t := by
  unfold World.submit at hstep
  split at hstep
  · split at hstep
    · obtain rfl := Option.some.inj hstep
      exact leaves_turn (.refl _) rfl rfl
    · obtain rfl := Option.some.inj hstep
      exact leaves_turn (.refl _) rfl rfl
  · split at hstep
    · exact leaves_hand hstep
    · split at hstep
      · obtain rfl := Option.some.inj hstep
        exact leaves_same (.refl _) rfl rfl
      · obtain rfl := Option.some.inj hstep
        exact leaves_turn (.refl _) rfl rfl
  · contradiction

theorem leaves_read {part : Part} {offset size : ℕ} {look : Look}
    (hstep : w.read t th part id offset size look = some w') : Leaves w w' t := by
  unfold World.read at hstep
  dsimp only at hstep
  split at hstep
  · split at hstep
    · obtain rfl := Option.some.inj hstep
      exact leaves_turn (.refl _) rfl rfl
    · split at hstep
      · obtain rfl := Option.some.inj hstep
        exact leaves_turn (.refl _) rfl rfl
      · obtain rfl := Option.some.inj hstep
        exact leaves_turn (.refl _) rfl rfl
  · obtain rfl := Option.some.inj hstep
    exact leaves_turn (.refl _) rfl rfl
  · split at hstep
    · obtain rfl := Option.some.inj hstep
      exact leaves_turn (.refl _) rfl rfl
    · obtain rfl := Option.some.inj hstep
      exact leaves_turn (.refl _) rfl rfl
  · contradiction

theorem leaves_move (hstep : w.move t th = some w') : Leaves w w' t := by
  unfold World.move at hstep
  split at hstep
  · contradiction
  · obtain rfl := Option.some.inj hstep
    exact leaves_load
  · exact leaves_submit hstep
  · obtain rfl := Option.some.inj hstep
    exact leaves_turn (.refl _) rfl rfl
  · exact leaves_submit hstep
  · exact leaves_read hstep

theorem leaves_resume (hg : Grounded conf G r s w) {us : UInt64}
    (hstep : w.resume conf t th us = some w') : Leaves w w' t := by
  unfold World.resume at hstep
  split at hstep
  · obtain rfl := Option.some.inj hstep
    exact leaves_turn (.refl _) rfl rfl
  · obtain rfl := Option.some.inj hstep
    exact leaves_turn (.refl _) rfl rfl
  · obtain rfl := Option.some.inj hstep
    exact leaves_turn (.refl _) rfl rfl
  · split at hstep
    · obtain rfl := Option.some.inj hstep
      exact leaves_gather hg _ _ _ _ _ us
    · obtain rfl := Option.some.inj hstep
      exact leaves_turn (.refl _) rfl rfl
  · split at hstep
    · obtain rfl := Option.some.inj hstep
      exact leaves_pass _ _ _ _ _
    · contradiction
  · contradiction

/-! A sync, through any steps. -/

/-- What a sync of the Object waits for is durable, or it waits still. -/
def Awaits (conf : Conf) (w : World) (t id : ℕ) (name : Name) (k : ℕ) : Prop :=
  k < w.durable (conf.collection name) ∨ ∃ th stage, w.threads t = some th ∧ th.name = name ∧
    th.native = some (.sync id stage) ∧ Syncs w th k

theorem Leaves.syncs {u : ℕ} {stage : Stage} (h : Leaves w w' u) (hne : t ≠ u)
    (hth : w.threads t = some th) (hnative : th.native = some (.sync id stage)) (hs : Syncs w th k) :
    Awaits conf w' t id th.name k := by
  obtain ⟨i, stage', o, hcall, ho, hread, hcovers, hstage⟩ := hs
  obtain ⟨o', ho', hbecomes⟩ := h.ages i o ho hread
  exact Or.inr ⟨th, stage, h.others t th hne hth, rfl, hnative, i, stage', o', hcall, ho',
    hbecomes.readable hread, hbecomes.covers k hcovers, hstage⟩

/-- A call that is over, of a thread in a sync. -/
theorem ended_syncs (hended : w.ended conf th.name th.native = true) (hs : Syncs w th k) :
    k < w.durable (conf.collection th.name) := by
  obtain ⟨i, stage, hnative⟩ := syncs_native hs
  rw [hnative] at hended
  cases stage with
  | captured done => exact committed_syncs hnative hended hs
  | enter => simp [World.ended] at hended
  | submitting => simp [World.ended] at hended
  | left => simp [World.ended] at hended

theorem syncs_submit {stage : Stage} (hth : w.threads t = some th) (hs : Syncs w th k)
    (hnative : th.native = some (.sync id stage)) (hstep : w.submit t th stage (.sync id) = some w') :
    Awaits conf w' t id th.name k := by
  obtain ⟨i, stage', o, hcall, ho, hread, hcovers, hstage⟩ := hs
  obtain ⟨rfl, rfl⟩ := Native.sync.inj (Option.some.inj (hcall.symm.trans hnative))
  have hgoes : ∀ {v : World} stage', v.core = w.core → (∀ done, stage' ≠ .captured done) →
      v.threads t = some { th with native := some (.sync i stage') } →
      Awaits conf v t i th.name k := by
    intro v stage' hcore hnot hthreads
    exact Or.inr ⟨_, stage', hthreads, rfl, rfl, i, stage', o, rfl, hcore ▸ ho, hread, hcovers,
      fun done heq => absurd heq (hnot done)⟩
  unfold World.submit at hstep
  split at hstep
  · split at hstep
    · obtain rfl := Option.some.inj hstep
      exact hgoes .submitting rfl (by simp) (update_self ..)
    · obtain rfl := Option.some.inj hstep
      exact hgoes .left rfl (by simp) (update_self ..)
  · split at hstep
    · unfold World.hand at hstep
      split at hstep
      · contradiction
      · split at hstep
        · obtain ⟨store, -, rfl⟩ := Option.map_eq_some_iff.mp hstep
          exact hgoes .submitting rfl (by simp) (by rw [← hnative]; exact hth)
        · obtain rfl := Option.some.inj hstep
          exact hgoes .submitting rfl (by simp) (by rw [← hnative]; exact hth)
    · split at hstep
      · obtain rfl := Option.some.inj hstep
        exact hgoes .submitting rfl (by simp) (by rw [← hnative]; exact hth)
      · obtain rfl := Option.some.inj hstep
        exact hgoes .left rfl (by simp) (update_self ..)
  · contradiction

theorem syncs_move {stage : Stage} (hth : w.threads t = some th)
    (hnative : th.native = some (.sync id stage)) (hs : Syncs w th k)
    (hstep : w.move t th = some w') : Awaits conf w' t id th.name k := by
  unfold World.move at hstep
  rw [hnative] at hstep
  cases stage with
  | enter => exact syncs_submit hth hs hnative hstep
  | submitting => exact syncs_submit hth hs hnative hstep
  | captured done => exact syncs_submit hth hs hnative hstep
  | left =>
    obtain rfl := Option.some.inj hstep
    obtain ⟨j, stage, o, hcall, ho, hread, hcovers, -⟩ := hs
    obtain ⟨rfl, rfl⟩ := Native.sync.inj (Option.some.inj (hcall.symm.trans hnative))
    refine Or.inr ⟨_, _, update_self .., rfl, rfl, j, _, o, rfl, ho, hread, hcovers, fun done heq => ?_⟩
    obtain rfl := Stage.captured.inj heq
    rw [ho]
    exact hcovers

theorem syncs_step {a : Action} {stage : Stage} (h : Running conf G A r s w)
    (hth : w.threads t = some th) (hnative : th.native = some (.sync id stage)) (hs : Syncs w th k)
    (hstep : w.step conf a = some w') : Awaits conf w' t id th.name k := by
  have hsome : th.native.isNone = false := by rw [hnative]; rfl
  have hlt := (h.manned.crewed t th hth).1
  have hnew : w.threads w.next = none := h.manned.unused
  cases a with
  | request name =>
    obtain rfl := Option.some.inj hstep
    exact Or.inr ⟨th, stage, (update_of_ne hlt.ne _ _).trans hth, rfl, hnative, hs⟩
  | ask u ask =>
    obtain ⟨uth, hu, hstep⟩ := Option.bind_eq_some_iff.mp hstep
    split at hstep
    · rename_i hidle
      refine (leaves_ask h.grounded hstep).syncs (fun heq => ?_) hth hnative hs
      subst heq
      obtain rfl := Option.some.inj (hu.symm.trans hth)
      rw [hsome] at hidle
      simp at hidle
    · contradiction
  | go u us =>
    obtain ⟨uth, hu, hstep⟩ := Option.bind_eq_some_iff.mp hstep
    split at hstep
    · rename_i hnone
      refine (leaves_go h.grounded hnew hstep).syncs (fun heq => ?_) hth hnative hs
      subst heq
      obtain rfl := Option.some.inj (hu.symm.trans hth)
      rw [hsome] at hnone
      contradiction
    · contradiction
  | move u =>
    obtain ⟨uth, hu, hstep⟩ := Option.bind_eq_some_iff.mp hstep
    by_cases hut : t = u
    · subst hut
      obtain rfl := Option.some.inj (hu.symm.trans hth)
      exact syncs_move hth hnative hs hstep
    · exact (leaves_move hstep).syncs hut hth hnative hs
  | resume u us =>
    obtain ⟨uth, hu, hstep⟩ := Option.bind_eq_some_iff.mp hstep
    split at hstep
    · rename_i hended
      have hleaves := leaves_resume h.grounded hstep
      by_cases hut : t = u
      · subst hut
        obtain rfl := Option.some.inj (hu.symm.trans hth)
        left
        rw [hleaves.durable]
        exact ended_syncs hended hs
      · exact hleaves.syncs hut hth hnative hs
    · contradiction
  | commit c d =>
    unfold World.step at hstep
    dsimp only at hstep
    split at hstep
    · obtain rfl := Option.some.inj hstep
      exact Or.inr ⟨th, stage, hth, rfl, hnative, hs⟩
    · contradiction
  | kill u =>
    obtain ⟨uth, hu, hstep⟩ := Option.bind_eq_some_iff.mp hstep
    split at hstep
    · contradiction
    · contradiction
    · contradiction
    · obtain rfl := Option.some.inj hstep
      by_cases hut : t = u
      · subst hut
        obtain rfl := Option.some.inj (hu.symm.trans hth)
        exact Or.inr ⟨_, stage, update_self .., rfl, hnative, hs⟩
      · exact Or.inr ⟨th, stage, (update_of_ne hut _ _).trans hth, rfl, hnative, hs⟩
  | reap u =>
    obtain ⟨uth, hu, hstep⟩ := Option.bind_eq_some_iff.mp hstep
    split at hstep
    · rename_i hover
      obtain rfl := Option.some.inj hstep
      by_cases hut : t = u
      · subst hut
        obtain rfl := Option.some.inj (hu.symm.trans hth)
        exact Or.inl (ended_syncs hover.2 hs)
      · exact Or.inr ⟨th, stage, (update_of_ne hut _ _).trans hth, rfl, hnative, hs⟩
    · contradiction
  | release j =>
    unfold World.step at hstep
    dsimp only at hstep
    split at hstep
    · contradiction
    · rename_i hkept
      obtain rfl := Option.some.inj hstep
      refine Or.inr ⟨th, stage, hth, rfl, hnative, hs.later fun i o hkeeps ho => ⟨o, ?_, .refl o⟩⟩
      have hne : i ≠ j := by
        rintro rfl
        exact hkept (List.any_eq_true.mpr ⟨t, List.mem_range.mpr hlt, by simp [hth, hkeeps]⟩)
      unfold Core.release
      split
      · exact ho
      · exact (update_of_ne hne _ _).trans ho

/-- What is durable stays so. -/
theorem durable_step {a : Action} (h : Running conf G A r s w) (hstep : w.step conf a = some w')
    (c : Collection) : w.durable c ≤ w'.durable c := by
  have hnew : w.threads w.next = none := h.manned.unused
  cases a with
  | request name =>
    obtain rfl := Option.some.inj hstep
    exact le_refl _
  | ask u ask =>
    obtain ⟨uth, -, hstep⟩ := Option.bind_eq_some_iff.mp hstep
    split at hstep
    · exact (congrFun (leaves_ask h.grounded hstep).durable c).ge
    · contradiction
  | go u us =>
    obtain ⟨uth, -, hstep⟩ := Option.bind_eq_some_iff.mp hstep
    split at hstep
    · exact (congrFun (leaves_go h.grounded hnew hstep).durable c).ge
    · contradiction
  | move u =>
    obtain ⟨uth, -, hstep⟩ := Option.bind_eq_some_iff.mp hstep
    exact (congrFun (leaves_move hstep).durable c).ge
  | resume u us =>
    obtain ⟨uth, -, hstep⟩ := Option.bind_eq_some_iff.mp hstep
    split at hstep
    · exact (congrFun (leaves_resume h.grounded hstep).durable c).ge
    · contradiction
  | commit d k =>
    unfold World.step at hstep
    dsimp only at hstep
    split at hstep
    · rename_i hle
      obtain rfl := Option.some.inj hstep
      change w.durable c ≤ update w.durable d k c
      by_cases hc : c = d
      · rw [hc, update_self]
        exact hle.1
      · rw [update_of_ne hc]
    · contradiction
  | kill u =>
    obtain ⟨uth, -, hstep⟩ := Option.bind_eq_some_iff.mp hstep
    split at hstep
    · contradiction
    · contradiction
    · contradiction
    · obtain rfl := Option.some.inj hstep
      exact le_refl _
  | reap u =>
    obtain ⟨uth, -, hstep⟩ := Option.bind_eq_some_iff.mp hstep
    split at hstep
    · obtain rfl := Option.some.inj hstep
      exact le_refl _
    · contradiction
  | release j =>
    unfold World.step at hstep
    dsimp only at hstep
    split at hstep
    · contradiction
    · obtain rfl := Option.some.inj hstep
      exact le_refl _

theorem awaits_step {a : Action} (h : Running conf G A r s w) (ha : Awaits conf w t id name k)
    (hstep : w.step conf a = some w') : Awaits conf w' t id name k := by
  rcases ha with hlt | ⟨th, stage, hth, rfl, hnative, hs⟩
  · exact Or.inl (hlt.trans_le (durable_step h hstep _))
  · exact syncs_step h hth hnative hs hstep

theorem awaits_run {actions : List Action} (hA : Promises conf G A) (h : Running conf G A r s w)
    (hadmits : ∀ a ∈ actions, Admits G a) (ha : Awaits conf w t id name k)
    (hrun : w.run conf actions = some w') : Awaits conf w' t id name k := by
  induction actions generalizing w with
  | nil =>
    obtain rfl := Option.some.inj hrun
    exact ha
  | cons a rest ih =>
    obtain ⟨v, hstep, hrest⟩ := Option.bind_eq_some_iff.mp hrun
    exact ih (running_action hA h (hadmits a List.mem_cons_self) hstep)
      (fun b hb => hadmits b (List.mem_cons_of_mem a hb)) (awaits_step h ha hstep) hrest

/-- A sync that has not asked for the Object's future yet is not over before all
that the Object has prepared is durable. -/
theorem synced_run {actions : List Action} (hA : Promises conf G A) (h : Running conf G A r s w)
    (hadmits : ∀ a ∈ actions, Admits G a) (hrun : w.run conf actions = some w') :
    Synced conf w w' := by
  intro t th id stage o d hth hnative hnot ho hd
  have hc := (h.manned.crewed t th hth).2
  have hobject : th.native.bind Native.object = some id := by rw [hnative]; rfl
  obtain ⟨o', ho', hname⟩ := hc.alive id (keeps_native hobject)
  obtain rfl := Option.some.inj (ho.symm.trans ho')
  have hsearch : ¬ Searches th := not_searches_calls hc.placed hnative (by simp)
  have hread : Readable o := hc.uses id o ⟨hsearch, Or.inr hobject⟩ ho
  have hs : Syncs w th d := ⟨id, stage, o, hnative, ho, hread, ⟨d, hd, le_refl d⟩,
    fun done heq => absurd heq (hnot done)⟩
  rw [hname]
  rcases awaits_run hA h hadmits (Or.inr ⟨th, stage, hth, rfl, hnative, hs⟩) hrun with
    hlt | ⟨th', stage', hth', hname', hnative', hs'⟩
  · exact Or.inl hlt
  · by_cases hended : w'.ended conf th'.name th'.native = true
    · rw [← hname']
      exact Or.inl (ended_syncs hended hs')
    · exact Or.inr ⟨th', stage', hth', hnative', by simpa using hended⟩

end Swiftacular.SyncedCalls
