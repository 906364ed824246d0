import Swiftacular.LogGrowth

/-!
What one thread's turn comes to, where it has nothing to do with the submit
lock. The thread is then between two calls, or in one that has just begun;
the others are where they were, and an Object that can be read has no
transaction it did not have before, or else the thread is about to submit it.
-/
namespace Swiftacular.TurnTaking

open Function EntryStore EngineObjects Versions EngineRuns LiveObjects DeviceRuns DeviceEngine
  DeviceWorld DeviceSteps DeviceInvariant

section Definitions

/-- Where a call of `submit` or `sync` is. -/
def stageOf : Native → Option Stage
  | .submit stage | .sync _ stage => some stage
  | _ => none

def stage (th : Thread) : Option Stage := th.native.bind stageOf

/-- A search that failed: whoever waits for it fails too. -/
def Failed (th : Thread) : Prop := th.frame = none ∧ th.native = none

/-- A search that is under way, or over. -/
def Sought (w : World) (s : ℕ) : Prop :=
  s < w.next ∧ ∀ th, w.threads s = some th → Searches th ∨ Failed th

/-- What a thread may be after a turn of its own. -/
structure Turned (w : World) (th : Thread) : Prop where
  stage : stage th = none ∨ stage th = some .enter
  sought : ∀ s goal, th.frame = some (.waiting s goal) → Sought w s

/-- Objects that can be read have no transaction they did not have before. -/
def Dones (c c' : Core) : Prop := ∀ id o' d, c'.heap id = some o' → Readable o' → o'.done = some d →
  ∃ o, c.heap id = some o ∧ Readable o ∧ o.done = some d

/-- A turn of one thread, which leaves the lock and the queue alone. -/
structure Turn (w w' : World) (t : ℕ) : Prop where
  lock : w'.lock = w.lock
  handed : w'.handed = w.handed
  next : w.next ≤ w'.next
  others : ∀ u uth, u ≠ t → w.threads u = some uth → w'.threads u = some uth
  new : ∀ u uth, u ≠ t → w'.threads u = some uth → w.threads u = some uth ∨
    w.next ≤ u ∧ uth.native = none ∧ ∀ s goal, uth.frame ≠ some (.waiting s goal)
  mine : ∀ th, w'.threads t = some th → Turned w' th
  done : Dones w.core w'.core ∨ ∃ th, w'.threads t = some th ∧ stage th = some .enter

end Definitions

variable {conf : Conf} {G : Goal → Prop} {A : Answer → Option View → Prop} {r : Record}
  {s : EngineObjects.Store} {c c' c'' : Core} {w w' v : World} {t id : ℕ} {th : Thread} {name : Name}

/-! The latest transactions of the Objects that can be read. -/

theorem Dones.refl (c : Core) : Dones c c := fun _ o _ ho hread hd => ⟨o, ho, hread, hd⟩

theorem Dones.trans (h : Dones c c') (h' : Dones c' c'') : Dones c c'' := by
  intro id o'' d ho hread hd
  obtain ⟨o', ho', hread', hd'⟩ := h' id o'' d ho hread hd
  exact h id o' d ho' hread' hd'

/-- One Object changes into one that cannot be read. -/
theorem dones_update {o' : Object} (hheap : c'.heap = update c.heap id (some o'))
    (hnot : ¬ Readable o') : Dones c c' := by
  intro i q d hq hread hd
  rw [hheap] at hq
  rcases heap_update hq with ⟨-, heq⟩ | ⟨-, hold⟩
  · obtain rfl := Option.some.inj heq
    exact absurd hread hnot
  · exact ⟨q, hold, hread, hd⟩

theorem writing_unread {o : Object} (h : o.state = .preWrite ∨ o.state = .inWrite) :
    ¬ Readable o := fun hread => hread.not_writing h

theorem dones_create (us : UInt64) : Dones c (c.create name none us) :=
  dones_update rfl (writing_unread (Or.inl rfl))

theorem dones_find : Dones c (c.find name) := by
  refine dones_update rfl ?_
  rintro (hs | hs) <;> contradiction

theorem dones_writeMetadata {data : Bytes} (hw : ∀ o, c.heap id = some o → Writing o)
    (h : c.writeMetadata id data = .ok c') : Dones c c' := by
  rcases writeMetadata_cases h with rfl | ⟨o, o', ops, ho, hcall, rfl⟩
  · exact .refl c'
  · obtain ⟨-, hnext, -⟩ := writeMetadata_ok hcall
    refine dones_update rfl (writing_unread (Or.inr ?_))
    rw [hnext]
    rcases hw o ho with hpre | hin
    · rw [if_pos hpre]
    · rw [if_neg (by simp [hin])]
      exact hin

theorem dones_tombstone {data : Bytes} (h : c.tombstone id data = .ok c') : Dones c c' := by
  rcases tombstone_cases h with rfl | ⟨o, o', ops, -, hpre, hcall, rfl⟩
  · exact .refl c'
  · obtain ⟨-, hnext, -⟩ := writeMetadata_ok hcall
    rw [if_pos hpre] at hnext
    exact dones_update rfl (writing_unread (Or.inr (by rw [hnext])))

theorem dones_release (id : ℕ) : Dones c (c.release id) := by
  intro i q d hq hread hd
  unfold Core.release at hq
  split at hq
  · exact ⟨q, hq, hread, hd⟩
  · rcases heap_update hq with ⟨-, heq⟩ | ⟨-, hold⟩
    · contradiction
    · exact ⟨q, hold, hread, hd⟩

/-- What a search finds has prepared nothing. -/
theorem dones_open (st : EngineObjects.Store) (hnew : ∀ o, c.heap id = some o → o.done = none) :
    Dones c (c.open st id).1 := by
  intro i q d hq hread hd
  unfold Core.open at hq
  split at hq
  · exact ⟨q, hq, hread, hd⟩
  · rename_i o ho
    rcases heap_update hq with ⟨-, heq⟩ | ⟨-, hold⟩
    · obtain rfl := Option.some.inj heq
      have hdone : (o.open st).1.done = o.done := by
        unfold Object.open
        split
        · rfl
        · dsimp only
          split <;> rfl
      rw [hdone, hnew o ho] at hd
      contradiction
    · exact ⟨q, hold, hread, hd⟩

/-! A thread's turns. -/

theorem turn_set {th' : Thread} (hlock : w'.lock = w.lock) (hhanded : w'.handed = w.handed)
    (hnext : w'.next = w.next) (hthreads : w'.threads = update w.threads t (some th'))
    (hmine : Turned w' th') (hdone : Dones w.core w'.core ∨ stage th' = some .enter) :
    Turn w w' t := by
  refine ⟨hlock, hhanded, hnext.ge, fun u uth hut hu => ?_, fun u uth hut hu => Or.inl ?_,
    fun th hth => ?_, hdone.imp_right fun hs => ⟨th', ?_, hs⟩⟩
  · rw [hthreads, update_of_ne hut, hu]
  · rwa [hthreads, update_of_ne hut] at hu
  · rw [hthreads, update_self] at hth
    obtain rfl := Option.some.inj hth
    exact hmine
  · rw [hthreads, update_self]

theorem turn_drop (hlock : w'.lock = w.lock) (hhanded : w'.handed = w.handed)
    (hnext : w'.next = w.next) (hthreads : w'.threads = update w.threads t none)
    (hcore : w'.core = w.core) : Turn w w' t := by
  refine ⟨hlock, hhanded, hnext.ge, fun u uth hut hu => ?_, fun u uth hut hu => Or.inl ?_,
    fun th hth => ?_, Or.inl (hcore ▸ .refl _)⟩
  · rw [hthreads, update_of_ne hut, hu]
  · rwa [hthreads, update_of_ne hut] at hu
  · rw [hthreads, update_self] at hth
    contradiction

/-- A thread comes to a place where it waits for nothing. -/
theorem turn_rests {th' : Thread} {frame : Frame} (hlock : w'.lock = w.lock)
    (hhanded : w'.handed = w.handed) (hnext : w'.next = w.next)
    (hthreads : w'.threads = update w.threads t (some th')) (hnative : th'.native = none)
    (hframe : th'.frame = some frame) (hnot : ∀ s goal, frame ≠ .waiting s goal)
    (hdone : Dones w.core w'.core) : Turn w w' t := by
  refine turn_set hlock hhanded hnext hthreads ⟨Or.inl ?_, fun s goal heq => ?_⟩ (Or.inl hdone)
  · unfold stage
    rw [hnative]
    rfl
  · exact absurd (Option.some.inj (hframe.symm.trans heq)) (hnot s goal)

/-- A thread calls `submit` or `sync`. -/
theorem turn_enters {th' : Thread} {frame : Frame} (hlock : w'.lock = w.lock)
    (hhanded : w'.handed = w.handed) (hnext : w'.next = w.next)
    (hthreads : w'.threads = update w.threads t (some th')) (hstage : stage th' = some .enter)
    (hframe : th'.frame = some frame) (hnot : ∀ s goal, frame ≠ .waiting s goal) : Turn w w' t :=
  turn_set hlock hhanded hnext hthreads
    ⟨Or.inr hstage, fun s goal heq => absurd (Option.some.inj (hframe.symm.trans heq)) (hnot s goal)⟩
    (Or.inr hstage)

theorem turn_handOver {next prev ts : ℕ} (hlock : v.lock = w.lock) (hhanded : v.handed = w.handed)
    (hnext : v.next = w.next) (hthreads : v.threads = w.threads) (hdone : Dones w.core v.core) :
    Turn w (v.handOver t th next prev ts) t := by
  unfold World.handOver
  split
  · exact turn_rests hlock hhanded hnext (by rw [← hthreads]; rfl) rfl rfl (by simp) hdone
  · exact turn_rests hlock hhanded hnext (by rw [← hthreads]; rfl) rfl rfl (by simp) hdone
  · exact turn_enters hlock hhanded hnext (by rw [← hthreads]; rfl) rfl rfl (by simp)

theorem turn_decide (goal : Goal) (prev : ℕ) (read : Option Bytes) (us : UInt64)
    (hown : ∀ own, goal.own = some own → ∀ o, w.core.heap own = some o → Writing o) :
    Turn w (w.decide conf t th goal prev read us) t := by
  unfold World.decide
  cases goal with
  | put own ts metadata =>
    dsimp only
    split
    · exact turn_rests rfl rfl rfl rfl rfl rfl (by simp) (.refl _)
    · rename_i core hwrite
      exact turn_handOver rfl rfl rfl rfl (dones_writeMetadata (hown own rfl) hwrite)
  | delete ts metadata =>
    dsimp only
    split
    · exact turn_rests rfl rfl rfl rfl rfl rfl (by simp) (.refl _)
    · rename_i core htomb
      exact turn_handOver rfl rfl rfl rfl ((dones_create us).trans (dones_tombstone htomb))
  | post metadata =>
    dsimp only
    split
    · exact turn_rests rfl rfl rfl rfl rfl rfl (by simp) (.refl _)
    · exact turn_rests rfl rfl rfl rfl rfl rfl (by simp) (.refl _)
    · split
      · exact turn_rests rfl rfl rfl rfl rfl rfl (by simp) (.refl _)
      · exact turn_enters rfl rfl rfl rfl rfl rfl (by simp)

/-- A goal that a thread has comes with an Object that only it can still write. -/
theorem goal_writes (hc : Crewed conf G A r w th) {goal : Goal}
    (hgoal : th.frame.bind Frame.goal = some goal) :
    ∀ own, goal.own = some own → ∀ o, w.core.heap own = some o → Writing o := by
  intro own hown o ho
  exact hc.owned own o (Or.inr (by rw [hgoal]; exact hown)) ho

theorem turn_look (h : Running conf G A r s w) (hth : w.threads t = some th)
    {goal : Option Goal} (hframe : th.frame = some (.opening goal)) (us : UInt64) :
    Turn w (w.look conf t th goal us) t := by
  obtain ⟨hlt, hc⟩ := h.manned.crewed t th hth
  have hnew : w.threads w.next = none := h.manned.unused
  have hsearch : ¬ Searches th := not_searches hframe (by simp) (by simp)
  unfold World.look
  split
  · -- a search of its own, which nobody has begun
    refine ⟨rfl, rfl, Nat.le_succ _, fun u uth hut hu => ?_, fun u uth hut hu => ?_,
      fun uth hu => ?_, Or.inl (.refl _)⟩
    · have hne : u ≠ w.next := by
        rintro rfl
        rw [hnew] at hu
        contradiction
      exact (update_of_ne hut _ _).trans ((update_of_ne hne _ _).trans hu)
    · have hu := (update_of_ne hut _ _).symm.trans hu
      by_cases hne : u = w.next
      · subst hne
        obtain rfl := Option.some.inj ((update_self _ _ w.threads).symm.trans hu)
        exact Or.inr ⟨le_refl _, rfl, by simp [Thread.search]⟩
      · exact Or.inl ((update_of_ne hne _ _).symm.trans hu)
    · obtain rfl := Option.some.inj ((update_self t _ _).symm.trans hu)
      refine ⟨Or.inl rfl, fun i g heq => ?_⟩
      obtain ⟨rfl, -⟩ := Frame.waiting.inj (Option.some.inj heq)
      refine ⟨Nat.lt_succ_self _, fun sth hs => Or.inl (Or.inl ?_)⟩
      have hs := (update_of_ne hlt.ne' _ _).symm.trans hs
      obtain rfl := Option.some.inj ((update_self w.next _ w.threads).symm.trans hs)
      rfl
  · rename_i i hslot
    refine turn_set rfl rfl rfl rfl ⟨Or.inl rfl, fun j g heq => ?_⟩ (Or.inl (.refl _))
    obtain ⟨rfl, -⟩ := Frame.waiting.inj (Option.some.inj heq)
    have hmap : w.objects th.name = some (.search i) := by
      unfold World.lookup at hslot
      split at hslot
      · contradiction
      · obtain ⟨-, -, heq⟩ := Option.map_eq_some_iff.mp hslot
        contradiction
      · rename_i k hk
        obtain ⟨-, -, heq⟩ := Option.map_eq_some_iff.mp hslot
        rw [hk, Slot.search.inj heq]
    obtain ⟨sth, hs, -, hsearches⟩ := h.manned.sought th.name i hmap
    refine ⟨(h.manned.crewed i sth hs).1, fun uth hu => ?_⟩
    have hne : i ≠ t := by
      rintro rfl
      obtain rfl := Option.some.inj (hth.symm.trans hs)
      exact hsearch hsearches
    obtain rfl := Option.some.inj (hs.symm.trans ((update_of_ne hne _ _).symm.trans hu))
    exact Or.inl hsearches
  · split
    · exact turn_rests rfl rfl rfl rfl rfl rfl (by simp) (.refl _)
    · rename_i goal
      split
      · exact turn_decide _ _ _ us (goal_writes hc (by rw [hframe]; rfl))
      · exact turn_rests rfl rfl rfl rfl rfl rfl (by simp) (.refl _)

theorem turn_finish (hc : Crewed conf G A r w th) (data : Bytes) {goal : Option Goal}
    (hgoal : th.frame.bind Frame.goal = goal) (us : UInt64) :
    Turn w (w.finish conf t th id data goal us) t := by
  unfold World.finish
  split
  · exact turn_rests rfl rfl rfl rfl rfl rfl (by simp) (.refl _)
  · split
    · exact turn_rests rfl rfl rfl rfl rfl rfl (by simp) (.refl _)
    · split
      · exact turn_decide _ _ _ us (goal_writes hc hgoal)
      · exact turn_rests rfl rfl rfl rfl rfl rfl (by simp) (.refl _)

/-- A thread starts a call that reads. -/
theorem turn_reads {th' : Thread} {part : Part} {offset size : ℕ} {look : Look}
    (hthreads : w'.threads = update w.threads t (some th'))
    (hlock : w'.lock = w.lock) (hhanded : w'.handed = w.handed) (hnext : w'.next = w.next)
    (hnative : th'.native = some (.read part id offset size look))
    (hframe : ∀ s goal, th'.frame ≠ some (.waiting s goal)) (hdone : Dones w.core w'.core) :
    Turn w w' t := by
  refine turn_set hlock hhanded hnext hthreads ⟨Or.inl ?_, fun s goal heq => absurd heq (hframe s goal)⟩
    (Or.inl hdone)
  unfold stage
  rw [hnative]
  rfl

theorem turn_gather (hc : Crewed conf G A r w th) (version : ℕ) (data : Bytes) (tries : ℕ)
    {goal : Option Goal} (hgoal : th.frame.bind Frame.goal = goal) (result : Except Error Bytes)
    (us : UInt64) : Turn w (w.gather conf t th id version data tries goal result us) t := by
  unfold World.gather
  split
  · split
    · exact turn_rests rfl rfl rfl rfl rfl rfl (by simp) (.refl _)
    · exact turn_rests rfl rfl rfl rfl rfl rfl (by simp) (.refl _)
  · split
    · exact turn_enters rfl rfl rfl rfl rfl rfl (by simp)
    · split
      · exact turn_finish hc _ hgoal us
      · exact turn_reads rfl rfl rfl rfl rfl (by simp [Thread.calls]) (.refl _)

theorem turn_pass (offset : ℕ) (stop : Option ℕ) (tries size : ℕ) (result : Except Error Bytes) :
    Turn w (w.pass t th id offset stop tries size result) t := by
  unfold World.pass
  split
  · split
    · exact turn_rests rfl rfl rfl rfl rfl rfl (by simp) (.refl _)
    · exact turn_rests rfl rfl rfl rfl rfl rfl (by simp) (.refl _)
  · split
    · exact turn_rests rfl rfl rfl rfl rfl rfl (by simp) (.refl _)
    · dsimp only
      split
      · exact turn_rests rfl rfl rfl rfl rfl rfl (by simp) (.refl _)
      · split
        · exact turn_rests rfl rfl rfl rfl rfl rfl (by simp) (.refl _)
        · exact turn_rests rfl rfl rfl rfl rfl rfl (by simp) (.refl _)

theorem turn_go (h : Running conf G A r s w) (hth : w.threads t = some th) (us : UInt64)
    (hstep : w.go conf t th us = some w') : Turn w w' t := by
  unfold World.go at hstep
  split at hstep
  · obtain rfl := Option.some.inj hstep
    exact turn_set rfl rfl rfl rfl ⟨Or.inl rfl, by simp [Thread.calls]⟩ (Or.inl dones_find)
  · rename_i goal hframe
    obtain rfl := Option.some.inj hstep
    exact turn_look h hth hframe us
  · split at hstep
    · obtain rfl := Option.some.inj hstep
      exact turn_rests rfl rfl rfl rfl rfl rfl (by simp) (.refl _)
    · split at hstep
      · obtain rfl := Option.some.inj hstep
        exact turn_rests rfl rfl rfl rfl rfl rfl (by simp) (.refl _)
      · contradiction
  · obtain rfl := Option.some.inj hstep
    exact turn_enters rfl rfl rfl rfl rfl rfl (by simp)
  · obtain rfl := Option.some.inj hstep
    exact turn_reads rfl rfl rfl rfl rfl (by simp [Thread.calls]) (.refl _)
  · contradiction

theorem turn_ask (hframe : th.frame = some .idle) (hnative : th.native = none) {ask : Ask}
    (hstep : w.ask t th ask = some w') : Turn w w' t := by
  cases ask with
  | «open» =>
    obtain rfl := Option.some.inj hstep
    exact turn_rests rfl rfl rfl rfl rfl rfl (by simp) (.refl _)
  | info =>
    obtain ⟨i, -, hstep⟩ := Option.bind_eq_some_iff.mp hstep
    split at hstep
    · contradiction
    · obtain rfl := Option.some.inj hstep
      exact turn_rests rfl rfl rfl rfl rfl rfl (by simp) (.refl _)
  | create us =>
    obtain ⟨i, -, rfl⟩ := Option.map_eq_some_iff.mp hstep
    exact turn_rests rfl rfl rfl rfl hnative hframe (by simp) (dones_create us)
  | write data =>
    obtain ⟨i, -, rfl⟩ := Option.map_eq_some_iff.mp hstep
    split
    · exact turn_rests rfl rfl rfl rfl rfl rfl (by simp) (.refl _)
    · exact turn_enters rfl rfl rfl rfl rfl rfl (by simp)
  | put ts metadata | delete ts metadata | post metadata =>
    obtain ⟨i, -, rfl⟩ := Option.map_eq_some_iff.mp hstep
    exact turn_rests rfl rfl rfl rfl rfl rfl (by simp) (.refl _)
  | iterate start stop =>
    obtain ⟨i, -, hstep⟩ := Option.bind_eq_some_iff.mp hstep
    split at hstep
    · obtain rfl := Option.some.inj hstep
      exact turn_rests rfl rfl rfl rfl rfl rfl (by simp) (.refl _)
    · contradiction

theorem turn_resume (hc : Crewed conf G A r w th) (us : UInt64)
    (hstep : w.resume conf t th us = some w') : Turn w w' t := by
  unfold World.resume at hstep
  split at hstep
  · obtain rfl := Option.some.inj hstep
    exact turn_drop rfl rfl rfl rfl rfl
  · obtain rfl := Option.some.inj hstep
    exact turn_rests rfl rfl rfl rfl rfl rfl (by simp) (.refl _)
  · obtain rfl := Option.some.inj hstep
    exact turn_rests rfl rfl rfl rfl rfl rfl (by simp) (.refl _)
  · rename_i hframe
    split at hstep
    · obtain rfl := Option.some.inj hstep
      exact turn_gather hc _ _ _ (by rw [hframe]; rfl) _ us
    · obtain rfl := Option.some.inj hstep
      exact turn_reads rfl rfl rfl rfl rfl (by simp [Thread.calls]) (.refl _)
  · split at hstep
    · obtain rfl := Option.some.inj hstep
      exact turn_pass _ _ _ _ _
    · contradiction
  · contradiction

end Swiftacular.TurnTaking
