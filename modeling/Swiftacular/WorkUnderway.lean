import Swiftacular.TurnTaking

/-!
The submits of a Device that are under way. The submit lock has a holder that
hands over everything before it lets go; so the latest transaction of an
Object that can be read, and any future that is waited for, is handed over or
will be by a submit that has begun. A search that is waited for is under way.
-/
namespace Swiftacular.WorkUnderway

open Function EntryStore EngineObjects Versions EngineRuns LiveObjects DeviceRuns DeviceEngine
  DeviceWorld DeviceSteps DeviceSearches DeviceTurns DeviceReads DeviceDecisions DeviceInvariant
  LogGrowth TurnTaking

section Definitions

/-- A transaction that is handed over, or will be by a submit that has begun. -/
def Owed (w : World) (d : ℕ) : Prop :=
  d < w.handed ∨ w.lock.isSome ∨ ∃ t th, w.threads t = some th ∧ stage th = some .enter

structure Underway (w : World) : Prop where
  locked : ∀ t, w.lock = some t → ∃ th, w.threads t = some th ∧ stage th = some .submitting
  latest : ∀ id o d, w.core.heap id = some o → Readable o → o.done = some d → Owed w d
  captured : ∀ t th d, w.threads t = some th → stage th = some (.captured (some d)) →
    d < w.core.log.length ∧ Owed w d
  plain : ∀ t th done, w.threads t = some th → th.native ≠ some (.submit (.captured done))
  sought : ∀ t th s goal, w.threads t = some th → th.frame = some (.waiting s goal) → Sought w s

end Definitions

variable {conf : Conf} {G : Goal → Prop} {A : Answer → Option View → Prop} {r : Record}
  {s : EngineObjects.Store} {w w' : World} {t id : ℕ} {th : Thread} {name : Name}

/-! What a turn leaves of what is under way. -/

/-- The thread whose turn it is holds no one up, and a search stays one. -/
structure Free (w w' : World) (t : ℕ) : Prop where
  stage : ∀ th, w.threads t = some th → stage th ≠ some .enter ∧ stage th ≠ some .submitting
  search : ∀ th th', w.threads t = some th → w'.threads t = some th' → Searches th ∨ Failed th →
    Searches th' ∨ Failed th'
  new : w.threads t = none → w.next ≤ t

theorem owed_turn {d : ℕ} (h : Owed w d) (hf : Free w w' t) (ht : Turn w w' t) : Owed w' d := by
  rcases h with hlt | hlock | ⟨u, uth, hu, hstage⟩
  · exact Or.inl (ht.handed ▸ hlt)
  · exact Or.inr (Or.inl (ht.lock ▸ hlock))
  · refine Or.inr (Or.inr ⟨u, uth, ht.others u uth (fun heq => ?_) hu, hstage⟩)
    subst heq
    exact (hf.stage uth hu).1 hstage

theorem sought_turn {i : ℕ} (h : Sought w i) (hf : Free w w' t) (ht : Turn w w' t) :
    Sought w' i := by
  refine ⟨h.1.trans_le ht.next, fun uth hu => ?_⟩
  by_cases hi : i = t
  · subst hi
    cases hth : w.threads i with
    | none => exact absurd h.1 (Nat.not_lt_of_le (hf.new hth))
    | some th => exact hf.search th uth hth hu (h.2 th hth)
  · rcases ht.new i uth hi hu with hold | ⟨hge, -⟩
    · exact h.2 uth hold
    · exact absurd h.1 (Nat.not_lt_of_le hge)

theorem turned_calm {done : Option ℕ} (h : Turned w th) :
    stage th ≠ some (.captured done) := by
  rcases h.stage with hs | hs <;> rw [hs] <;> simp

theorem underway_turn (h : Underway w) (hf : Free w w' t)
    (hlen : w.core.log.length ≤ w'.core.log.length) (ht : Turn w w' t) : Underway w' := by
  have hold : ∀ {u uth} done, w'.threads u = some uth → stage uth = some (.captured done) →
      w.threads u = some uth := by
    intro u uth done hu hstage
    by_cases hut : u = t
    · subst hut
      exact absurd hstage (turned_calm (ht.mine uth hu))
    · rcases ht.new u uth hut hu with hsame | ⟨-, hnative, -⟩
      · exact hsame
      · unfold stage at hstage
        rw [hnative] at hstage
        contradiction
  refine ⟨fun u hu => ?_, fun i o d ho hread hd => ?_, fun u uth d hu hstage => ?_,
    fun u uth done hu hnative => ?_, fun u uth i goal hu hframe => ?_⟩
  · obtain ⟨uth, huth, hstage⟩ := h.locked u (ht.lock ▸ hu)
    refine ⟨uth, ht.others u uth (fun heq => ?_) huth, hstage⟩
    subst heq
    exact (hf.stage uth huth).2 hstage
  · rcases ht.done with hdone | ⟨uth, hu, hstage⟩
    · obtain ⟨o', ho', hread', hd'⟩ := hdone i o d ho hread hd
      exact owed_turn (h.latest i o' d ho' hread' hd') hf ht
    · exact Or.inr (Or.inr ⟨t, uth, hu, hstage⟩)
  · obtain ⟨hlt, howed⟩ := h.captured u uth d (hold (some d) hu hstage) hstage
    exact ⟨hlt.trans_le hlen, owed_turn howed hf ht⟩
  · have hstage : stage uth = some (.captured done) := by
      unfold stage
      rw [hnative]
      rfl
    exact h.plain u uth done (hold done hu hstage) hnative
  · by_cases hut : u = t
    · subst hut
      exact (ht.mine uth hu).sought i goal hframe
    · rcases ht.new u uth hut hu with hsame | ⟨-, -, hnone⟩
      · exact sought_turn (h.sought u uth i goal hsame hframe) hf ht
      · exact absurd hframe (hnone i goal)

/-- A call comes to its next stage, or its request ends. -/
theorem underway_stage {th' : Thread} (h : Underway w) (hth : w.threads t = some th)
    (hcore : w'.core = w.core) (hnext : w'.next = w.next)
    (hthreads : w'.threads = update w.threads t (some th'))
    (hdone : ∀ i o d, w.core.heap i = some o → o.done = some d → d < w.core.log.length)
    (howed : ∀ d, d < w.core.log.length → Owed w d → Owed w' d)
    (hlocked : ∀ u, w'.lock = some u →
      ∃ uth, w'.threads u = some uth ∧ stage uth = some .submitting)
    (hcaptured : ∀ d, stage th' = some (.captured (some d)) →
      stage th = some (.captured (some d)) ∨ d < w.core.log.length ∧ Owed w d)
    (hplain : ∀ done, th'.native = some (.submit (.captured done)) → th.native = th'.native)
    (hframe : ∀ s goal, th'.frame = some (.waiting s goal) → th.frame = th'.frame)
    (hsearch : Searches th ∨ Failed th → Searches th' ∨ Failed th') : Underway w' := by
  have hold : ∀ {u uth}, w'.threads u = some uth →
      u = t ∧ uth = th' ∨ u ≠ t ∧ w.threads u = some uth := by
    intro u uth hu
    rw [hthreads] at hu
    by_cases hut : u = t
    · subst hut
      rw [update_self] at hu
      exact Or.inl ⟨rfl, (Option.some.inj hu).symm⟩
    · rw [update_of_ne hut] at hu
      exact Or.inr ⟨hut, hu⟩
  have hsought : ∀ {i}, Sought w i → Sought w' i := by
    intro i hi
    refine ⟨hi.1.trans_le hnext.ge, fun uth hu => ?_⟩
    rcases hold hu with ⟨rfl, rfl⟩ | ⟨-, hu⟩
    · exact hsearch (hi.2 th hth)
    · exact hi.2 uth hu
  refine ⟨hlocked, fun i o d ho hread hd => ?_, fun u uth d hu hstage => ?_,
    fun u uth done hu hnative => ?_, fun u uth i goal hu hwait => ?_⟩
  · rw [hcore] at ho
    exact howed d (hdone i o d ho hd) (h.latest i o d ho hread hd)
  · have hall : d < w.core.log.length ∧ Owed w d := by
      rcases hold hu with ⟨rfl, rfl⟩ | ⟨-, hu⟩
      · exact (hcaptured d hstage).elim (h.captured u th d hth) fun hnew => hnew
      · exact h.captured u uth d hu hstage
    exact ⟨hcore ▸ hall.1, howed d hall.1 hall.2⟩
  · rcases hold hu with ⟨rfl, rfl⟩ | ⟨-, hu⟩
    · exact h.plain u th done hth ((hplain done hnative).trans hnative)
    · exact h.plain u uth done hu hnative
  · rcases hold hu with ⟨rfl, rfl⟩ | ⟨-, hu⟩
    · exact hsought (h.sought u th i goal hth ((hframe i goal hwait).trans hwait))
    · exact hsought (h.sought u uth i goal hu hwait)

/-- A change of what is handed over, while all threads stay where they are. -/
theorem underway_handed (h : Underway w) (hcore : w'.core = w.core) (hlock : w'.lock = w.lock)
    (hnext : w'.next = w.next) (hthreads : w'.threads = w.threads) (hhanded : w.handed ≤ w'.handed) :
    Underway w' := by
  have howed : ∀ {d}, Owed w d → Owed w' d := by
    intro d howed
    unfold Owed
    rw [hlock, hthreads]
    exact howed.imp_left fun hlt => hlt.trans_le hhanded
  refine ⟨fun u hu => ?_, fun i o d ho hread hd => ?_, fun u uth d hu hstage => ?_,
    fun u uth done hu => ?_, fun u uth i goal hu hframe => ?_⟩
  · rw [hthreads]
    exact h.locked u (hlock ▸ hu)
  · exact howed (h.latest i o d (hcore ▸ ho) hread hd)
  · obtain ⟨hlt, hd⟩ := h.captured u uth d (hthreads ▸ hu) hstage
    exact ⟨hcore ▸ hlt, howed hd⟩
  · exact h.plain u uth done (hthreads ▸ hu)
  · obtain ⟨hlt, hs⟩ := h.sought u uth i goal (hthreads ▸ hu) hframe
    exact ⟨hnext ▸ hlt, fun sth hsth => hs sth (hthreads ▸ hsth)⟩

theorem stage_native {n : Native} (hnative : th.native = some n) : stage th = stageOf n := by
  unfold stage
  rw [hnative]
  rfl

/-- The holder of the lock lets go once everything is handed over. -/
theorem underway_submit (hr : Running conf G A r s w) (h : Underway w) (hth : w.threads t = some th)
    {place : Stage} {call : Stage → Native} (hnative : th.native = some (call place))
    (hcall : ∀ place, stageOf (call place) = some place) (hstep : w.submit t th place call = some w') :
    Underway w' := by
  have hdone : ∀ i o d, w.core.heap i = some o → o.done = some d → d < w.core.log.length :=
    hr.grounded.engaged.done
  have hnot : ∀ {place' : Stage}, (∀ done, place' ≠ .captured done) →
      ∀ done, call place' ≠ .submit (.captured done) := by
    intro place' hplace done heq
    have hsame := congrArg stageOf heq
    rw [hcall] at hsame
    exact hplace done (Option.some.inj hsame)
  have hsearch : ∀ {th' : Thread}, th'.frame = th.frame →
      Searches th ∨ Failed th → Searches th' ∨ Failed th' := by
    rintro th' hframe (hs | ⟨-, hnone⟩)
    · left
      unfold Searches
      rw [hframe]
      exact hs
    · rw [hnative] at hnone
      contradiction
  have hgo : ∀ {v : World} {place' : Stage}, (∀ done, place' ≠ .captured done) →
      v.core = w.core → v.next = w.next →
      v.threads = update w.threads t (some { th with native := some (call place') }) →
      (∀ d, d < w.core.log.length → Owed w d → Owed v d) →
      (∀ u, v.lock = some u → ∃ uth, v.threads u = some uth ∧ stage uth = some .submitting) →
      Underway v := by
    intro v place' hplace hcore hnext hthreads howed hlocked
    refine underway_stage h hth hcore hnext hthreads hdone howed hlocked (fun d hs => ?_)
      (fun done heq => ?_) (fun i goal hwait => rfl) (hsearch rfl)
    · have hs : some place' = some (.captured (some d)) := (hcall place').symm.trans hs
      exact absurd (Option.some.inj hs) (hplace _)
    · exact absurd (Option.some.inj heq) (hnot hplace done)
  unfold World.submit at hstep
  split at hstep
  · split at hstep
    · obtain rfl := Option.some.inj hstep
      refine hgo (by simp) rfl rfl rfl (fun d _ _ => Or.inr (Or.inl rfl)) fun u hu => ?_
      obtain rfl := Option.some.inj hu
      exact ⟨_, update_self .., hcall _⟩
    · rename_i holder hlock
      obtain rfl := Option.some.inj hstep
      refine hgo (by simp) rfl rfl rfl
        (fun d _ _ => Or.inr (Or.inl (Option.isSome_iff_exists.mpr ⟨holder, hlock⟩))) fun u hu => ?_
      obtain ⟨uth, huth, hstage⟩ := h.locked u hu
      refine ⟨uth, (update_of_ne (fun heq => ?_) _ _).trans huth, hstage⟩
      subst heq
      obtain rfl := Option.some.inj (hth.symm.trans huth)
      rw [stage_native hnative, hcall] at hstage
      contradiction
  · split at hstep
    · unfold World.hand at hstep
      split at hstep
      · contradiction
      · split at hstep
        · obtain ⟨store, -, rfl⟩ := Option.map_eq_some_iff.mp hstep
          exact underway_handed h rfl rfl rfl rfl (le_refl _)
        · obtain rfl := Option.some.inj hstep
          exact underway_handed h rfl rfl rfl rfl (Nat.le_succ _)
    · rename_i hall
      split at hstep
      · obtain rfl := Option.some.inj hstep
        exact underway_handed h rfl rfl rfl rfl (le_refl _)
      · rename_i hlast
        obtain rfl := Option.some.inj hstep
        refine hgo (by simp) rfl rfl rfl (fun d hlt _ => Or.inl ?_) fun u hu => by contradiction
        change d < w.handed
        omega
  · contradiction

/-- A move of a call that reads or searches: the thread stays where it is. -/
theorem free_native {n : Native} (hth : w.threads t = some th) (hnative : th.native = some n)
    (hstage : stageOf n = none)
    (hsearch : Searches th → ∀ th', w'.threads t = some th' → Searches th' ∨ Failed th') :
    Free w w' t := by
  refine ⟨fun th' hth' => ?_, fun uth th' hu hth' hs => ?_, fun hnone => ?_⟩
  · obtain rfl := Option.some.inj (hth.symm.trans hth')
    rw [stage_native hnative, hstage]
    exact ⟨by simp, by simp⟩
  · obtain rfl := Option.some.inj (hth.symm.trans hu)
    rcases hs with hs | ⟨-, hnone⟩
    · exact hsearch hs th' hth'
    · rw [hnative] at hnone
      contradiction
  · rw [hth] at hnone
    contradiction

theorem underway_load (hr : Running conf G A r s w) (h : Underway w) (hth : w.threads t = some th)
    (hnative : th.native = some (.open id)) : Underway (w.load t th id) := by
  have hc := (hr.manned.crewed t th hth).2
  obtain ⟨hframe, -⟩ := searching_of_open hc hnative
  have hplaced := hc.placed
  unfold Placed at hplaced
  rw [hframe] at hplaced
  obtain ⟨-, -, o, ho, hnone, -⟩ := hplaced
  have hdone : Dones w.core (w.core.open w.store id).1 := by
    refine dones_open w.store fun q hq => ?_
    obtain rfl := Option.some.inj (ho.symm.trans hq)
    exact hnone
  have hlen : w.core.log.length ≤ (w.load t th id).core.log.length := by
    obtain ⟨more, hmore⟩ := (grows_load hth hnative).longer
    rw [hmore, List.length_append]
    omega
  have hboth : Turn w (w.load t th id) t ∧ ∀ th', (w.load t th id).threads t = some th' →
      Searches th' ∨ Failed th' := by
    unfold World.load
    split
    · rename_i core e heq
      rw [heq] at hdone
      refine ⟨turn_set rfl rfl rfl rfl ⟨Or.inl rfl, by simp⟩ (Or.inl hdone), fun th' hth' => ?_⟩
      obtain rfl := Option.some.inj ((update_self t _ _).symm.trans hth')
      exact Or.inr ⟨rfl, rfl⟩
    · rename_i core heq
      rw [heq] at hdone
      have hfound : ∀ {v : World}, v.lock = w.lock → v.handed = w.handed → v.next = w.next →
          v.threads = update w.threads t (some { th with native := none }) → v.core = core →
          Turn w v t ∧ ∀ th', v.threads t = some th' → Searches th' ∨ Failed th' := by
        intro v hlock hhanded hnext hthreads hcore
        refine ⟨turn_set hlock hhanded hnext hthreads ⟨Or.inl rfl, by simp [hframe]⟩
          (Or.inl (hcore ▸ hdone)), fun th' hth' => ?_⟩
        rw [hthreads, update_self] at hth'
        obtain rfl := Option.some.inj hth'
        exact Or.inl (Or.inr ⟨id, hframe⟩)
      dsimp only
      split
      · exact hfound rfl rfl rfl rfl rfl
      · exact hfound rfl rfl rfl rfl rfl
  exact underway_turn h (free_native hth hnative rfl fun _ => hboth.2) hlen hboth.1

theorem underway_read (hr : Running conf G A r s w) (h : Underway w) (hth : w.threads t = some th)
    {part : Part} {offset size : ℕ} {look : Look}
    (hnative : th.native = some (.read part id offset size look))
    (hstep : w.read t th part id offset size look = some w') : Underway w' := by
  have hc := (hr.manned.crewed t th hth).2
  have hsearch : ¬ Searches th := not_searches_calls hc.placed hnative (by simp)
  have hwait : ∀ i goal, th.frame ≠ some (.waiting i goal) := by
    intro i goal hframe
    have hplaced := hc.placed
    unfold Placed at hplaced
    rw [hframe, hnative] at hplaced
    contradiction
  have hgo : ∀ {v : World} {look' : Look}, v.lock = w.lock → v.handed = w.handed → v.next = w.next →
      v.threads = update w.threads t (some { th with native := some (.read part id offset size look') }) →
      v.core = w.core → Underway v := by
    intro v look' hlock hhanded hnext hthreads hcore
    exact underway_turn h (free_native hth hnative rfl fun hs => absurd hs hsearch) (by rw [hcore])
      (turn_reads hthreads hlock hhanded hnext rfl hwait (by rw [hcore]; exact .refl _))
  unfold World.read at hstep
  dsimp only at hstep
  split at hstep
  · split at hstep
    · obtain rfl := Option.some.inj hstep
      exact hgo rfl rfl rfl rfl rfl
    · split at hstep
      · obtain rfl := Option.some.inj hstep
        exact hgo rfl rfl rfl rfl rfl
      · obtain rfl := Option.some.inj hstep
        exact hgo rfl rfl rfl rfl rfl
  · obtain rfl := Option.some.inj hstep
    exact hgo rfl rfl rfl rfl rfl
  · split at hstep
    · obtain rfl := Option.some.inj hstep
      exact hgo rfl rfl rfl rfl rfl
    · obtain rfl := Option.some.inj hstep
      exact hgo rfl rfl rfl rfl rfl
  · contradiction

/-- The future a sync waits for is that of the Object's latest transaction. -/
theorem underway_capture (hr : Running conf G A r s w) (h : Underway w) (hth : w.threads t = some th)
    (hnative : th.native = some (.sync id .left)) :
    Underway (w.set t { th with
      native := some (.sync id (.captured ((w.core.heap id).bind Object.done))) }) := by
  have hc := (hr.manned.crewed t th hth).2
  have hdone : ∀ i o d, w.core.heap i = some o → o.done = some d → d < w.core.log.length :=
    hr.grounded.engaged.done
  have hobject : th.native.bind Native.object = some id := by rw [hnative]; rfl
  have hsearch : ¬ Searches th := not_searches_calls hc.placed hnative (by simp)
  have hself : ∀ {u uth}, w.threads u = some uth → stage uth ≠ some .left → u ≠ t := by
    rintro u uth hu hstage rfl
    obtain rfl := Option.some.inj (hth.symm.trans hu)
    exact hstage (stage_native hnative)
  refine @underway_stage w _ t th _ h hth rfl rfl rfl hdone (fun d hlt howed => ?_) (fun u hu => ?_)
    (fun d hs => Or.inr ?_) (fun done heq => by simp at heq) (fun _ _ _ => rfl) ?_
  · rcases howed with hlt | hlock | ⟨u, uth, hu, hstage⟩
    · exact Or.inl hlt
    · exact Or.inr (Or.inl hlock)
    · have hne := hself hu (by rw [hstage]; simp)
      exact Or.inr (Or.inr ⟨u, uth, (update_of_ne hne _ _).trans hu, hstage⟩)
  · obtain ⟨uth, huth, hstage⟩ := h.locked u hu
    exact ⟨uth, (update_of_ne (hself huth (by rw [hstage]; simp)) _ _).trans huth, hstage⟩
  · have hs := Stage.captured.inj (Option.some.inj hs)
    obtain ⟨o, ho, hd⟩ := Option.bind_eq_some_iff.mp hs
    exact ⟨hdone id o d ho hd, h.latest id o d ho (hc.uses id o ⟨hsearch, Or.inr hobject⟩ ho) hd⟩
  · rintro (hs | ⟨-, hnone⟩)
    · exact absurd hs hsearch
    · rw [hnative] at hnone
      contradiction

theorem underway_move (hr : Running conf G A r s w) (h : Underway w) (hth : w.threads t = some th)
    (hstep : w.move t th = some w') : Underway w' := by
  unfold World.move at hstep
  split at hstep
  · contradiction
  · rename_i hnative
    obtain rfl := Option.some.inj hstep
    exact underway_load hr h hth hnative
  · rename_i hnative
    exact underway_submit hr h hth hnative (fun _ => rfl) hstep
  · rename_i hnative
    obtain rfl := Option.some.inj hstep
    exact underway_capture hr h hth hnative
  · rename_i hnative
    exact underway_submit hr h hth hnative (fun _ => rfl) hstep
  · rename_i hnative
    exact underway_read hr h hth hnative hstep

/-! Any step, and any run. -/

theorem free_unnative (hth : w.threads t = some th) (hnative : th.native = none)
    (hsearch : Searches th ∨ Failed th → ∀ th', w'.threads t = some th' →
      Searches th' ∨ Failed th') : Free w w' t := by
  refine ⟨fun uth hu => ?_, fun uth th' hu hth' hs => ?_, fun hnone => ?_⟩
  · obtain rfl := Option.some.inj (hth.symm.trans hu)
    unfold stage
    rw [hnative]
    exact ⟨by simp, by simp⟩
  · obtain rfl := Option.some.inj (hth.symm.trans hu)
    exact hsearch hs th' hth'
  · rw [hth] at hnone
    contradiction

/-- A call that is over is at neither end of the lock. -/
theorem ended_stage (h : w.ended conf th.name th.native = true) :
    stage th ≠ some .enter ∧ stage th ≠ some .submitting := by
  unfold World.ended at h
  unfold stage
  split at h
  · rename_i heq
    simp [heq]
  · contradiction
  · rename_i heq
    have hleft := of_decide_eq_true h
    simp [heq, stageOf, hleft]
  · rename_i heq
    simp [heq, stageOf]
  · contradiction
  · rename_i heq
    simp [heq, stageOf]
  · contradiction

theorem free_ended (hth : w.threads t = some th) (hended : w.ended conf th.name th.native = true)
    (hsearch : Searches th ∨ Failed th → ∀ th', w'.threads t = some th' →
      Searches th' ∨ Failed th') : Free w w' t := by
  refine ⟨fun uth hu => ?_, fun uth th' hu hth' hs => ?_, fun hnone => ?_⟩
  · obtain rfl := Option.some.inj (hth.symm.trans hu)
    exact ended_stage hended
  · obtain rfl := Option.some.inj (hth.symm.trans hu)
    exact hsearch hs th' hth'
  · rw [hth] at hnone
    contradiction

theorem underway_go (hr : Running conf G A r s w) (h : Underway w) (hth : w.threads t = some th)
    (hnative : th.native = none) {us : UInt64} (hstep : w.go conf t th us = some w')
    (hlen : w.core.log.length ≤ w'.core.log.length) : Underway w' := by
  refine underway_turn h (free_unnative hth hnative fun hs th' hth' => ?_) hlen
    (turn_go hr hth us hstep)
  unfold World.go at hstep
  rcases hs with (hs | ⟨i, hs⟩) | ⟨hs, -⟩
  · rw [hs] at hstep
    obtain rfl := Option.some.inj hstep
    obtain rfl := Option.some.inj ((update_self t _ _).symm.trans hth')
    exact Or.inl (Or.inr ⟨_, rfl⟩)
  · rw [hs] at hstep
    contradiction
  · rw [hs] at hstep
    contradiction

theorem underway_resume (hr : Running conf G A r s w) (h : Underway w)
    (hth : w.threads t = some th) (hended : w.ended conf th.name th.native = true) {us : UInt64}
    (hstep : w.resume conf t th us = some w') (hlen : w.core.log.length ≤ w'.core.log.length) :
    Underway w' := by
  refine underway_turn h (free_ended hth hended fun hs th' hth' => ?_) hlen
    (turn_resume (hr.manned.crewed t th hth).2 us hstep)
  unfold World.resume at hstep
  rcases hs with (hs | ⟨i, hs⟩) | ⟨hs, -⟩
  · rw [hs] at hstep
    contradiction
  · rw [hs] at hstep
    obtain rfl := Option.some.inj hstep
    have hgone : update w.threads t none t = some th' := hth'
    rw [update_self] at hgone
    contradiction
  · rw [hs] at hstep
    contradiction

theorem underway_request (hr : Running conf G A r s w) (h : Underway w) : Underway
    { (w.set w.next (Thread.request name)) with next := w.next + 1 } := by
  have hnew : w.threads w.next = none := hr.manned.unused
  refine @underway_turn w _ w.next h ⟨fun th hth => ?_, fun th th' hth => ?_, fun _ => le_refl _⟩
    (le_refl _) ⟨rfl, rfl, Nat.le_succ _, fun u uth hut hu => ?_, fun u uth hut hu => Or.inl ?_,
      fun th hth => ?_, Or.inl (.refl _)⟩
  · rw [hnew] at hth
    contradiction
  · rw [hnew] at hth
    contradiction
  · exact (update_of_ne hut _ _).trans hu
  · exact (update_of_ne hut _ _).symm.trans hu
  · obtain rfl := Option.some.inj ((update_self w.next _ w.threads).symm.trans hth)
    exact ⟨Or.inl rfl, by simp [Thread.request]⟩

theorem underway_kill (hr : Running conf G A r s w) (h : Underway w) (hth : w.threads t = some th)
    {frame : Frame} (hframe : th.frame = some frame) (hnot : frame ≠ .search)
    (hnot' : ∀ i, frame ≠ .searching i) :
    Underway (w.set t { th with held := none, own := none, loaded := false, frame := none }) := by
  have hsame : ∀ {u uth}, w.threads u = some uth → ∃ uth',
      (w.set t { th with held := none, own := none, loaded := false, frame := none }).threads u =
        some uth' ∧ stage uth' = stage uth := by
    intro u uth hu
    by_cases hut : u = t
    · subst hut
      obtain rfl := Option.some.inj (hth.symm.trans hu)
      exact ⟨_, update_self .., rfl⟩
    · exact ⟨uth, (update_of_ne hut _ _).trans hu, rfl⟩
  refine @underway_stage w _ t th _ h hth rfl rfl rfl hr.grounded.engaged.done
    (fun d hlt howed => ?_) (fun u hu => ?_) (fun d hs => Or.inl hs) (fun done _ => rfl)
    (fun i goal heq => by contradiction) ?_
  · rcases howed with hlt | hlock | ⟨u, uth, hu, hstage⟩
    · exact Or.inl hlt
    · exact Or.inr (Or.inl hlock)
    · obtain ⟨uth', hu', hsame⟩ := hsame hu
      exact Or.inr (Or.inr ⟨u, uth', hu', hsame.trans hstage⟩)
  · obtain ⟨uth, huth, hstage⟩ := h.locked u hu
    obtain ⟨uth', hu', hsame⟩ := hsame huth
    exact ⟨uth', hu', hsame.trans hstage⟩
  · rintro (hs | ⟨hnone, -⟩)
    · exact absurd hs (not_searches hframe hnot hnot')
    · rw [hframe] at hnone
      contradiction

theorem underway_action {a : Action} (hr : Running conf G A r s w) (h : Underway w)
    (hstep : w.step conf a = some w') : Underway w' := by
  have hlen : w.core.log.length ≤ w'.core.log.length := by
    obtain ⟨more, hmore⟩ := (grows_step hstep).longer
    rw [hmore, List.length_append]
    omega
  cases a with
  | request name =>
    obtain rfl := Option.some.inj hstep
    exact underway_request hr h
  | ask t ask =>
    obtain ⟨th, hth, hstep⟩ := Option.bind_eq_some_iff.mp hstep
    split at hstep
    · rename_i hidle
      obtain ⟨hframe, hnone⟩ := hidle
      have hnative := Option.isNone_iff_eq_none.mp hnone
      refine underway_turn h (free_unnative hth hnative fun hs => ?_) hlen
        (turn_ask hframe hnative hstep)
      rcases hs with hs | ⟨hs, -⟩
      · exact absurd hs (not_searches hframe (by simp) (by simp))
      · rw [hframe] at hs
        contradiction
    · contradiction
  | go t us =>
    obtain ⟨th, hth, hstep⟩ := Option.bind_eq_some_iff.mp hstep
    split at hstep
    · rename_i hnone
      exact underway_go hr h hth (Option.isNone_iff_eq_none.mp hnone) hstep hlen
    · contradiction
  | move t =>
    obtain ⟨th, hth, hstep⟩ := Option.bind_eq_some_iff.mp hstep
    exact underway_move hr h hth hstep
  | resume t us =>
    obtain ⟨th, hth, hstep⟩ := Option.bind_eq_some_iff.mp hstep
    split at hstep
    · rename_i hended
      exact underway_resume hr h hth hended hstep hlen
    · contradiction
  | commit c k =>
    unfold World.step at hstep
    dsimp only at hstep
    split at hstep
    · obtain rfl := Option.some.inj hstep
      exact underway_handed h rfl rfl rfl rfl (le_refl _)
    · contradiction
  | kill t =>
    obtain ⟨th, hth, hstep⟩ := Option.bind_eq_some_iff.mp hstep
    split at hstep
    · contradiction
    · contradiction
    · contradiction
    · rename_i hnone hsearch hsearching
      obtain rfl := Option.some.inj hstep
      cases hframe : th.frame with
      | none => exact absurd hframe hnone
      | some frame =>
        exact underway_kill hr h hth hframe (fun heq => hsearch (heq ▸ hframe))
          fun i heq => hsearching i (heq ▸ hframe)
  | reap t =>
    obtain ⟨th, hth, hstep⟩ := Option.bind_eq_some_iff.mp hstep
    split at hstep
    · rename_i hover
      obtain rfl := Option.some.inj hstep
      refine underway_turn h (free_ended hth hover.2 fun hs th' hth' => ?_) hlen
        (turn_drop rfl rfl rfl rfl rfl)
      have hgone : update w.threads t none t = some th' := hth'
      rw [update_self] at hgone
      contradiction
    · contradiction
  | release id =>
    unfold World.step at hstep
    dsimp only at hstep
    split at hstep
    · contradiction
    · obtain rfl := Option.some.inj hstep
      refine ⟨h.locked, fun i o d ho hread hd => ?_, fun u uth d hu hstage => ?_, h.plain, h.sought⟩
      · obtain ⟨o', ho', hread', hd'⟩ := dones_release id i o d ho hread hd
        exact h.latest i o' d ho' hread' hd'
      · obtain ⟨hlt, howed⟩ := h.captured u uth d hu hstage
        exact ⟨hlt.trans_le hlen, howed⟩

theorem underway_run {actions : List Action} (hA : Promises conf G A) (hr : Running conf G A r s w)
    (h : Underway w) (hadmits : ∀ a ∈ actions, Admits G a) (hrun : w.run conf actions = some w') :
    Underway w' := by
  induction actions generalizing w with
  | nil =>
    obtain rfl := Option.some.inj hrun
    exact h
  | cons a rest ih =>
    obtain ⟨v, hstep, hrest⟩ := Option.bind_eq_some_iff.mp hrun
    exact ih (running_action hA hr (hadmits a List.mem_cons_self) hstep)
      (underway_action hr h hstep) (fun b hb => hadmits b (List.mem_cons_of_mem a hb)) hrest

theorem underway_start (s : EngineObjects.Store) (last : UInt64) : Underway (World.start s last) :=
  ⟨fun _ hu => by contradiction, fun _ _ _ ho => by contradiction, fun _ _ _ hu => by contradiction,
    fun _ _ _ hu => by contradiction, fun _ _ _ _ hu => by contradiction⟩

end Swiftacular.WorkUnderway
