import Swiftacular.DeviceTurns
import Swiftacular.StepRuns

/-!
Whole runs of the Device. Requests come and end, Objects nobody keeps are
released, and what the store has becomes durable; whatever is done next, what
holds between two steps holds after it, and so in every state a run reaches.
-/
namespace Swiftacular.DeviceInvariant

open Function EntryStore EngineObjects Versions EngineRuns LiveObjects HeldEntries PreparedLog DeviceRuns
  DeviceEngine DeviceWorld DeviceSteps DeviceSearches DeviceDecisions DeviceReads DeviceTurns

section Definitions

variable (G : Goal → Prop)

/-- What the requests of a run ask for. -/
def Admits : Action → Prop
  | .ask _ ask => Asks G ask
  | _ => True

end Definitions

variable {conf : Conf} {G : Goal → Prop} {A : Answer → Option View → Prop} {r : Record} {s : Store}
  {w w' : World} {t id : ℕ} {th : Thread} {name : Name}

/-! The moves of a call, and what an idle request asks for. -/

theorem running_move (h : Running conf G A r s w) (hth : w.threads t = some th)
    (hstep : w.move t th = some w') : Running conf G A r s w' := by
  have hc := (h.manned.crewed t th hth).2
  unfold World.move at hstep
  cases hnative : th.native with
  | none => simp [hnative] at hstep
  | some native =>
    rw [hnative] at hstep
    have hsubmit : ∀ id stage, native = .sync id stage →
        w.submit t th stage (.sync id) = some w' → Running conf G A r s w' := by
      intro id stage heq hcall
      subst heq
      exact running_submit h hth hnative (by simp) (fun _ => rfl)
        (fun stage' hnot => placed_sync hc.placed hnative fun done heq => absurd heq (hnot done))
        (fun stage' k hnot hs => syncs_goes hnative (fun done heq => absurd heq (hnot done)) hs) hcall
    cases native with
    | «open» id =>
      obtain rfl := Option.some.inj hstep
      exact running_load h hth hnative
    | submit stage =>
      refine running_submit h hth hnative (by simp) (fun _ => rfl)
        (fun stage' _ => placed_submit hc.placed hnative) (fun stage' k _ hs => ?_) hstep
      exact absurd hs (not_syncs (by simp [hnative]) k)
    | sync id stage =>
      cases stage with
      | left =>
        obtain rfl := Option.some.inj hstep
        exact running_capture h hth hnative
      | enter => exact hsubmit id .enter rfl hstep
      | submitting => exact hsubmit id .submitting rfl hstep
      | captured done => exact hsubmit id (.captured done) rfl hstep
    | read part id offset size look => exact running_read h hth hnative hstep

theorem running_asked {ask : Ask} (h : Running conf G A r s w) (hth : w.threads t = some th)
    (hframe : th.frame = some .idle) (hnative : th.native = none) (hasks : Asks G ask)
    (hstep : w.ask t th ask = some w') : Running conf G A r s w' := by
  cases ask with
  | create us => exact running_create h hth hframe hnative hstep
  | write data => exact running_write h hth hframe hnative hstep
  | «open» | info | put | delete | post | iterate =>
    exact running_ask h hth hframe hnative hasks (by simp) (by simp) hstep

/-! Requests that come and go. -/

theorem running_request (h : Running conf G A r s w) : Running conf G A r s
    { (w.set w.next (Thread.request name)) with next := w.next + 1 } := by
  have hnew := h.manned.unused
  have hfree : ∀ i, ¬ (Thread.request name).keeps i := by
    rintro i (hi | (hi | hi) | hi | hi) <;> contradiction
  have hidle : ¬ Searches (Thread.request name) := not_searches rfl (by simp) (by simp)
  have hcalm : ∀ uth, Calm conf r w
      { (w.set w.next (Thread.request name)) with next := w.next + 1 } uth := by
    intro uth
    refine calm_same ?_ ?_ (fun c => ?_) uth
    · rfl
    · rfl
    · exact le_refl _
  have hmanned : Manned conf G A r
      { (w.set w.next (Thread.request name)) with next := w.next + 1 } := by
    refine @manned_step conf G A r w _ w.next none (some (Thread.request name)) h.manned
      ⟨hnew, rfl, fun uth heq => ?_, fun uth heq i hi => ?_, fun uth heq i hi => ?_,
        fun uth heq => by contradiction⟩ (Nat.le_succ _) rfl (fun _ => le_refl _) (fun _ _ hk => hk)
      (fun u uth _ _ => hcalm uth) (fun i o ho _ => Or.inl ho)
      (fun uth heq => by contradiction) fun uth heq hs => ?_
    · obtain rfl := Option.some.inj heq
      refine ⟨Nat.lt_succ_self _, fun i hi => absurd hi (hfree i),
        fun i o hi => absurd (keeps_owned hi) (hfree i), fun i o hi => by contradiction,
        fun i o huses => absurd huses.keeps (hfree i), fun g hg => by contradiction,
        fun i hi => by contradiction, fun hloaded => by contradiction,
        fun i o hi => absurd (keeps_owned hi) (hfree i), rfl⟩
    · obtain rfl := Option.some.inj heq
      exact absurd (keeps_owned hi) (hfree i)
    · obtain rfl := Option.some.inj heq
      exact absurd hi (hfree i)
    · obtain rfl := Option.some.inj heq
      exact absurd hs hidle
  exact @running_step conf G A r s w _ [] h
    (h.grounded.same rfl rfl rfl rfl (h.grounded.shown.same rfl rfl rfl rfl rfl)) hmanned
    ⟨[], (List.append_nil _).symm⟩ (fun _ => rfl) (fun _ => le_refl _) (List.append_nil _).symm
    (fun e he => absurd he List.not_mem_nil) fun n e he => absurd he List.not_mem_nil

/-- A request ends; a call it started goes on. -/
theorem running_kill {frame : Frame} (h : Running conf G A r s w) (hth : w.threads t = some th)
    (hframe : th.frame = some frame) (hnot : frame ≠ .search) (hnot' : ∀ i, frame ≠ .searching i) :
    Running conf G A r s
      (w.set t { th with held := none, own := none, loaded := false, frame := none }) := by
  have hc := (h.manned.crewed t th hth).2
  have hsearch := not_searches hframe hnot hnot'
  let th' : Thread := { th with held := none, own := none, loaded := false, frame := none }
  have hkeeps : ∀ i, th'.keeps i → th.native.bind Native.object = some i := by
    rintro i (hi | (hi | hi) | hi | hi)
    · contradiction
    · contradiction
    · contradiction
    · contradiction
    · exact hi
  have howns : ∀ i, ¬ th'.owns i := by
    rintro i (hi | hi) <;> contradiction
  have hcrewed : Crewed conf G A r w th' := by
    refine ⟨fun i hi => hc.alive i (keeps_native (hkeeps i hi)),
      fun i o hi => absurd hi (howns i), fun i o hi => by contradiction,
      fun i o huses => hc.uses i o ⟨hsearch, Or.inr (hkeeps i huses.keeps)⟩,
      fun g hg => by contradiction, fun i hi => by contradiction,
      fun hloaded => by contradiction, fun i o hi => absurd hi (howns i), fun i hopen => ?_⟩
    exact hnot' i (Option.some.inj (hframe.symm.trans (searching_of_open hc hopen).1))
  refine running_thread [] h hth hsearch rfl rfl rfl rfl rfl
    (h.grounded.shown.same rfl rfl rfl rfl rfl) rfl rfl (List.append_nil _).symm
    (fun e he => absurd he List.not_mem_nil) (fun n e he => absurd he List.not_mem_nil)
    (fun uth heq => ?_) fun k hs => Or.inr ⟨th', rfl, hs⟩
  obtain rfl := Option.some.inj heq
  refine ⟨rfl, ?_, hcrewed, fun i hi => absurd hi (howns i),
    fun i hi => Or.inl (keeps_native (hkeeps i hi))⟩
  rintro (hs | ⟨i, hs⟩) <;> contradiction

/-- A call that nobody waits for is over. -/
theorem running_reap (h : Running conf G A r s w) (hth : w.threads t = some th)
    (hframe : th.frame = none) (hended : w.ended conf th.name th.native = true) :
    Running conf G A r s (w.drop t) := by
  have hsearch : ¬ Searches th := by
    rintro (hs | ⟨i, hs⟩) <;> simp [hframe] at hs
  refine running_thread [] h hth hsearch rfl rfl rfl rfl rfl
    (h.grounded.shown.same rfl rfl rfl rfl rfl) rfl rfl (List.append_nil _).symm
    (fun e he => absurd he List.not_mem_nil) (fun n e he => absurd he List.not_mem_nil)
    (fun uth heq => by contradiction) fun k hs => Or.inl ?_
  obtain ⟨i, stage, hnative⟩ := syncs_native hs
  rw [hnative] at hended
  cases stage with
  | captured done => exact committed_syncs hnative hended hs
  | enter => simp [World.ended] at hended
  | submitting => simp [World.ended] at hended
  | left => simp [World.ended] at hended

/-- An Object that nothing keeps is released. -/
theorem running_release (h : Running conf G A r s w) (hkept : w.kept id = false) :
    Running conf G A r s { w with core := w.core.release id } := by
  have hfree : ∀ u uth, w.threads u = some uth → ¬ uth.keeps id := by
    intro u uth hu hkeeps
    have hlt := (h.manned.crewed u uth hu).1
    have hyes : w.kept id = true := by
      unfold World.kept
      refine List.any_eq_true.mpr ⟨u, List.mem_range.mpr hlt, ?_⟩
      simp [hu, hkeeps]
    rw [hkept] at hyes
    contradiction
  obtain ⟨hengaged, hlog⟩ := engaged_release h.grounded.engaged id
  have hheap : ∀ i, i ≠ id → (w.core.release id).heap i = w.core.heap i := by
    intro i hi
    unfold Core.release
    split
    · rfl
    · exact update_of_ne hi _ _
  have hold : ∀ i o, (w.core.release id).heap i = some o → w.core.heap i = some o := by
    intro i o ho
    unfold Core.release at ho
    split at ho
    · exact ho
    · rcases heap_update ho with ⟨-, heq⟩ | ⟨-, ho⟩
      · contradiction
      · exact ho
  obtain ⟨more, hlog, hquiet⟩ : ∃ more, (w.core.release id).log = w.core.log ++ more ∧
      ∀ n, ∀ u ∈ more, ¬ Touches n u := by
    rcases hlog with hlog | ⟨u, hlog, hnone⟩
    · exact ⟨[], by rw [hlog, List.append_nil], fun n u hu => absurd hu List.not_mem_nil⟩
    · refine ⟨[u], hlog, fun n u' hu => ?_⟩
      rw [List.mem_singleton.mp hu]
      exact hnone n
  have hfresh : (w.core.release id).fresh = w.core.fresh := by
    unfold Core.release
    split <;> rfl
  refine @running_quiet conf G A r s w _ w.next (w.threads w.next) (w.threads w.next) [] h
    ⟨⟨more, hlog, hquiet⟩, hfresh.ge, fun i o ho => Or.inl (hold i o ho)⟩ hengaged
    (h.grounded.shown.append hlog rfl rfl rfl rfl) rfl rfl rfl rfl (le_refl _)
    ⟨rfl, (update_eq_self _ _).symm, fun uth hu => ?_, fun uth hu i hi => ?_, fun uth hu i hi => ?_,
      fun uth hu => ?_⟩
    (fun u uth _ hu i hi => hheap i fun heq => hfree u uth hu (heq ▸ hi))
    (fun i o ho _ => Or.inl (hold i o ho)) (fun uth hu => ?_) (fun uth hu => ?_)
    (List.append_nil _).symm (fun e he => absurd he List.not_mem_nil)
    fun n e he => absurd he List.not_mem_nil <;>
  exact absurd (h.manned.crewed w.next uth hu).1 (lt_irrefl _)

/-! Any step, and any run. -/

theorem running_action {a : Action} (hA : Promises conf G A) (h : Running conf G A r s w)
    (hadmits : Admits G a) (hstep : w.step conf a = some w') : Running conf G A r s w' := by
  cases a with
  | request name =>
    obtain rfl := Option.some.inj hstep
    exact running_request h
  | ask t ask =>
    obtain ⟨th, hth, hstep⟩ := Option.bind_eq_some_iff.mp hstep
    split at hstep
    · rename_i hidle
      exact running_asked h hth hidle.1 (Option.isNone_iff_eq_none.mp hidle.2) hadmits hstep
    · contradiction
  | go t us =>
    obtain ⟨th, hth, hstep⟩ := Option.bind_eq_some_iff.mp hstep
    split at hstep
    · rename_i hnone
      exact running_go hA h hth (Option.isNone_iff_eq_none.mp hnone) hstep
    · contradiction
  | move t =>
    obtain ⟨th, hth, hstep⟩ := Option.bind_eq_some_iff.mp hstep
    exact running_move h hth hstep
  | resume t us =>
    obtain ⟨th, hth, hstep⟩ := Option.bind_eq_some_iff.mp hstep
    split at hstep
    · rename_i hended
      exact running_resume hA h hth hended hstep
    · contradiction
  | commit c k =>
    unfold World.step at hstep
    dsimp only at hstep
    split at hstep
    · rename_i hle
      obtain rfl := Option.some.inj hstep
      refine running_store h rfl rfl rfl rfl rfl rfl (fun d => ?_) (fun d => ?_)
        (h.grounded.shown.same rfl rfl rfl rfl rfl)
      · change w.durable d ≤ update w.durable c k d
        by_cases hd : d = c
        · rw [hd, update_self]
          exact hle.1
        · rw [update_of_ne hd]
      · change update w.durable c k d ≤ w.handed
        by_cases hd : d = c
        · rw [hd, update_self]
          exact hle.2
        · rw [update_of_ne hd]
          exact h.grounded.durable d
    · contradiction
  | kill t =>
    obtain ⟨th, hth, hstep⟩ := Option.bind_eq_some_iff.mp hstep
    split at hstep
    · contradiction
    · contradiction
    · contradiction
    · rename_i hnone hsearch hsearching
      obtain rfl := Option.some.inj hstep
      cases hframe : th.frame with
      | none => exact absurd hframe hnone
      | some frame =>
        exact running_kill h hth hframe (fun heq => hsearch (heq ▸ hframe))
          fun i heq => hsearching i (heq ▸ hframe)
  | reap t =>
    obtain ⟨th, hth, hstep⟩ := Option.bind_eq_some_iff.mp hstep
    split at hstep
    · rename_i hover
      obtain rfl := Option.some.inj hstep
      exact running_reap h hth hover.1 hover.2
    · contradiction
  | release id =>
    unfold World.step at hstep
    dsimp only at hstep
    split at hstep
    · contradiction
    · rename_i hkept
      obtain rfl := Option.some.inj hstep
      exact running_release h (by simpa using hkept)

theorem running_run {actions : List Action} (hA : Promises conf G A) (h : Running conf G A r s w)
    (hadmits : ∀ a ∈ actions, Admits G a) (hrun : w.run conf actions = some w') :
    Running conf G A r s w' := by
  induction actions generalizing w with
  | nil =>
    obtain rfl := Option.some.inj hrun
    exact h
  | cons a rest ih =>
    obtain ⟨v, hstep, hrest⟩ := Option.bind_eq_some_iff.mp hrun
    exact ih (running_action hA h (hadmits a List.mem_cons_self) hstep)
      (fun b hb => hadmits b (List.mem_cons_of_mem a hb)) hrest

/-- A Device that was just mounted. -/
theorem running_mounted (h : Mounted r s) (last : UInt64) :
    Running conf G A r s (World.start s last) := by
  have hheap : ∀ i, (World.start s last).core.heap i = none := fun i => rfl
  have hthreads : ∀ t, (World.start s last).threads t = none := fun t => rfl
  have hobjects : ∀ n, (World.start s last).objects n = none := fun n => rfl
  have htouched : ∀ n k, ¬ TouchedAt (World.start s last).core.log n k :=
    fun n k hk => Nat.not_lt_zero k hk.lt
  refine ⟨⟨engaged_mounted h last, ⟨⟨le_refl _, le_refl _⟩, fun _ => rfl, s, rfl, rfl⟩,
      fun c => le_refl _, fun n i hi => ?_, fun n i o hi => ?_, fun i o ho => ?_, fun i o ho => ?_⟩,
    ⟨fun t th hth => ?_, fun t t' th th' i hth => ?_, fun n t ht => ?_, fun t th hth => ?_,
      fun i o ho => ?_, fun n k hk => absurd hk (htouched n k)⟩,
    fun e he => absurd he List.not_mem_nil, fun n => rfl⟩
  · simp [hobjects] at hi
  · simp [hobjects] at hi
  · simp [hheap] at ho
  · simp [hheap] at ho
  · simp [hthreads] at hth
  · simp [hthreads] at hth
  · simp [hobjects] at ht
  · simp [hthreads] at hth
  · simp [hheap] at ho

theorem running_start (h : Swept r s) (last : UInt64) : Running conf G A r s (World.start s last) :=
  running_mounted (mounted_swept h) last

/-- Any run of a Device, from a store that was swept. -/
theorem running_started {actions : List Action} (hA : Promises conf G A) (hs : Swept r s)
    (last : UInt64) (hadmits : ∀ a ∈ actions, Admits G a)
    (hrun : (World.start s last).run conf actions = some w) : Running conf G A r s w :=
  running_run hA (running_start hs last) hadmits hrun

/-! Where nothing is asked of the requests or of what they are told. -/

theorem promises_any (conf : Conf) : Promises conf (fun _ => True) fun _ _ => True :=
  ⟨fun _ _ _ _ _ => trivial, fun _ _ _ _ _ _ => trivial, fun _ _ => trivial⟩

theorem admits_any (a : Action) : Admits (fun _ => True) a := by
  cases a with
  | ask t ask =>
    cases ask with
    | put ts metadata => exact fun _ => trivial
    | delete ts metadata => exact trivial
    | post metadata => exact trivial
    | «open» | info | create | write | iterate => exact trivial
  | request | go | move | resume | commit | kill | reap | release => exact trivial

theorem running_any {actions : List Action} (hs : Swept r s) (last : UInt64)
    (hrun : (World.start s last).run conf actions = some w) :
    Running conf (fun _ => True) (fun _ _ => True) r s w :=
  running_started (promises_any conf) hs last (fun a _ => admits_any a) hrun

end Swiftacular.DeviceInvariant
