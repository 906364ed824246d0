import Swiftacular.DeviceDecisions

/-!
The calls in the pool, one move at a time, and what a thread makes of one that
is over. A metadata read that nothing came between has the metadata of what
holds the name: its sync has made the name settled, and each look finds what
is still there.
-/
namespace Swiftacular.DeviceReads

open Function EntryStore EngineObjects Versions EngineRuns LiveObjects HeldEntries PreparedLog
  DeviceRuns DeviceEngine DeviceWorld DeviceSteps DeviceSearches DeviceDecisions

variable {conf : Conf} {G : Goal → Prop} {A : Answer → Option View → Prop} {r : Record} {s : Store}
  {w w' : World} {t id : ℕ} {th : Thread} {native native' : Native}

/-- Where a thread is that waits for a call, other than a search's. -/
theorem in_call (h : Placed conf A r w th) (hnative : th.native = some native)
    (hopen : ∀ i, native ≠ .open i) : th.frame = none ∨
      (∃ id version data tries goal, th.frame = some (.reading id version data tries goal) ∧
        (data = [] ∧ (∃ stage, native = .sync id stage) ∨
          ∃ look, native = .read .header id data.length conf.chunkSize look)) ∨
      (th.frame = some .writing ∧ ∃ stage, native = .submit stage) ∨
      (∃ id answer stage, th.frame = some (.syncing id answer) ∧ native = .sync id stage) ∨
      ∃ id offset stop tries size look, th.frame = some (.fetching id offset stop tries) ∧
        native = .read .data id offset size look := by
  have hsome : ∀ {n}, th.native = some n → native = n := fun hn => Option.some.inj (hnative.symm.trans hn)
  have hnone : th.native ≠ none := by simp [hnative]
  cases hframe : th.frame with
  | none => exact Or.inl rfl
  | some frame =>
    unfold Placed at h
    rw [hframe] at h
    cases frame with
    | searching i =>
      obtain ⟨-, -, o, -, -, ⟨hcall, -⟩ | ⟨hcall, -⟩⟩ := h
      · exact absurd (hsome hcall) (hopen i)
      · exact absurd hcall hnone
    | reading i version data tries goal =>
      obtain ⟨-, -, ⟨hdata, stage, hcall⟩ | ⟨look, hcall⟩, -⟩ := h
      · exact Or.inr (Or.inl ⟨_, _, _, _, _, rfl, Or.inl ⟨hdata, stage, hsome hcall⟩⟩)
      · exact Or.inr (Or.inl ⟨_, _, _, _, _, rfl, Or.inr ⟨look, hsome hcall⟩⟩)
    | writing =>
      obtain ⟨stage, hcall⟩ := h
      exact Or.inr (Or.inr (Or.inl ⟨rfl, stage, hsome hcall⟩))
    | syncing i answer =>
      obtain ⟨stage, k, hcall, -⟩ := h
      exact Or.inr (Or.inr (Or.inr (Or.inl ⟨i, answer, stage, rfl, hsome hcall⟩)))
    | fetching i offset stop tries =>
      obtain ⟨size, look, hcall⟩ := h
      exact Or.inr (Or.inr (Or.inr (Or.inr ⟨i, offset, stop, tries, size, look, rfl, hsome hcall⟩)))
    | search | starting => exact absurd h.1 hnone
    | idle | opening | waiting | asking => exact absurd h hnone

/-- Only a search opens an Object. -/
theorem not_searches_calls (h : Placed conf A r w th) (hnative : th.native = some native)
    (hopen : ∀ i, native ≠ .open i) : ¬ Searches th := by
  rintro (hs | ⟨i, hs⟩) <;>
  · rcases in_call h hnative hopen with hf | ⟨_, _, _, _, _, hf, -⟩ | ⟨hf, -⟩ | ⟨_, _, _, hf, -⟩ |
      ⟨_, _, _, _, _, _, hf, -⟩ <;> simp [hs] at hf

/-- The Object of a call is there. -/
theorem called (hc : Crewed conf G A r w th) (hnative : th.native = some native)
    (hopen : ∀ i, native ≠ .open i) (hid : native.object = some id) :
    ∃ o, w.core.heap id = some o ∧ o.name = th.name ∧ Readable o := by
  have hobject : th.native.bind Native.object = some id := by rw [hnative]; exact hid
  obtain ⟨o, ho, hname⟩ := hc.alive id (keeps_native hobject)
  exact ⟨o, ho, hname, hc.uses id o ⟨not_searches_calls hc.placed hnative hopen, Or.inr hobject⟩ ho⟩

/-- A call goes on, on the Object it is about. -/
theorem takes_native (hsearch : ¬ Searches th) (hnative : th.native = some native)
    (hobject : native'.object = native.object)
    (hplaced : Placed conf A r w { th with native := some native' }) :
    TakesUp conf G A r w th { th with native := some native' } := by
  refine ⟨rfl, hsearch, fun _ h => h, fun _ h => Or.inl h,
    fun i hi => Or.inl ?_, fun goal hg => Or.inl ⟨hg, rfl⟩, fun hloaded => Or.inl ⟨hloaded, rfl⟩,
    hplaced⟩
  refine hi.imp_right fun hi => ?_
  rw [hnative, Option.bind_some, ← hobject]
  exact hi

/-- A thread's call goes on, and nothing else that the others know of. -/
theorem running_goes (more : List Event) (h : Running conf G A r s w) (hth : w.threads t = some th)
    (hnative : th.native = some native) (hopen : ∀ i, native ≠ .open i)
    (hobject : native'.object = native.object)
    (hplaced : Placed conf A r w { th with native := some native' })
    (hguard : ∀ k, Syncs w th k → Syncs w { th with native := some native' } k)
    (hcore : w'.core = w.core) (hobjects : w'.objects = w.objects)
    (hversions : w'.versions = w.versions) (hdurable : w'.durable = w.durable)
    (hhanded : w'.handed = w.handed) (hshown : Shown s w') (hnext : w'.next = w.next)
    (hthreads : w'.threads = update w.threads t (some { th with native := some native' }))
    (hevents : w'.events = w.events ++ more) (htold : ∀ e ∈ more, Tells conf A r w e)
    (hquiet : ∀ n, ∀ e ∈ more, goalOn n e = none) : Running conf G A r s w' := by
  have hc := (h.manned.crewed t th hth).2
  have hsearch := not_searches_calls hc.placed hnative hopen
  have htakes : TakesUp conf G A r w th _ := takes_native hsearch hnative hobject hplaced
  obtain ⟨hcrewed, hkeeps⟩ := htakes.crewed hc hsearch
  refine running_thread more h hth hsearch hcore hobjects hversions hdurable hhanded hshown hnext
    hthreads hevents htold hquiet (fun th' heq => ?_) fun k hs => Or.inr ⟨_, rfl, hguard k hs⟩
  obtain rfl := Option.some.inj heq
  exact ⟨rfl, htakes.search, hcrewed, htakes.owns, hkeeps⟩

/-! Submits and syncs. -/

/-- What a sync has captured is what its Object's future is. -/
def Captures (w : World) (id : ℕ) (stage : Stage) : Prop :=
  ∀ done, stage = .captured done → ∃ o, w.core.heap id = some o ∧ done = o.done

theorem syncs_goes {stage stage' : Stage} {k : ℕ} (hnative : th.native = some (.sync id stage))
    (hstage : Captures w id stage') (hs : Syncs w th k) :
    Syncs w { th with native := some (.sync id stage') } k := by
  obtain ⟨i, stage₀, o, hcall, ho, hread, hcovers, -⟩ := hs
  obtain ⟨rfl, rfl⟩ := Native.sync.inj (Option.some.inj (hnative.symm.trans hcall))
  refine ⟨id, stage', o, rfl, ho, hread, hcovers, fun done hdone => ?_⟩
  obtain ⟨o', ho', rfl⟩ := hstage done hdone
  obtain rfl := Option.some.inj (ho.symm.trans ho')
  exact hcovers

theorem placed_sync {stage stage' : Stage} (h : Placed conf A r w th)
    (hnative : th.native = some (.sync id stage)) (hstage : Captures w id stage') :
    Placed conf A r w { th with native := some (.sync id stage') } := by
  unfold Placed
  dsimp only
  rcases in_call h hnative (by simp) with hf | ⟨i, version, data, tries, goal, hf, hcall⟩ |
    ⟨-, _, hcall⟩ | ⟨i, answer, stage₀, hf, hcall⟩ | ⟨_, _, _, _, _, _, -, hcall⟩
  · rw [hf]
    exact fun i => by simp
  · obtain ⟨rfl, rfl⟩ : data = [] ∧ i = id := by
      rcases hcall with ⟨hdata, stage₀, hcall⟩ | ⟨look, hcall⟩
      · exact ⟨hdata, (Native.sync.inj hcall).1.symm⟩
      · simp at hcall
    simp only [Placed, hf] at h ⊢
    refine ⟨h.1, h.2.1, Or.inl ⟨trivial, stage', rfl⟩, fun o ho _ _ => ⟨fun j done hcall => ?_,
      fun part j offset size look hcall => by simp at hcall⟩⟩
    obtain ⟨rfl, rfl⟩ := Native.sync.inj (Option.some.inj hcall)
    obtain ⟨o', ho', rfl⟩ := hstage done rfl
    obtain rfl := Option.some.inj (ho.symm.trans ho')
    rfl
  · simp at hcall
  · simp only [Placed, hf] at h ⊢
    obtain ⟨rfl, -⟩ := Native.sync.inj hcall
    obtain ⟨_, k, -, hk, hsyncs, hanswer⟩ := h
    exact ⟨stage', k, rfl, hk, hf ▸ syncs_goes hnative hstage hsyncs, hanswer⟩
  · simp at hcall

theorem placed_submit {stage stage' : Stage} (h : Placed conf A r w th)
    (hnative : th.native = some (.submit stage)) :
    Placed conf A r w { th with native := some (.submit stage') } := by
  unfold Placed
  dsimp only
  rcases in_call h hnative (by simp) with hf | ⟨_, _, _, _, _, -, ⟨-, _, hcall⟩ | ⟨_, hcall⟩⟩ |
    ⟨hf, -⟩ | ⟨_, _, _, -, hcall⟩ | ⟨_, _, _, _, _, _, -, hcall⟩
  · rw [hf]
    exact fun i => by simp
  · simp at hcall
  · simp at hcall
  · rw [hf]
    exact ⟨stage', rfl⟩
  · simp at hcall
  · simp at hcall

/-! The store and what is durable go on. -/

/-- The store is shown more, or more of what it was shown is durable. -/
theorem running_store (h : Running conf G A r s w) (hcore : w'.core = w.core)
    (hobjects : w'.objects = w.objects) (hversions : w'.versions = w.versions)
    (hthreads : w'.threads = w.threads) (hnext : w'.next = w.next) (hevents : w'.events = w.events)
    (hdurable : ∀ c, w.durable c ≤ w'.durable c) (hhanded : ∀ c, w'.durable c ≤ w'.handed)
    (hshown : Shown s w') : Running conf G A r s w' := by
  have hg := h.grounded
  have hgrounded : Grounded conf G r s w' := by
    refine ⟨hcore ▸ hg.engaged, hshown, hhanded, ?_, ?_, ?_, fun id o ho hactive k hk => ?_⟩
    · rw [hcore, hobjects]
      exact hg.known
    · rw [hcore, hobjects]
      exact hg.mapped
    · rw [hcore]
      exact hg.superseded
    · rw [hcore] at ho hk
      exact (hg.covered id o ho hactive k hk).imp_left fun hlt => hlt.trans_le (hdurable _)
  have hm := h.manned
  have hmanned : Manned conf G A r w' := by
    refine ⟨fun u uth hu => ?_, ?_, ?_, ?_, fun id o ho hactive => ?_, fun n k hk hpending => ?_⟩
    · rw [hthreads] at hu
      rw [hnext]
      exact ⟨(hm.crewed u uth hu).1, (hm.crewed u uth hu).2.same hcore hversions hdurable⟩
    · rw [hthreads]
      exact hm.apart
    · rw [hthreads, hobjects]
      exact hm.sought
    · rw [hthreads, hobjects]
      exact hm.searches
    · rw [hcore] at ho
      unfold FoundBy
      rw [hobjects, hthreads]
      exact hm.located id o ho hactive
    · rw [hcore] at hk
      obtain ⟨u, uth, hu, hname, hs⟩ := hm.guarded n k hk ((hdurable _).trans hpending)
      exact ⟨u, uth, hthreads ▸ hu, hname, hs.same hcore⟩
  exact @running_step conf G A r s w w' [] h hgrounded hmanned ⟨[], by rw [hcore, List.append_nil]⟩
    (fun n => by rw [hcore]) hdurable (by rw [hevents, List.append_nil])
    (fun e he => absurd he List.not_mem_nil) fun n e he => absurd he List.not_mem_nil

theorem shown_hand (h : Shown s w) (hbatch : w.handed < w.batch) (hstep : w.hand = some w') :
    Shown s w' ∧ w.handed ≤ w'.handed := by
  unfold World.hand at hstep
  obtain ⟨u, hu, hshow⟩ := h.store
  cases htxn : w.core.log[w.handed]? with
  | none => simp [htxn] at hstep
  | some txn =>
    have hlt := (List.getElem?_eq_some_iff.mp htxn).1
    rw [htxn] at hstep hshow
    dsimp only at hstep
    rw [Option.map_some, Option.getD_some] at hshow
    cases hop : txn.ops[w.part]? with
    | none =>
      rw [hop] at hstep
      obtain rfl := Option.some.inj hstep
      have hall : txn.ops.take w.part = txn.ops :=
        List.take_of_length_le (List.getElem?_eq_none_iff.mp hop)
      have htake : w.core.log.take (w.handed + 1) = w.core.log.take w.handed ++ [txn] := by
        rw [List.take_add_one, htxn, Option.toList_some]
      rw [hall] at hshow
      refine ⟨⟨⟨hbatch, h.handed.2⟩, fun _ => rfl, w.store, ?_, rfl⟩, Nat.le_succ _⟩
      dsimp only
      rw [htake, opsOf_concat, applyAll_append, hu, Option.bind_some, hshow]
    | some op =>
      rw [hop] at hstep
      obtain ⟨store, happly, rfl⟩ := Option.map_eq_some_iff.mp hstep
      refine ⟨⟨h.handed, fun heq => absurd heq hlt.ne, u, hu, ?_⟩, le_refl _⟩
      dsimp only
      rw [htxn, Option.map_some, Option.getD_some, List.take_add_one, hop, Option.toList_some,
        applyAll_append, hshow, Option.bind_some, applyAll_cons, happly]
      rfl

/-- A move of `submit`, by itself or in a sync. -/
theorem running_submit {stage : Stage} {call : Stage → Native} (h : Running conf G A r s w)
    (hth : w.threads t = some th) (hnative : th.native = some (call stage))
    (hopen : ∀ i, call stage ≠ .open i) (hobject : ∀ stage', (call stage').object = (call stage).object)
    (hplaced : ∀ stage', (∀ done, stage' ≠ .captured done) →
      Placed conf A r w { th with native := some (call stage') })
    (hguard : ∀ stage' k, (∀ done, stage' ≠ .captured done) → Syncs w th k →
      Syncs w { th with native := some (call stage') } k)
    (hstep : w.submit t th stage call = some w') : Running conf G A r s w' := by
  have hgoes : ∀ stage' w', (∀ done, stage' ≠ .captured done) → w'.core = w.core →
      w'.objects = w.objects → w'.versions = w.versions → w'.durable = w.durable →
      w'.handed = w.handed → w'.part = w.part → w'.batch = w.batch → w'.store = w.store →
      w'.next = w.next → w'.events = w.events →
      w'.threads = update w.threads t (some { th with native := some (call stage') }) →
      Running conf G A r s w' := by
    intro stage' w' hstage hcore hobjects hversions hdurable hhanded hpart hbatch hstore hnext
      hevents hthreads
    exact running_goes [] h hth hnative hopen (hobject stage') (hplaced stage' hstage)
      (fun k => hguard stage' k hstage) hcore hobjects hversions hdurable hhanded
      (h.grounded.shown.same (by rw [hcore]) hhanded hpart hbatch hstore) hnext hthreads
      (by rw [hevents, List.append_nil]) (fun e he => absurd he List.not_mem_nil)
      fun n e he => absurd he List.not_mem_nil
  cases stage with
  | enter =>
    unfold World.submit at hstep
    dsimp only at hstep
    cases hlock : w.lock with
    | none =>
      rw [hlock] at hstep
      obtain rfl := Option.some.inj hstep
      exact hgoes .submitting _ (by simp) rfl rfl rfl rfl rfl rfl rfl rfl rfl rfl rfl
    | some holder =>
      rw [hlock] at hstep
      obtain rfl := Option.some.inj hstep
      exact hgoes .left _ (by simp) rfl rfl rfl rfl rfl rfl rfl rfl rfl rfl rfl
  | submitting =>
    unfold World.submit at hstep
    dsimp only at hstep
    split at hstep
    · rename_i hlt
      obtain ⟨hshown, hle⟩ := shown_hand h.grounded.shown hlt hstep
      have hsame : w'.core = w.core ∧ w'.objects = w.objects ∧ w'.versions = w.versions ∧
          w'.threads = w.threads ∧ w'.next = w.next ∧ w'.events = w.events ∧
            w'.durable = w.durable := by
        unfold World.hand at hstep
        split at hstep
        · contradiction
        · split at hstep
          · obtain ⟨store, -, rfl⟩ := Option.map_eq_some_iff.mp hstep
            exact ⟨rfl, rfl, rfl, rfl, rfl, rfl, rfl⟩
          · obtain rfl := Option.some.inj hstep
            exact ⟨rfl, rfl, rfl, rfl, rfl, rfl, rfl⟩
      obtain ⟨hcore, hobjects, hversions, hthreads, hnext, hevents, hdurable⟩ := hsame
      exact running_store h hcore hobjects hversions hthreads hnext hevents
        (fun c => by rw [hdurable])
        (fun c => by rw [hdurable]; exact (h.grounded.durable c).trans hle) hshown
    · rename_i hge
      split at hstep
      · rename_i hmore
        obtain rfl := Option.some.inj hstep
        have hshown := h.grounded.shown
        exact running_store h rfl rfl rfl rfl rfl rfl (fun c => le_refl _) h.grounded.durable
          ⟨⟨hshown.handed.1.trans hmore.le, le_refl _⟩, hshown.part, hshown.store⟩
      · obtain rfl := Option.some.inj hstep
        exact hgoes .left _ (by simp) rfl rfl rfl rfl rfl rfl rfl rfl rfl rfl rfl
  | left => contradiction
  | captured done => contradiction

/-- The sync takes the future its Object has now. -/
theorem running_capture (h : Running conf G A r s w) (hth : w.threads t = some th)
    (hnative : th.native = some (.sync id .left)) : Running conf G A r s (w.set t
      { th with native := some (.sync id (.captured ((w.core.heap id).bind Object.done))) }) := by
  have hc := (h.manned.crewed t th hth).2
  obtain ⟨o, ho, -, -⟩ := called hc hnative (by simp) rfl
  have hstage : Captures w id (.captured ((w.core.heap id).bind Object.done)) := by
    intro done hdone
    refine ⟨o, ho, ?_⟩
    rw [← Stage.captured.inj hdone, ho]
    rfl
  have hplaced := placed_sync hc.placed hnative hstage
  have hguard := fun k (hs : Syncs w th k) => syncs_goes hnative hstage hs
  have hobject : (Native.sync id (.captured ((w.core.heap id).bind Object.done))).object =
      (Native.sync id .left).object := rfl
  exact running_goes [] h hth hnative (by simp) hobject hplaced hguard rfl rfl rfl rfl rfl
    (h.grounded.shown.same rfl rfl rfl rfl rfl) rfl rfl (List.append_nil _).symm
    (fun e he => absurd he List.not_mem_nil) fun n e he => absurd he List.not_mem_nil

/-! Looks at the store. -/

theorem placed_read {part : Part} {offset size : ℕ} {look look' : Look} (h : Placed conf A r w th)
    (hnative : th.native = some (.read part id offset size look))
    (hlooks : ∀ o v, w.core.heap id = some o → o.state = .active → part = .header →
      Settled conf w th.name → (r.after w.core.log).held th.name = some v →
        Looks th.name v.header offset size look → Looks th.name v.header offset size look') :
    Placed conf A r w { th with native := some (.read part id offset size look') } := by
  unfold Placed
  dsimp only
  rcases in_call h hnative (by simp) with hf | ⟨i, version, data, tries, goal, hf, hcall⟩ |
    ⟨-, _, hcall⟩ | ⟨_, _, _, -, hcall⟩ | ⟨i, offset', stop, tries, size', look₀, hf, hcall⟩
  · rw [hf]
    exact fun i => by simp
  · obtain ⟨rfl, rfl, rfl, rfl⟩ : part = .header ∧ i = id ∧ offset = data.length ∧
        size = conf.chunkSize := by
      rcases hcall with ⟨-, stage, hcall⟩ | ⟨look₀, hcall⟩
      · simp at hcall
      · obtain ⟨hpart, hid, hoffset, hsize, -⟩ := Native.read.inj hcall
        exact ⟨hpart, hid.symm, hoffset, hsize⟩
    simp only [Placed, hf] at h ⊢
    obtain ⟨hheld, hversion, -, hreading⟩ := h
    refine ⟨hheld, hversion, Or.inr ⟨look', rfl⟩, fun o ho hactive hsame =>
      ⟨fun j done hcall => by simp at hcall, fun part j offset size look'' hcall => ?_⟩⟩
    obtain ⟨rfl, rfl, rfl, rfl, rfl⟩ := Native.read.inj (Option.some.inj hcall)
    obtain ⟨hsettled, v, hv, hprefix, hold⟩ :=
      (hreading o ho hactive hsame).looked _ _ _ _ _ hnative
    exact ⟨hsettled, v, hv, hprefix, hlooks o v ho hactive rfl hsettled hv hold⟩
  · simp at hcall
  · simp at hcall
  · obtain ⟨rfl, rfl, rfl, rfl, -⟩ := Native.read.inj hcall
    rw [hf]
    exact ⟨size, look', rfl⟩

/-- A look goes on, and something is told of it. -/
theorem running_looks {part : Part} {offset size : ℕ} {look look' : Look} (more : List Event)
    (h : Running conf G A r s w) (hth : w.threads t = some th)
    (hnative : th.native = some (.read part id offset size look))
    (hlooks : ∀ o v, w.core.heap id = some o → o.state = .active → part = .header →
      Settled conf w th.name → (r.after w.core.log).held th.name = some v →
        Looks th.name v.header offset size look → Looks th.name v.header offset size look')
    (htold : ∀ e ∈ more, Tells conf A r w e) (hquiet : ∀ n, ∀ e ∈ more, goalOn n e = none) :
    Running conf G A r s ({ w with events := w.events ++ more }.set t
      { th with native := some (.read part id offset size look') }) := by
  have hc := (h.manned.crewed t th hth).2
  have hplaced := placed_read hc.placed hnative hlooks
  have hobject : (Native.read part id offset size look').object =
      (Native.read part id offset size look).object := rfl
  refine running_goes more h hth hnative (by simp) hobject hplaced (fun k hs => ?_) rfl rfl rfl rfl rfl
    (h.grounded.shown.same rfl rfl rfl rfl rfl) rfl rfl rfl htold hquiet
  obtain ⟨i, stage, heq⟩ := syncs_native hs
  rw [hnative] at heq
  simp at heq

theorem check_error {op : String} {st : EngineObjects.Store} {a : Address} {stat : Stat}
    {found : Bool} {e : Error} (h : check op st a stat found = .error e) : ¬ Misuse e := by
  unfold check at h
  split at h
  · split at h
    · obtain rfl := Except.error.inj h
      exact fun hm => hm
    · obtain rfl := Except.error.inj h
      exact fun hm => hm
    · split at h
      · obtain rfl := Except.error.inj h
        exact fun hm => hm
      · contradiction
  · obtain rfl := Except.error.inj h
    exact fun hm => hm

theorem running_read {part : Part} {offset size : ℕ} {look : Look} (h : Running conf G A r s w)
    (hth : w.threads t = some th) (hnative : th.native = some (.read part id offset size look))
    (hstep : w.read t th part id offset size look = some w') : Running conf G A r s w' := by
  have hc := (h.manned.crewed t th hth).2
  obtain ⟨o, ho, hname, hread⟩ := called hc hnative (by simp) rfl
  have hsilent : ∀ look', (∀ o v, w.core.heap id = some o → o.state = .active → part = .header →
      Settled conf w th.name → (r.after w.core.log).held th.name = some v →
        Looks th.name v.header offset size look → Looks th.name v.header offset size look') →
      Running conf G A r s (w.set t { th with native := some (.read part id offset size look') }) := by
    intro look' hlooks
    have hrun := running_looks [] h hth hnative hlooks (fun e he => absurd he List.not_mem_nil)
      fun n e he => absurd he List.not_mem_nil
    simpa only [List.append_nil] using hrun
  unfold World.read at hstep
  rw [ho] at hstep
  cases look with
  | start =>
    have hrequire : o.require part.op [.active, .old] = .ok () := by
      refine require_of_mem ?_
      rcases hread with hs | hs <;> simp [hs]
    dsimp only at hstep
    rw [hrequire] at hstep
    dsimp only at hstep
    split at hstep
    · rename_i hempty
      obtain rfl := Option.some.inj hstep
      refine hsilent _ fun _ _ _ _ hpart => ?_
      rw [hpart] at hempty
      exact absurd hempty.1 (by simp)
    · obtain rfl := Option.some.inj hstep
      refine hsilent _ fun p v hp hactive _ _ _ _ => ?_
      obtain rfl := Option.some.inj (ho.symm.trans hp)
      change address o.toStat = ordinary th.name
      rw [← hname]
      simp [address, hactive, State.temp]
  | «at» a =>
    obtain rfl := Option.some.inj hstep
    refine hsilent _ fun p v _ _ hpart hsettled hv hlooks => ?_
    have hshown := shown_settled h.grounded hsettled
    rw [hv, Option.map_some] at hshown
    obtain ⟨e, he, heq⟩ := Option.map_eq_some_iff.mp hshown
    rw [show a = ordinary th.name from hlooks, he, hpart]
    exact ⟨rfl, congrArg (fun x : Bytes × Option Attrs => some x.1) heq⟩
  | seen a found =>
    dsimp only at hstep
    cases hcheck : check part.op w.store a o.toStat found.isSome with
    | error e =>
      rw [hcheck] at hstep
      obtain rfl := Option.some.inj hstep
      refine running_looks [.raised e] h hth hnative (fun _ _ _ _ _ _ _ _ chunk heq => by simp at heq)
        (fun e' he => ?_) fun n e' he => ?_
      · rw [List.mem_singleton.mp he]
        exact check_error hcheck
      · rw [List.mem_singleton.mp he]
        rfl
    | ok _ =>
      rw [hcheck] at hstep
      obtain rfl := Option.some.inj hstep
      refine hsilent _ fun p v _ _ _ _ _ hlooks chunk heq => ?_
      obtain ⟨-, hfound⟩ := hlooks
      rw [← Except.ok.inj heq, hfound]
      rfl
  | got result => contradiction

end Swiftacular.DeviceReads
