import Mathlib.Data.List.Forall2
import Mathlib.Data.List.Infix
import Swiftacular.DurableAnswers

/-!
One life of the process after another. A life sweeps what the one before it
left, serves requests, and ends in a crash, which leaves in each collection
what the first of its transactions made, those of the sweep included. As long
as temporary addresses are apart every sweep gets through; over any number of
lives a name is what the first decisions of each made of it, and what a
request was told in any of them stays so.
-/
namespace Swiftacular.Lifetimes

open Function EntryStore EngineObjects Versions EngineRuns StepRuns LiveObjects HeldEntries
  PreparedLog DeviceRuns DeviceEngine DeviceWorld DeviceSteps DeviceDecisions DeviceInvariant
  DecisionOrder DurableAnswers LogGrowth DeviceJournal MetadataModel Timestamps Sweep CrashSweep

section Definitions

/-- The transaction of a change that the sweep makes; no Object is behind it. -/
def removal (op : Op) : Txn := ⟨(op.addresses.head?.map Address.name).getD "", [op], .remove 0⟩

def sweeping (ops : List Op) : List Txn := ops.map removal

/-- A life of the process: the store it mounted, the last estimate then, what
was asked of it, and where it was when it ended. -/
structure Life where
  store : EngineObjects.Store
  last : UInt64
  actions : List Action
  world : World

variable (conf : Conf) (disk : EngineObjects.Store)

/-- A life over a disk: the sweep of all that is listed there, the requests,
and what a crash leaves, a crash of the sweep itself included. What is durable
survives. -/
inductive Lived : Life → EngineObjects.Store → Prop
  | crashed {listed : Collection → List Address} {ops : List Op} {life : Life}
      (hlisted : Lists conf.collection disk listed)
      (hclean : clean disk ((List.finRange _).map listed) = .ok ops)
      (htaken : applyAll disk ops = some life.store)
      (hrun : (World.start life.store life.last).run conf life.actions = some life.world)
      (crash : Crash conf.collection disk (sweeping ops ++ life.world.core.log))
      (hkept : ∀ c k, k < life.world.durable c → ops.length + k < crash.cut c) :
      Lived life crash.disk

/-- One life after another. -/
inductive Lives : List Life → EngineObjects.Store → Prop
  | nil : Lives [] disk
  | next {lives : List Life} {life : Life} {left left' : EngineObjects.Store} :
      Lives lives left → Lived conf left life left' → Lives (lives ++ [life]) left'

/-- In no step of the life an Object gets a temporary address that another
live Object of its name has. -/
def Uncrowded (life : Life) : Prop :=
  Along (World.step conf) (Spaced conf) (World.start life.store life.last) life.actions

/-- Every entry leads back to its address, and those that hold names have the
attributes of an ACTIVE Object. -/
structure Mountable : Prop where
  restorable : ∀ a, (disk a).isSome → Restorable disk a
  holders : ∀ name e, disk (ordinary name) = some e →
    ∃ ts deleted, e.attrs = some ⟨ts, deleted, false⟩

/-- However the entries are listed, the sweep gets through and removes the
temporary ones. -/
def Sweeps : Prop := ∀ listed, Lists conf.collection disk listed →
  ∃ ops t, clean disk ((List.finRange _).map listed) = .ok ops ∧ applyAll disk ops = some t ∧
    ∀ a, t a = if isTemporary a then none else disk a

/-- The holders of a mountable disk. -/
def recordOf : Record where
  temp := fun _ => none
  held := fun n => (disk (ordinary n)).bind fun e => e.attrs.map fun k =>
    ⟨⟨n, k.ts, k.deleted, .active⟩, e.data, e.header⟩

/-- What is left can be mounted: its sweep gets through. What is left of a name
is what the first decisions of each life made of it, in order; it is never
lost, and its timestamp never goes back. -/
structure Folded (lives : List Life) (left : EngineObjects.Store) : Prop where
  mountable : Mountable left
  sweeps : Sweeps conf left
  folded : ∀ name, ∃ done : List (List Goal),
    List.Forall₂ (fun gs life => gs <+: decisions life.world name) done lives ∧
      seen left name = done.flatten.foldl (decided conf) (seen disk name)
  advances : ∀ name v, seen disk name = some v → ∃ u, seen left name = some u ∧ v.ts ≤ u.ts

/-- What `json.dumps` made of a blob, `json.loads` makes the blob of. -/
def Read (held : Option View) : Prop :=
  ∀ v blob, held = some v → v.header = conf.dumps blob → conf.loads v.header = some blob

/-- What anyone posted, in some life or before them all. -/
def PostedIn (lives : List Life) (m : Section) : Prop :=
  (∃ life ∈ lives, ∃ t, .ask t (.post m) ∈ life.actions) ∨ ∃ name v blob,
    seen disk name = some v ∧ conf.loads v.header = some blob ∧ blob.metaSection = some m

/-- What the callers of every life keep to, what is on the first disk, and that
`json.loads` reads what `json.dumps` made for a decision. -/
structure Trusted (lives : List Life) : Prop where
  asked : ∀ life ∈ lives, ∀ a ∈ life.actions, Admits Positive a ∧ Admits Consistent a
  started : ∀ name v blob, seen disk name = some v → conf.loads v.header = some blob →
    v.ts = blob.dataSection.timestamp.tick
  reads : ∀ life ∈ lives, ∀ name gs, gs <+: decisions life.world name →
    Read conf (gs.foldl (decided conf) (seen life.store name))

end Definitions

variable {conf : Conf} {G : Goal → Prop} {A : Answer → Option View → Prop} {r : Record}
  {disk store left t : EngineObjects.Store} {w : World} {name : Name} {ops : List Op}

/-! The disk a life finds, and the store it mounts. -/

theorem mounted_recordOf (h : Mountable disk) : Mounted (recordOf disk) disk := by
  refine ⟨fun n => ?_, fun _ => rfl, fun n v hv => ?_⟩
  · cases he : disk (ordinary n) with
    | none =>
      have hheld : (recordOf disk).held n = none := by simp only [recordOf, he, Option.bind_none]
      rw [hheld]
      rfl
    | some e =>
      obtain ⟨ts, deleted, hattrs⟩ := h.holders n e he
      have hheld : (recordOf disk).held n =
          some ⟨⟨n, ts, deleted, .active⟩, e.data, e.header⟩ := by
        simp only [recordOf, he, Option.bind_some, hattrs, Option.map_some]
      rw [hheld]
      simp only [Option.map_some, shown, Version.entry, hattrs]
      rfl
  · obtain ⟨e, -, hattrs⟩ := Option.bind_eq_some_iff.mp hv
    obtain ⟨k, -, rfl⟩ := Option.map_eq_some_iff.mp hattrs
    exact ⟨rfl, rfl⟩

/-- The sweep leaves what holds the names. -/
theorem mounted_clean (h : Mounted r disk) {listings : List (List Address)}
    (hclean : clean disk listings = .ok ops) (htaken : applyAll disk ops = some store) :
    Mounted r store := by
  refine ⟨fun n => ?_, h.none, h.held⟩
  rw [clean_keeps hclean htaken rfl]
  exact h.shows n

theorem sweeps_mountable (h : Mountable disk) : Sweeps conf disk :=
  fun _ hlisted => clean_sweeps h.restorable hlisted.listed

/-- A swept disk is a store that nothing else was ever done to. -/
theorem swept_recordOf (h : Mountable disk) {listed : Collection → List Address}
    (hlisted : Lists conf.collection disk listed)
    (hclean : clean disk ((List.finRange _).map listed) = .ok ops)
    (htaken : applyAll disk ops = some store) : Swept (recordOf disk) store := by
  obtain ⟨ops', t, hclean', ht, hstore⟩ := sweeps_mountable h listed hlisted
  obtain rfl := Except.ok.inj (hclean.symm.trans hclean')
  obtain rfl := Option.some.inj (htaken.symm.trans ht)
  refine ⟨⟨fun n => ?_, fun _ _ hv => by contradiction, fun n g hsome => ?_, fun n g hg => ?_⟩,
    fun _ => rfl, (mounted_recordOf h).held⟩
  · rw [hstore, if_neg (by simp [isTemporary, ordinary])]
    cases he : disk (ordinary n) with
    | none =>
      simp only [recordOf, he, Option.bind_none, Option.map_none]
    | some e =>
      obtain ⟨ts, deleted, hattrs⟩ := h.holders n e he
      obtain ⟨data, header, attrs⟩ := e
      obtain rfl : attrs = some ⟨ts, deleted, false⟩ := hattrs
      simp only [recordOf, he, Option.bind_some, Option.map_some]
      rfl
  · rw [hstore, if_pos (by simp [isTemporary, temporary])] at hsome
    contradiction
  · rw [hstore, if_neg (by simp [isTemporary])]
    by_contra hne
    obtain ⟨stat, hload, haddr⟩ := h.restorable _ (Option.isSome_iff_ne_none.mpr hne)
    have hactive : stat.state = .active := (load_state hload).mpr rfl
    rw [address_active hactive] at haddr
    exact hg (congrArg Address.generation haddr).symm

theorem view_seen (h : Mounted r disk) (name : Name) : view r [] name = seen disk name :=
  (seen_shown (h.shows name)).symm

theorem opsOf_sweeping (ops : List Op) : opsOf (sweeping ops) = ops := by
  induction ops with
  | nil => rfl
  | cons op rest ih => exact congrArg (op :: ·) ih

theorem named_sweeping (h : Clears ops) : ∀ t ∈ sweeping ops, Named t := by
  intro t ht
  obtain ⟨op, hop, rfl⟩ := List.mem_map.mp ht
  obtain ⟨a, -, rfl⟩ := h op hop
  refine ⟨fun op' hop' b hb => ?_, trivial⟩
  obtain rfl := List.mem_singleton.mp hop'
  rw [List.mem_singleton.mp hb]
  rfl

/-- What a crash leaves of a collection: the disk with some of the temporary
entries gone, or the swept store and what was prepared first. -/
theorem left_prefix {listings : List (List Address)} (hclean : clean disk listings = .ok ops)
    (htaken : applyAll disk ops = some store) (hnamed : ∀ t ∈ w.core.log, Named t)
    (crash : Crash conf.collection disk (sweeping ops ++ w.core.log)) (c : Collection) :
    ∃ u, (∀ a, conf.collection a.name = c → crash.disk a = u a) ∧
      (crash.cut c ≤ ops.length ∧ (∀ a, u a = disk a ∨ isTemporary a = true ∧ u a = none) ∨
        applyAll store (opsOf (w.core.log.take (crash.cut c - ops.length))) = some u) := by
  have hclears := clean_clears hclean
  have hall : ∀ t ∈ sweeping ops ++ w.core.log, Named t := by
    intro t ht
    rcases List.mem_append.mp ht with ht | ht
    · exact named_sweeping hclears t ht
    · exact hnamed t ht
  obtain ⟨u, hu, hdisk⟩ := disk_prefix hall crash c
  refine ⟨u, hdisk, ?_⟩
  have hlen : (sweeping ops).length = ops.length := List.length_map ..
  rw [List.take_append, opsOf_append, hlen] at hu
  by_cases hcut : crash.cut c ≤ ops.length
  · -- part of the sweep at most
    left
    rw [Nat.sub_eq_zero_of_le hcut, List.take_zero, opsOf, opsOf, List.flatMap_nil,
      List.append_nil] at hu
    have htake : (sweeping ops).take (crash.cut c) = sweeping (ops.take (crash.cut c)) :=
      (List.map_take ..).symm
    have hpart := opsOf_sweeping (ops.take (crash.cut c))
    unfold opsOf at hpart
    rw [htake, hpart] at hu
    obtain ⟨v, hv, hstore⟩ := applyAll_removals disk (ops.take (crash.cut c)) fun op hop => by
      obtain ⟨a, -, rfl⟩ := hclears op (List.mem_of_mem_take hop)
      exact ⟨a, rfl⟩
    obtain rfl := Option.some.inj (hu.symm.trans hv)
    refine ⟨hcut, fun a => ?_⟩
    rw [hstore a]
    split
    · rename_i hop
      obtain ⟨b, hb, heq⟩ := hclears _ (List.mem_of_mem_take hop)
      obtain rfl := Op.remove.inj heq
      exact Or.inr ⟨decide_eq_true hb, rfl⟩
    · exact Or.inl rfl
  · right
    rw [List.take_of_length_le (by omega), opsOf_sweeping] at hu
    obtain ⟨v, hv, hrest⟩ := applyAll_append_some hu
    obtain rfl := Option.some.inj (htaken.symm.trans hv)
    exact hrest

/-- What a crash leaves of a name is what was prepared for it first, once
the sweep is through. -/
theorem left_shown (hm : Mounted r disk) {listings : List (List Address)}
    (hclean : clean disk listings = .ok ops) (htaken : applyAll disk ops = some store)
    (h : Engaged conf G r store w.core)
    (crash : Crash conf.collection disk (sweeping ops ++ w.core.log)) (name : Name) :
    (crash.disk (ordinary name)).map shown =
      ((r.after (w.core.log.take (crash.cut (conf.collection name) - ops.length))).held name).map
        fun v => shown v.entry := by
  obtain ⟨u, hdisk, ⟨hcut, hpart⟩ | hu⟩ :=
    left_prefix hclean htaken h.named crash (conf.collection name)
  · have hsame : u (ordinary name) = disk (ordinary name) :=
      (hpart _).resolve_right fun htemp => absurd htemp.1 (by simp [isTemporary, ordinary])
    rw [hdisk _ rfl, hsame, Nat.sub_eq_zero_of_le hcut, List.take_zero]
    exact hm.shows name
  · rw [hdisk _ rfl]
    exact h.kept.shows _ u hu name

/-- Every entry that a crash leaves leads back to its address. -/
theorem left_restorable (hm : Mountable disk) {listings : List (List Address)}
    (hclean : clean disk listings = .ok ops) (htaken : applyAll disk ops = some store)
    (h : Sound r store (journal store w.core))
    (crash : Crash conf.collection disk (sweeping ops ++ w.core.log)) {a : Address}
    (ha : (crash.disk a).isSome) : Restorable crash.disk a := by
  obtain ⟨u, hdisk, hu⟩ := left_prefix hclean htaken h.named crash (conf.collection a.name)
  rw [hdisk a rfl] at ha
  have hrestorable : Restorable u a := by
    rcases hu with ⟨-, hpart⟩ | hu
    · rcases hpart a with hsame | ⟨-, hnone⟩
      · rw [hsame] at ha
        obtain ⟨stat, hload, haddr⟩ := hm.restorable a ha
        refine ⟨stat, ?_, haddr⟩
        rwa [load, hsame, ← load]
      · rw [hnone] at ha
        contradiction
    · exact Renders.restorable (h.journal _ u hu) ha
  obtain ⟨stat, hload, haddr⟩ := hrestorable
  refine ⟨stat, ?_, haddr⟩
  rwa [load, hdisk a rfl, ← load]

/-! What a life decides. -/

/-- However much of the log is kept, a name is what a first part of the
decisions on it made. -/
theorem taken_folded (hA : Promises conf G A) (hm : Mounted r store) {last : UInt64}
    {actions : List Action} (hadmits : ∀ a ∈ actions, Admits G a)
    (hrun : (World.start store last).run conf actions = some w) (k : ℕ) :
    (∀ n v, (r.after (w.core.log.take k)).held n = some v →
        v.stat.name = n ∧ v.stat.state = .active) ∧
      ∀ name, ∃ gs, gs <+: decisions w name ∧
        view r (w.core.log.take k) name = gs.foldl (decided conf) (view r [] name) := by
  rw [List.take_eq_take_min]
  obtain ⟨before, after, v, hsplit, hbefore, hafter, more, hmore, hquiet⟩ :=
    run_reaches hrun (Nat.zero_le _) (Nat.min_le_right k _)
  have hv := running_run hA (running_mounted hm last)
    (fun a ha => hadmits a (hsplit ▸ List.mem_append_left after ha)) hbefore
  have hheld : ∀ n, (r.after (w.core.log.take (min k w.core.log.length))).held n =
      (r.after v.core.log).held n := by
    intro n
    rw [hmore, Record.after_append]
    exact held_quiet fun t ht => hquiet t ht n
  refine ⟨fun n u hu => ?_, fun name => ⟨decisions v name, ?_, ?_⟩⟩
  · exact hv.grounded.engaged.stands.held n u (hheld n ▸ hu)
  · obtain ⟨-, es, hes⟩ := run_longer hafter
    unfold decisions
    rw [hes, List.filterMap_append]
    exact List.prefix_append _ _
  · rw [← hv.followed name]
    unfold view
    rw [hheld]

/-- What shows a holder has the attributes of an ACTIVE Object. -/
theorem attrs_shown {e : Entry Attrs} {held : Option Version}
    (h : some (shown e) = held.map fun v => shown v.entry)
    (hholds : ∀ v, held = some v → v.stat.name = name ∧ v.stat.state = .active) :
    ∃ ts deleted, e.attrs = some ⟨ts, deleted, false⟩ := by
  obtain ⟨v, hv, heq⟩ := Option.map_eq_some_iff.mp h.symm
  obtain ⟨-, hattrs⟩ := Prod.mk.inj heq
  refine ⟨v.stat.ts, v.stat.deleted, hattrs.symm.trans ?_⟩
  simp only [Version.entry, (hholds v hv).2, reduceCtorEq, decide_false]

/-- One life, as the names see it. -/
theorem lived_folded {life : Life} (hm : Mountable disk) (h : Lived conf disk life left)
    (hroom : Uncrowded conf life) :
    Mountable left ∧ ∀ name, ∃ gs, gs <+: decisions life.world name ∧
      seen left name = gs.foldl (decided conf) (seen disk name) := by
  obtain ⟨hlisted, hclean, htaken, hrun, crash, -⟩ := h
  have hmounted := mounted_recordOf hm
  have hswept := swept_recordOf hm hlisted hclean htaken
  have hw := running_any hswept _ hrun
  have hshown := left_shown hmounted hclean htaken hw.grounded.engaged crash
  have hfolded := taken_folded (promises_any conf) (mounted_swept hswept) (fun a _ => admits_any a)
    hrun
  refine ⟨⟨fun a ha => left_restorable hm hclean htaken (journal_run hswept _ hroom hrun) crash ha,
    fun name e he => ?_⟩, fun name => ?_⟩
  · have hname := hshown name
    rw [he] at hname
    exact attrs_shown hname ((hfolded _).1 name)
  · obtain ⟨gs, hgs, hview⟩ := (hfolded _).2 name
    exact ⟨gs, hgs, (seen_shown (hshown name)).trans (hview.trans (by rw [view_seen hmounted]))⟩

/-- Decisions never take a name back in time. -/
theorem wrote_folded {ts : ℕ} {held : Option View} (gs : List Goal)
    (h : Upheld conf (.wrote ts) held) :
    Upheld conf (.wrote ts) (gs.foldl (decided conf) held) := by
  induction gs generalizing held with
  | nil => exact h
  | cons goal rest ih => exact ih (wrote_decided h goal)

theorem lives_folded (hm : Mountable disk) {lives : List Life} (h : Lives conf disk lives left)
    (hroom : ∀ life ∈ lives, Uncrowded conf life) : Folded conf disk lives left := by
  induction h with
  | nil =>
    exact ⟨hm, sweeps_mountable hm, fun name => ⟨[], List.Forall₂.nil, rfl⟩,
      fun name v hv => ⟨v, hv, le_refl _⟩⟩
  | @next earlier life _ _ _ hlived ih =>
    have ih := ih fun l hl => hroom l (List.mem_append_left _ hl)
    obtain ⟨hmountable, hseen⟩ := lived_folded ih.mountable hlived
      (hroom life (List.mem_append_right _ (List.mem_singleton_self _)))
    refine ⟨hmountable, sweeps_mountable hmountable, fun name => ?_, fun name v hv => ?_⟩
    · obtain ⟨done, hdone, hfold⟩ := ih.folded name
      obtain ⟨gs, hgs, heq⟩ := hseen name
      refine ⟨done ++ [gs], List.rel_append hdone (List.Forall₂.cons hgs List.Forall₂.nil), ?_⟩
      rw [heq, hfold, List.flatten_append, List.foldl_append, List.flatten_singleton]
    · obtain ⟨u, hu, hle⟩ := ih.advances name v hv
      obtain ⟨gs, -, heq⟩ := hseen name
      rw [heq]
      exact wrote_folded gs ⟨u, hu, hle⟩

/-! What a life tells its requests. -/

theorem asked_admits {posts : Section → Prop} {a : Action}
    (h : Admits Positive a ∧ Admits Consistent a) (hposts : ∀ t m, a = .ask t (.post m) → posts m) :
    Admits (Asked posts) a := by
  obtain ⟨hpositive, hconsistent⟩ := h
  cases a with
  | ask t ask =>
    cases ask with
    | put ts metadata => exact fun own => ⟨hpositive own, hconsistent own, fun p heq => by contradiction⟩
    | delete ts metadata => exact ⟨hpositive, hconsistent, fun p heq => by contradiction⟩
    | post metadata =>
      exact ⟨hpositive, hconsistent, fun p heq => hposts t p (by rw [Goal.post.inj heq])⟩
    | «open» | info | create | write | iterate => trivial
  | request | go | move | resume | commit | kill | reap | release => trivial

/-- An answer stays true along the log, whatever is decided after it. -/
theorem upheld_keeps {posts : Section → Prop} {c : Core} (h : Engaged conf (Asked posts) r store c)
    (hsourced : ∀ k, Sourced conf posts (view r (c.log.take k) name))
    (hreads : ∀ k, Read conf (view r (c.log.take k) name)) {answer : Answer} {i j : ℕ} (hij : i ≤ j)
    (hi : Upheld conf answer (view r (c.log.take i) name)) :
    Upheld conf answer (view r (c.log.take j) name) := by
  refine view_keeps h (fun k goal hgoal hk hdecided => ?_) hij hi
  rw [hdecided]
  cases answer with
  | wrote ts => exact wrote_decided hk goal
  | posted m found =>
    cases found with
    | false => trivial
    | true => exact honours_decided (hsourced k) hgoal.2.1 (hreads k) hk

theorem lived_answered {life : Life} (hm : Mountable disk) (h : Lived conf disk life left)
    {posts : Section → Prop} (hasked : ∀ a ∈ life.actions, Admits (Asked posts) a)
    (hsourced : ∀ name, Sourced conf posts (seen disk name))
    (hreads : ∀ name gs, gs <+: decisions life.world name →
      Read conf (gs.foldl (decided conf) (seen life.store name))) (name : Name) :
    Sourced conf posts (seen left name) ∧ Read conf (seen left name) ∧
      (∀ answer, .answered name answer ∈ life.world.events → Upheld conf answer (seen left name)) ∧
      ∀ answer, Upheld conf answer (seen disk name) → Upheld conf answer (seen left name) := by
  obtain ⟨hlisted, hclean, htaken, hrun, crash, hkept⟩ := h
  rename_i listed ops
  have hmounted := mounted_recordOf hm
  have hswept := mounted_clean hmounted hclean htaken
  have hA : Promises conf (Asked posts) (Upheld conf) := promises_upheld fun goal hgoal => hgoal.1
  have hw := running_run hA (running_mounted hswept _) hasked hrun
  have hengaged := hw.grounded.engaged
  have hread : ∀ k, Read conf (view (recordOf disk) (life.world.core.log.take k) name) := by
    intro k v blob hv
    obtain ⟨gs, hgs, hview⟩ := (taken_folded hA hswept hasked hrun k).2 name
    rw [hview, view_seen hswept] at hv
    exact hreads name gs hgs v blob hv
  have hsource : ∀ k, Sourced conf posts (view (recordOf disk) (life.world.core.log.take k) name) := by
    intro k
    refine view_keeps hengaged (fun i goal hgoal hs hdecided => ?_) (Nat.zero_le k) ?_
    · rw [hdecided]
      refine sourced_decided hs hgoal.2.1 hgoal.2.2 fun v b hv hheader => ?_
      exact hread (i + 1) v b (hdecided.trans hv) hheader
    · rw [List.take_zero, view_seen hmounted]
      exact hsourced name
  have hseen : seen crash.disk name = view (recordOf disk)
      (life.world.core.log.take (crash.cut (conf.collection name) - ops.length)) name :=
    seen_shown (left_shown hmounted hclean htaken hengaged crash name)
  rw [hseen]
  refine ⟨hsource _, hread _, fun answer he => ?_, fun answer hupheld => ?_⟩
  · obtain ⟨k, hk, -, hupheld⟩ := hw.told _ he
    refine upheld_keeps hengaged hsource hread (hk.trans ?_) hupheld
    by_contra hlt
    have hlast := hkept (conf.collection name) (life.world.durable (conf.collection name) - 1) (by omega)
    omega
  · refine upheld_keeps hengaged hsource hread (Nat.zero_le _) ?_
    rw [List.take_zero, view_seen hmounted]
    exact hupheld

theorem lives_upheld (hm : Mountable disk) {lives : List Life} (h : Lives conf disk lives left)
    (hroom : ∀ life ∈ lives, Uncrowded conf life) {posts : Section → Prop} (hasked : ∀ life ∈ lives, ∀ a ∈ life.actions, Admits (Asked posts) a)
    (hsourced : ∀ name, Sourced conf posts (seen disk name))
    (hreads : ∀ life ∈ lives, ∀ name gs, gs <+: decisions life.world name →
      Read conf (gs.foldl (decided conf) (seen life.store name))) (name : Name) :
    Sourced conf posts (seen left name) ∧ (lives ≠ [] → Read conf (seen left name)) ∧
      ∀ life ∈ lives, ∀ answer, .answered name answer ∈ life.world.events →
        Upheld conf answer (seen left name) := by
  induction h generalizing name with
  | nil => exact ⟨hsourced name, fun hnil => absurd rfl hnil, fun life hl => absurd hl List.not_mem_nil⟩
  | @next earlier life _ _ hlives hlived ih =>
    have hearlier : ∀ life ∈ earlier, Uncrowded conf life :=
      fun life hl => hroom life (List.mem_append_left _ hl)
    have hbefore := ih hearlier (fun life hl => hasked life (List.mem_append_left _ hl))
      fun life hl => hreads life (List.mem_append_left _ hl)
    have hlast : life ∈ earlier ++ [life] := List.mem_append_right _ (List.mem_singleton_self _)
    obtain ⟨hsource, hread, htold, hkeeps⟩ := lived_answered (lives_folded hm hlives hearlier).mountable
      hlived (hasked life hlast) (fun n => (hbefore n).1) (hreads life hlast) name
    refine ⟨hsource, fun _ => hread, fun l hl answer he => ?_⟩
    rcases List.mem_append.mp hl with hl | hl
    · exact hkeeps answer ((hbefore name).2.2 l hl answer he)
    · obtain rfl := List.mem_singleton.mp hl
      exact htold answer he

theorem lives_answered (hm : Mountable disk) {lives : List Life} (h : Lives conf disk lives left)
    (hroom : ∀ life ∈ lives, Uncrowded conf life) (ht : Trusted conf disk lives)
    {listed : Collection → List Address} (hlisted : Lists conf.collection left listed) :
    ∃ ops t, clean left ((List.finRange _).map listed) = .ok ops ∧ applyAll left ops = some t ∧
      ∀ life ∈ lives, Lasting conf (PostedIn conf disk lives) life.world t := by
  obtain ⟨ops, t, hclean, hswept, -⟩ := (lives_folded hm h hroom).sweeps listed hlisted
  refine ⟨ops, t, hclean, hswept, fun life hlife => ?_⟩
  have hasked : ∀ l ∈ lives, ∀ a ∈ l.actions, Admits (Asked (PostedIn conf disk lives)) a :=
    fun l hl a ha => asked_admits (ht.asked l hl a ha) fun u m heq => Or.inl ⟨l, hl, u, heq ▸ ha⟩
  have hupheld := lives_upheld hm h hroom hasked
    (fun name v blob hv hloads => ⟨ht.started name v blob hv hloads, fun m hm =>
      ⟨m, m, Or.inr ⟨name, v, blob, hv, hloads, hm⟩, Or.inr ⟨name, v, blob, hv, hloads, hm⟩, rfl⟩⟩)
    ht.reads
  have hseen : ∀ name, seen t name = seen left name := by
    intro name
    unfold seen
    rw [clean_keeps hclean hswept rfl]
  refine ⟨fun name ts he => ?_, fun name m he => ?_⟩
  · obtain ⟨v, hv, hts⟩ := (hupheld name).2.2 life hlife _ he
    exact ⟨v, recovered_seen ((hseen name).trans hv), hts⟩
  · obtain ⟨hsource, hread, htold⟩ := hupheld name
    obtain ⟨v, blob, hv, hblob, hhonours⟩ := htold life hlife _ he
    have hloads : conf.loads v.header = some blob :=
      hblob.elim (fun hl => hl) (hread (List.ne_nil_of_mem hlife) v blob hv)
    obtain ⟨hts, hmeta⟩ := hsource v blob hv hloads
    exact ⟨v, blob, recovered_seen ((hseen name).trans hv), hloads, hts, hhonours, hmeta⟩

/-! A writer that is not done and a POST that was decided when the process ends;
the POST comes again in the next life, after a sweep of what the writer left. -/

def interrupting : List Action :=
  putting ++ posting.take 24 ++
    [.request "a/c/o", .ask 3 .open, .go 3 0, .ask 3 (.create 2500), .ask 3 (.write [1])] ++
    List.replicate 7 (.move 3) ++ (posting.take 26).drop 24

def interrupted : World :=
  ((World.start (fun _ => none) 0).run sample interrupting).get (by decide +kernel)

theorem interrupted_run :
    (World.start (fun _ => none) 0).run sample interrupting = some interrupted :=
  (Option.some_get _).symm

/-- All but the POST. -/
def kept : EngineObjects.Store :=
  (applyAll (fun _ => none) (opsOf (interrupted.core.log.take 3))).get (by decide +kernel)

theorem kept_taken : applyAll (fun _ => none) (opsOf (interrupted.core.log.take 3)) = some kept :=
  (Option.some_get _).symm

def remains : List Address :=
  [temporary "a/c/o" 1, temporary "a/c/o" 250, ordinary "a/c/o"]

def sweep : List Op := [.remove (temporary "a/c/o" 250)]

def mounted : EngineObjects.Store := (applyAll kept sweep).get (by decide +kernel)

theorem mounted_taken : applyAll kept sweep = some mounted := (Option.some_get _).symm

def reposting : List Action :=
  [.request "a/c/o", .ask 0 .open, .go 0 0, .go 1 0, .move 1, .resume 1 0, .go 0 0, .go 0 0,
    .ask 0 (.post posted), .go 0 0, .go 0 0] ++ List.replicate 3 (.move 0) ++ [.resume 0 0] ++
    List.replicate 3 (.move 0) ++ [.resume 0 0] ++ List.replicate 7 (.move 0) ++
    [.commit home 1, .resume 0 0]

def reposted : World := ((World.start mounted 0).run sample reposting).get (by decide +kernel)

theorem reposted_run : (World.start mounted 0).run sample reposting = some reposted :=
  (Option.some_get _).symm

def outlived : EngineObjects.Store :=
  (applyAll kept (opsOf ((sweeping sweep ++ reposted.core.log).take 2))).get (by decide +kernel)

theorem outlived_taken :
    applyAll kept (opsOf ((sweeping sweep ++ reposted.core.log).take 2)) = some outlived :=
  (Option.some_get _).symm

def firstLife : Life := ⟨fun _ => none, 0, interrupting, interrupted⟩

def secondLife : Life := ⟨mounted, 0, reposting, reposted⟩

theorem mountable_empty : Mountable fun _ => none :=
  ⟨fun _ ha => by contradiction, fun _ _ he => by contradiction⟩

theorem within_empty {a : Address} (h : ((fun _ => none : EngineObjects.Store) a).isSome) :
    a ∈ remains := by contradiction

theorem kept_within {a : Address} (h : (kept a).isSome) : a ∈ remains :=
  made_within (fun _ => within_empty) kept_taken (by decide +kernel) h

theorem outlived_within {a : Address} (h : (outlived a).isSome) : a ∈ remains :=
  made_within (fun _ => kept_within) outlived_taken (by decide +kernel) h

theorem remains_first :
    remains.Pairwise fun a b => isTemporary b = true → isTemporary a = true := by decide

/-- What is durable at the end of a run survives where all that was handed over does. -/
theorem durable_handed {actions : List Action} {last : UInt64} (hm : Mounted r store)
    (hrun : (World.start store last).run conf actions = some w) {n : ℕ} (hn : w.handed ≤ n)
    (c : Collection) (k : ℕ) (hk : k < w.durable c) : k < n := by
  have hw := running_run (promises_any conf) (running_mounted hm last) (fun a _ => admits_any a) hrun
  exact (hk.trans_le (hw.grounded.durable c)).trans_le hn

/-- The first life sweeps nothing. -/
def firstCrash : Crash sample.collection (fun _ => none) (sweeping [] ++ interrupted.core.log) :=
  crashAt home (le_refl 3) (show (applyAll (fun _ => none)
    (opsOf (interrupted.core.log.take 3))).isSome by rw [kept_taken]; rfl) kept_taken

def secondCrash : Crash sample.collection kept (sweeping sweep ++ reposted.core.log) :=
  crashAt home (le_refl 2) (by rw [outlived_taken]; rfl) outlived_taken

theorem first_lived : Lived sample (fun _ => none) firstLife kept := by
  have hlisted : Lists sample.collection (fun _ => none)
      (listing (fun _ => none) home remains) := lists_listing (fun _ => within_empty) remains_first
  have hclean : clean (fun _ => none)
      ((List.finRange _).map (listing (fun _ => none) home remains)) = .ok [] := by decide +kernel
  have hhanded : interrupted.handed ≤ 3 := by decide +kernel
  refine @Lived.crashed sample (fun _ => none) _ [] firstLife hlisted hclean rfl interrupted_run
    firstCrash fun c k hk => ?_
  rw [List.length_nil, Nat.zero_add]
  exact durable_handed (mounted_recordOf mountable_empty) interrupted_run hhanded c k hk

theorem first_uncrowded : Uncrowded sample firstLife :=
  spaced_of_checked swept_empty 0 (by decide +kernel)

theorem kept_mountable : Mountable kept :=
  (lived_folded mountable_empty first_lived first_uncrowded).1

theorem kept_listed : Lists sample.collection kept (listing kept home remains) :=
  lists_listing (fun _ => kept_within) remains_first

theorem kept_clean : clean kept ((List.finRange _).map (listing kept home remains)) = .ok sweep := by
  decide +kernel

theorem mounted_swept_kept : Swept (recordOf kept) mounted :=
  swept_recordOf kept_mountable kept_listed kept_clean mounted_taken

theorem second_lived : Lived sample kept secondLife outlived := by
  have hhanded : reposted.handed ≤ 1 := by decide +kernel
  refine @Lived.crashed sample kept _ sweep secondLife kept_listed kept_clean mounted_taken
    reposted_run secondCrash fun c k hk => ?_
  have hlt := durable_handed (mounted_swept mounted_swept_kept) reposted_run hhanded c k hk
  exact Nat.add_lt_add_left hlt 1

theorem second_uncrowded : Uncrowded sample secondLife :=
  spaced_of_checked mounted_swept_kept 0 (by decide +kernel)

theorem both_lives : Lives sample (fun _ => none) [firstLife, secondLife] outlived :=
  .next (.next .nil first_lived) second_lived

theorem both_uncrowded : ∀ life ∈ [firstLife, secondLife], Uncrowded sample life := by
  intro life hlife
  rcases List.mem_cons.mp hlife with rfl | hlife
  · exact first_uncrowded
  · obtain rfl := List.mem_singleton.mp hlife
    exact second_uncrowded

example : decisions interrupted "a/c/o" = [.put 1 100 written, .post posted] ∧
    (seen kept "a/c/o").map View.header = some (sample.dumps ⟨written, none⟩) := by decide +kernel

theorem lives_folded_both : Folded sample (fun _ => none) [firstLife, secondLife] outlived :=
  lives_folded mountable_empty both_lives both_uncrowded

/-- A life on one name alone, whose every blob has bytes, reads what it wrote. -/
theorem reads_one {life : Life} (hnone : ∀ name, name ≠ "a/c/o" → seen life.store name = none)
    (honly : ∀ name, name ≠ "a/c/o" → decisions life.world name = [])
    (hbytes : ∀ gs ∈ (decisions life.world "a/c/o").inits,
      (gs.foldl (decided sample) (seen life.store "a/c/o")).all fun v => v.header ≠ [])
    (name : Name) (gs : List Goal) (hgs : gs <+: decisions life.world name) :
    Read sample (gs.foldl (decided sample) (seen life.store name)) := by
  intro v blob hv hheader
  by_cases hname : name = "a/c/o"
  · subst hname
    have hall := hbytes gs ((List.mem_inits ..).mpr hgs)
    rw [hv] at hall
    have hsome : v.header ≠ [] := of_decide_eq_true hall
    rw [hheader] at hsome ⊢
    exact tabled_reads (by decide +kernel) hsome
  · rw [honly name hname, List.prefix_nil] at hgs
    rw [hgs, List.foldl_nil, hnone name hname] at hv
    contradiction

/-- The name a decision is on. -/
def nameOf : Event → Option Name
  | .decided d => some d.name
  | _ => none

theorem decisions_only (h : w.events.all fun e => (nameOf e).all (· = "a/c/o"))
    (hname : name ≠ "a/c/o") : decisions w name = [] := by
  refine List.filterMap_eq_nil_iff.mpr fun e he => ?_
  have hone := List.all_eq_true.mp h e he
  cases e with
  | decided d =>
    have hd : d.name = "a/c/o" := of_decide_eq_true hone
    simp only [goalOn, hd, if_neg (Ne.symm hname)]
  | searched | raised | broken | answered | yielded => rfl

theorem mounted_only (hname : name ≠ "a/c/o") : seen mounted name = none := by
  have hnot : ¬ (mounted (ordinary name)).isSome := by
    intro hsome
    have hmem : ordinary name ∈ remains :=
      made_within (fun _ => kept_within) mounted_taken (by decide +kernel) hsome
    simp [remains, ordinary, temporary, hname] at hmem
  unfold seen
  rw [Option.not_isSome_iff_eq_none.mp hnot]
  rfl

theorem both_trusted : Trusted sample (fun _ => none) [firstLife, secondLife] := by
  have hfirst : ∀ a ∈ interrupting, stamped a = true := by decide +kernel
  have hsecond : ∀ a ∈ reposting, stamped a = true := by decide +kernel
  have hlives : ∀ {P : Life → Prop}, P firstLife → P secondLife →
      ∀ life ∈ [firstLife, secondLife], P life := by
    intro P hone htwo life hlife
    rcases List.mem_cons.mp hlife with rfl | hlife
    · exact hone
    · obtain rfl := List.mem_singleton.mp hlife
      exact htwo
  refine ⟨hlives (fun a ha => admits_stamped (hfirst a ha))
      (fun a ha => admits_stamped (hsecond a ha)), fun name v blob hv => by contradiction,
    hlives (reads_one (fun name _ => rfl) (fun name hname => ?_) ?_)
      (reads_one (fun name hname => mounted_only hname) (fun name hname => ?_) ?_)⟩
  · exact decisions_only (by decide +kernel) hname
  · decide +kernel
  · exact decisions_only (by decide +kernel) hname
  · decide +kernel

theorem lives_answered_both : ∃ t,
    clean outlived ((List.finRange _).map (listing outlived home remains)) = .ok [] ∧
    applyAll outlived [] = some t ∧
      Lasting sample (PostedIn sample (fun _ => none) [firstLife, secondLife]) interrupted t ∧
      Lasting sample (PostedIn sample (fun _ => none) [firstLife, secondLife]) reposted t := by
  have hlisted : Lists sample.collection outlived (listing outlived home remains) :=
    lists_listing (fun _ => outlived_within) remains_first
  have hclean : clean outlived ((List.finRange _).map (listing outlived home remains)) =
      .ok [] := by decide +kernel
  obtain ⟨ops, t, hops, hswept, hlasting⟩ :=
    lives_answered mountable_empty both_lives both_uncrowded both_trusted hlisted
  obtain rfl := Except.ok.inj (hclean.symm.trans hops)
  exact ⟨t, hclean, hswept, hlasting _ List.mem_cons_self,
    hlasting _ (List.mem_cons_of_mem _ List.mem_cons_self)⟩

end Swiftacular.Lifetimes
