import Swiftacular.DeviceEngine

/-!
What holds of a Device between any two of its steps. The engine and the map
say who holds each name; each greenthread's native calls keep their Objects,
and whatever touches a name and is not durable yet has a sync waiting for it.
The lemmas say what a change of one thread, or of Objects a thread does not
keep, leaves alone.
-/
namespace Swiftacular.DeviceWorld

open Function EntryStore EngineObjects Versions EngineRuns LiveObjects HeldEntries PreparedLog
  DeviceRuns DeviceEngine

/-- Where a log touches a name. -/
def TouchedAt (log : List Txn) (name : Name) (k : ℕ) : Prop :=
  ∃ t, log[k]? = some t ∧ Touches name t

section Definitions

variable (conf : Conf) (G : Goal → Prop) (A : Answer → Option View → Prop)

/-- Everything that touched the name is durable. -/
def Settled (w : World) (name : Name) : Prop :=
  ∀ k, TouchedAt w.core.log name k → k < w.durable (conf.collection name)

/-- How much of the log the store shows, the last of it perhaps in part. -/
structure Shown (s : Store) (w : World) : Prop where
  handed : w.handed ≤ w.batch ∧ w.batch ≤ w.core.log.length
  part : w.handed = w.core.log.length → w.part = 0
  store : ∃ u, applyAll s (opsOf (w.core.log.take w.handed)) = some u ∧
    applyAll u (((w.core.log[w.handed]?.map Txn.ops).getD []).take w.part) = some w.store

/-- The engine, the map of Objects and the store. -/
structure Grounded (r : Record) (s : Store) (w : World) : Prop where
  engaged : Engaged conf G r s w.core
  shown : Shown s w
  durable : ∀ c, w.durable c ≤ w.handed
  known : ∀ n id, w.objects n = some (.object id) → id < w.core.fresh
  mapped : ∀ n id o, w.objects n = some (.object id) → w.core.heap id = some o → o.name = n ∧
    (o.state = .active ∨ o.state = .missing ∧ (r.after w.core.log).held n = none)
  superseded : ∀ id o, w.core.heap id = some o → o.state = .old →
    ∃ k, TouchedAt w.core.log o.name k ∧ ∀ d, o.done = some d → d < k
  covered : ∀ id o, w.core.heap id = some o → o.state = .active → ∀ k,
    TouchedAt w.core.log o.name k →
      k < w.durable (conf.collection o.name) ∨ ∃ d, o.done = some d ∧ k ≤ d

/-- A search of the map, as long as it is under way. -/
def Searches (th : Thread) : Prop :=
  th.frame = some .search ∨ ∃ id, th.frame = some (.searching id)

/-- A search that has found its Object, and is to put it in the map. -/
def FoundBy (w : World) (name : Name) (id : ℕ) : Prop :=
  ∃ t th, w.threads t = some th ∧ th.name = name ∧ th.frame = some (.searching id) ∧
    th.native = none

/-- A future that is done no earlier than this transaction. -/
def Covers (k : ℕ) (done : Option ℕ) : Prop := ∃ d, done = some d ∧ k ≤ d

/-- A sync that waits for this transaction. -/
def Syncs (w : World) (th : Thread) (k : ℕ) : Prop :=
  ∃ id stage o, th.native = some (.sync id stage) ∧ w.core.heap id = some o ∧ Readable o ∧
    Covers k o.done ∧ ∀ done, stage = .captured done → Covers k done

/-- What a look of the metadata read has come to, for what holds the name. -/
def Looks (name : Name) (header : Bytes) (offset size : ℕ) : Look → Prop
  | .start => True
  | .at a => a = ordinary name
  | .seen a found => a = ordinary name ∧ found = some header
  | .got result => ∀ chunk, result = .ok chunk → chunk = extent header offset size

/-- A metadata read whose Object still holds the name, at the version it has. -/
structure Reading (r : Record) (w : World) (name : Name) (o : Object) (data : Bytes)
    (native : Option Native) : Prop where
  synced : ∀ id done, native = some (.sync id (.captured done)) → done = o.done
  looked : ∀ part id offset size look, native = some (.read part id offset size look) →
    Settled conf w name ∧ ∃ v, (r.after w.core.log).held name = some v ∧ data <+: v.header ∧
      Looks name v.header offset size look

/-- What each place in the Device's code comes with. -/
def Placed (r : Record) (w : World) (th : Thread) : Prop :=
  match th.frame with
  | none => ∀ id, th.native ≠ some (.open id)
  | some .search => th.native = none ∧ th.held = none ∧ th.own = none
  | some (.searching id) => th.held = none ∧ th.own = none ∧ ∃ o, w.core.heap id = some o ∧
      o.done = none ∧ (th.native = some (.open id) ∧ o.state = .preSearch ∨
        th.native = none ∧ (o.state = .active ∨
          o.state = .missing ∧ (r.after w.core.log).held th.name = none))
  | some (.starting id _ goal) => th.native = none ∧ (goal = none → th.held = some id)
  | some (.reading id version data _ goal) => (goal = none → th.held = some id) ∧
      version ≤ w.versions id ∧ (data = [] ∧ (∃ stage, th.native = some (.sync id stage)) ∨
        ∃ look, th.native = some (.read .header id data.length conf.chunkSize look)) ∧
      ∀ o, w.core.heap id = some o → o.state = .active → w.versions id = version →
        Reading conf r w th.name o data th.native
  | some .writing => ∃ stage, th.native = some (.submit stage)
  | some (.syncing id answer) => ∃ stage k, th.native = some (.sync id stage) ∧
      k < w.core.log.length ∧ Syncs w th k ∧
      A answer (((r.after (w.core.log.take (k + 1))).held th.name).map View.of)
  | some (.fetching id offset _ _) =>
      ∃ size look, th.native = some (.read .data id offset size look)
  | some _ => th.native = none

/-- The Objects a thread reads, syncs, or is about to. -/
def Uses (th : Thread) (id : ℕ) : Prop :=
  ¬ Searches th ∧ (th.frame.bind Frame.object = some id ∨ th.native.bind Native.object = some id)

structure Crewed (r : Record) (w : World) (th : Thread) : Prop where
  alive : ∀ id, th.keeps id → ∃ o, w.core.heap id = some o ∧ o.name = th.name
  owned : ∀ id o, th.owns id → w.core.heap id = some o → Writing o
  holds : ∀ id o, th.held = some id → w.core.heap id = some o → Found o
  uses : ∀ id o, Uses th id → w.core.heap id = some o → Readable o
  goals : ∀ goal, th.frame.bind Frame.goal = some goal → G goal
  spent : ∀ id, (th.frame.bind Frame.goal).bind Goal.own = some id → th.own = none
  loads : th.loaded = true → ∀ id o, th.held = some id → w.core.heap id = some o → Readable o
  undeleted : ∀ id o, th.owns id → w.core.heap id = some o → o.deleted = false
  placed : Placed conf A r w th

/-- The greenthreads, and what the map and the engine know of them. -/
structure Manned (r : Record) (w : World) : Prop where
  crewed : ∀ t th, w.threads t = some th → t < w.next ∧ Crewed conf G A r w th
  apart : ∀ t t' th th' id, w.threads t = some th → w.threads t' = some th' → th.owns id →
    th'.keeps id → t = t'
  sought : ∀ n t, w.objects n = some (.search t) → ∃ th, w.threads t = some th ∧ th.name = n ∧
    Searches th
  searches : ∀ t th, w.threads t = some th → Searches th → w.objects th.name = some (.search t)
  located : ∀ id o, w.core.heap id = some o → o.state = .active →
    w.objects o.name = some (.object id) ∨ FoundBy w o.name id
  guarded : ∀ n k, TouchedAt w.core.log n k → w.durable (conf.collection n) ≤ k →
    ∃ t th, w.threads t = some th ∧ th.name = n ∧ Syncs w th k

end Definitions

variable {conf : Conf} {G : Goal → Prop} {A : Answer → Option View → Prop} {r : Record} {s : Store}
  {w w' : World} {t : ℕ} {th : Thread} {name : Name}

/-! The log and the names it touches. -/

theorem TouchedAt.lt {log : List Txn} {k : ℕ} (h : TouchedAt log name k) : k < log.length := by
  obtain ⟨u, hu, -⟩ := h
  exact (List.getElem?_eq_some_iff.mp hu).1

theorem TouchedAt.append {log : List Txn} {k : ℕ} (h : TouchedAt log name k) (more : List Txn) :
    TouchedAt (log ++ more) name k := by
  have hlt := h.lt
  obtain ⟨u, hu, htouch⟩ := h
  exact ⟨u, by rw [List.getElem?_append_left hlt, hu], htouch⟩

theorem touched_concat {log : List Txn} {u : Txn} {k : ℕ} (h : TouchedAt (log ++ [u]) name k) :
    TouchedAt log name k ∨ k = log.length ∧ Touches name u := by
  obtain ⟨v, hv, htouch⟩ := h
  have hlen := (List.getElem?_eq_some_iff.mp hv).1
  rw [List.length_append, List.length_singleton] at hlen
  by_cases hk : k < log.length
  · rw [List.getElem?_append_left hk] at hv
    exact Or.inl ⟨v, hv, htouch⟩
  · obtain rfl : k = log.length := by omega
    rw [List.getElem?_concat_length] at hv
    exact Or.inr ⟨rfl, Option.some.inj hv ▸ htouch⟩

/-- A name that no live Object holds is settled: what touched it last either
waits for a sync, whose Object then holds the name or was replaced later, or is
durable. -/
theorem settled_unheld (hg : Grounded conf G r s w) (hm : Manned conf G A r w)
    (hnone : ∀ id o, w.core.heap id = some o → o.name = name → o.state ≠ .active) :
    Settled conf w name := by
  intro k hk
  by_contra hge
  have hlt := hk.lt
  induction hn : w.core.log.length - k using Nat.strongRecOn generalizing k with
  | ind n ih =>
    obtain ⟨t, th, hth, hname, id, stage, o, hnative, ho, hread, ⟨d, hd, hkd⟩, -⟩ :=
      hm.guarded name k hk (by omega)
    have hkeeps : th.keeps id := Or.inr (Or.inr (Or.inr (by rw [hnative]; rfl)))
    obtain ⟨o', ho', hsame⟩ := (hm.crewed t th hth).2.alive id hkeeps
    obtain rfl := Option.some.inj (ho.symm.trans ho')
    have hold : o.state = .old := hread.resolve_left (hnone id o ho (hsame.trans hname))
    obtain ⟨k', hk', hlater⟩ := hg.superseded id o ho hold
    have hdk := hlater d hd
    rw [hsame, hname] at hk'
    exact ih (w.core.log.length - k') (by have := hk'.lt; omega) k' hk' (by omega) hk'.lt rfl

/-- The store shows what holds a name, once all that touched it is handed over. -/
theorem shown_handed (hg : Grounded conf G r s w)
    (hs : ∀ k, TouchedAt w.core.log name k → k < w.handed) :
    (w.store (ordinary name)).map shown =
      ((r.after w.core.log).held name).map fun v => shown v.entry := by
  obtain ⟨u, hu, hpart⟩ := hg.shown.store
  have hsame : w.store (ordinary name) = u (ordinary name) := by
    cases htxn : w.core.log[w.handed]? with
    | none =>
      rw [htxn, Option.map_none, Option.getD_none, List.take_nil] at hpart
      rw [Option.some.inj hpart]
    | some txn =>
      rw [htxn, Option.map_some, Option.getD_some] at hpart
      refine applyAll_untouched (hg.engaged.kept.confined txn (List.mem_of_getElem? htxn))
        (fun htouch => ?_) (fun op hop => List.mem_of_mem_take hop) hpart
      have hlt := hs w.handed ⟨txn, htxn, htouch⟩
      omega
  have hheld : (r.after w.core.log).held name = (r.after (w.core.log.take w.handed)).held name := by
    have hsplit := Record.after_append r (w.core.log.take w.handed) (w.core.log.drop w.handed)
    rw [List.take_append_drop] at hsplit
    rw [hsplit]
    refine held_quiet fun x hx htouch => ?_
    obtain ⟨m, hm⟩ := List.getElem?_of_mem hx
    rw [List.getElem?_drop] at hm
    have hlt := hs (w.handed + m) ⟨x, hm, htouch⟩
    omega
  rw [hsame, hheld]
  exact hg.engaged.kept.shows w.handed u hu name

/-- The store shows what holds a settled name. -/
theorem shown_settled (hg : Grounded conf G r s w) (hs : Settled conf w name) :
    (w.store (ordinary name)).map shown =
      ((r.after w.core.log).held name).map fun v => shown v.entry :=
  shown_handed hg fun k hk => (hs k hk).trans_le (hg.durable _)

/-! What a thread knows, while other Objects than its own change. -/

/-- What becomes of an Object a thread keeps, but does not change itself. -/
structure Becomes (o o' : Object) : Prop where
  name : o'.name = o.name
  found : Found o → Found o'
  readable : Readable o → Readable o'
  covers : ∀ k, Covers k o.done → Covers k o'.done

theorem Becomes.refl (o : Object) : Becomes o o := ⟨rfl, fun h => h, fun h => h, fun _ h => h⟩

theorem Becomes.trans {o o' o'' : Object} (h : Becomes o o') (h' : Becomes o' o'') : Becomes o o'' :=
  ⟨h'.name.trans h.name, fun hf => h'.found (h.found hf), fun hr => h'.readable (h.readable hr),
    fun k hk => h'.covers k (h.covers k hk)⟩

/-- Nothing changes that a thread has to do with. -/
structure Calm (conf : Conf) (r : Record) (w w' : World) (th : Thread) : Prop where
  heap : ∀ id, th.keeps id → w'.core.heap id = w.core.heap id
  versions : ∀ id, th.keeps id → w'.versions id = w.versions id
  held : (r.after w'.core.log).held th.name = (r.after w.core.log).held th.name
  touched : ∀ k, TouchedAt w'.core.log th.name k → TouchedAt w.core.log th.name k
  durable : ∀ c, w.durable c ≤ w'.durable c
  log : ∃ more, w'.core.log = w.core.log ++ more

/-- The name passes on, or its metadata does. -/
structure Stale (w w' : World) (th : Thread) : Prop where
  heap : ∀ id o, th.keeps id → w.core.heap id = some o →
    ∃ o', w'.core.heap id = some o' ∧ Becomes o o' ∧ (th.owns id → o' = o) ∧
      (o'.state = .active → w.versions id < w'.versions id)
  versions : ∀ id, w.versions id ≤ w'.versions id
  search : ¬ Searches th
  log : ∃ more, w'.core.log = w.core.log ++ more

theorem Calm.settled (h : Calm conf r w w' th) (hs : Settled conf w th.name) :
    Settled conf w' th.name :=
  fun k hk => (hs k (h.touched k hk)).trans_le (h.durable _)

theorem Syncs.later {k : ℕ} (h : Syncs w th k) (hheap : ∀ id o, th.keeps id →
    w.core.heap id = some o → ∃ o', w'.core.heap id = some o' ∧ Becomes o o') : Syncs w' th k := by
  obtain ⟨id, stage, o, hnative, ho, hread, hcovers, hstage⟩ := h
  have hkeeps : th.keeps id := Or.inr (Or.inr (Or.inr (by rw [hnative]; rfl)))
  obtain ⟨o', ho', hbecomes⟩ := hheap id o hkeeps ho
  exact ⟨id, stage, o', hnative, ho', hbecomes.readable hread, hbecomes.covers k hcovers, hstage⟩

theorem keeps_frame {id : ℕ} (h : th.frame.bind Frame.object = some id) : th.keeps id :=
  Or.inr (Or.inr (Or.inl h))

theorem keeps_native {id : ℕ} (h : th.native.bind Native.object = some id) : th.keeps id :=
  Or.inr (Or.inr (Or.inr h))

theorem Uses.keeps {id : ℕ} (h : Uses th id) : th.keeps id := h.2.elim keeps_frame keeps_native

theorem keeps_owned {id : ℕ} (h : th.owns id) : th.keeps id := Or.inr (Or.inl h)

theorem taken_append {log more : List Txn} {k : ℕ} (hk : k < log.length) :
    (log ++ more).take (k + 1) = log.take (k + 1) := List.take_append_of_le_length hk

theorem syncing_later {id : ℕ} {answer : Answer} (hframe : th.frame = some (.syncing id answer))
    (h : Placed conf A r w th) (hlog : ∃ more, w'.core.log = w.core.log ++ more)
    (hheap : ∀ id o, th.keeps id → w.core.heap id = some o →
      ∃ o', w'.core.heap id = some o' ∧ Becomes o o') : Placed conf A r w' th := by
  unfold Placed at h ⊢
  rw [hframe] at h ⊢
  obtain ⟨stage, k, hnative, hk, hsyncs, hanswer⟩ := h
  obtain ⟨more, hlog⟩ := hlog
  refine ⟨stage, k, hnative, ?_, hsyncs.later hheap, ?_⟩
  · rw [hlog, List.length_append]
    omega
  · rw [hlog, taken_append hk]
    exact hanswer

theorem Crewed.calm (h : Crewed conf G A r w th) (hc : Calm conf r w w' th) :
    Crewed conf G A r w' th := by
  have hheap : ∀ id o, th.keeps id → w.core.heap id = some o →
      ∃ o', w'.core.heap id = some o' ∧ Becomes o o' :=
    fun id o hkeeps ho => ⟨o, (hc.heap id hkeeps).trans ho, .refl o⟩
  refine ⟨fun id hkeeps => ?_, fun id o howns ho => ?_, fun id o hheld ho => ?_,
    fun id o huses ho => ?_, h.goals, h.spent, fun hloaded id o hheld ho => ?_,
    fun id o howns ho => ?_, ?_⟩
  · rw [hc.heap id hkeeps]
    exact h.alive id hkeeps
  · rw [hc.heap id (keeps_owned howns)] at ho
    exact h.owned id o howns ho
  · rw [hc.heap id (Or.inl hheld)] at ho
    exact h.holds id o hheld ho
  · rw [hc.heap id huses.keeps] at ho
    exact h.uses id o huses ho
  · rw [hc.heap id (Or.inl hheld)] at ho
    exact h.loads hloaded id o hheld ho
  · rw [hc.heap id (keeps_owned howns)] at ho
    exact h.undeleted id o howns ho
  have hplaced := h.placed
  cases hframe : th.frame with
  | none => simpa only [Placed, hframe] using hplaced
  | some frame =>
    cases frame with
    | syncing id answer => exact syncing_later hframe hplaced hc.log hheap
    | searching id =>
      have hkeeps : th.keeps id := keeps_frame (by rw [hframe]; rfl)
      simp only [Placed, hframe, hc.heap id hkeeps, hc.held] at hplaced ⊢
      exact hplaced
    | reading id version data tries goal =>
      have hkeeps : th.keeps id := keeps_frame (by rw [hframe]; rfl)
      simp only [Placed, hframe, hc.heap id hkeeps, hc.versions id hkeeps] at hplaced ⊢
      obtain ⟨hheld, hversion, hnative, hknown⟩ := hplaced
      refine ⟨hheld, hversion, hnative, fun o ho hactive hsame => ?_⟩
      obtain ⟨hsynced, hlooked⟩ := hknown o ho hactive hsame
      refine ⟨hsynced, fun part i offset size look hlook => ?_⟩
      obtain ⟨hsettled, hheld⟩ := hlooked part i offset size look hlook
      exact ⟨hc.settled hsettled, by rw [hc.held]; exact hheld⟩
    | _ => simpa only [Placed, hframe] using hplaced

theorem Crewed.stale (h : Crewed conf G A r w th) (hs : Stale w w' th) :
    Crewed conf G A r w' th := by
  have hheap : ∀ id o, th.keeps id → w.core.heap id = some o →
      ∃ o', w'.core.heap id = some o' ∧ Becomes o o' := by
    intro id o hkeeps ho
    obtain ⟨o', ho', hbecomes, -⟩ := hs.heap id o hkeeps ho
    exact ⟨o', ho', hbecomes⟩
  have hold : ∀ id o', th.keeps id → w'.core.heap id = some o' → ∃ o, w.core.heap id = some o ∧
      Becomes o o' ∧ (th.owns id → o' = o) ∧
        (o'.state = .active → w.versions id < w'.versions id) := by
    intro id o' hkeeps ho'
    obtain ⟨o, ho, -⟩ := h.alive id hkeeps
    obtain ⟨o'', ho'', hrest⟩ := hs.heap id o hkeeps ho
    obtain rfl := Option.some.inj (ho'.symm.trans ho'')
    exact ⟨o, ho, hrest⟩
  refine ⟨fun id hkeeps => ?_, fun id o' howns ho' => ?_, fun id o' hheld ho' => ?_,
    fun id o' huses ho' => ?_, h.goals, h.spent, fun hloaded id o' hheld ho' => ?_,
    fun id o' howns ho' => ?_, ?_⟩
  · obtain ⟨o, ho, hname⟩ := h.alive id hkeeps
    obtain ⟨o', ho', hbecomes⟩ := hheap id o hkeeps ho
    exact ⟨o', ho', hbecomes.name.trans hname⟩
  · obtain ⟨o, ho, -, hsame, -⟩ := hold id o' (keeps_owned howns) ho'
    rw [hsame howns]
    exact h.owned id o howns ho
  · obtain ⟨o, ho, hbecomes, -⟩ := hold id o' (Or.inl hheld) ho'
    exact hbecomes.found (h.holds id o hheld ho)
  · obtain ⟨o, ho, hbecomes, -⟩ := hold id o' huses.keeps ho'
    exact hbecomes.readable (h.uses id o huses ho)
  · obtain ⟨o, ho, hbecomes, -⟩ := hold id o' (Or.inl hheld) ho'
    exact hbecomes.readable (h.loads hloaded id o hheld ho)
  · obtain ⟨o, ho, -, hsame, -⟩ := hold id o' (keeps_owned howns) ho'
    rw [hsame howns]
    exact h.undeleted id o howns ho
  have hplaced := h.placed
  have hsearch := hs.search
  cases hframe : th.frame with
  | none => simpa only [Placed, hframe] using hplaced
  | some frame =>
    cases frame with
    | syncing id answer => exact syncing_later hframe hplaced hs.log hheap
    | searching id => exact absurd (Or.inr ⟨id, hframe⟩) hsearch
    | reading id version data tries goal =>
      have hkeeps : th.keeps id := keeps_frame (by rw [hframe]; rfl)
      simp only [Placed, hframe] at hplaced ⊢
      obtain ⟨hheld, hversion, hnative, -⟩ := hplaced
      refine ⟨hheld, hversion.trans (hs.versions id), hnative, fun o' ho' hactive hsame => ?_⟩
      obtain ⟨-, -, -, -, hnewer⟩ := hold id o' hkeeps ho'
      have hlt := hnewer hactive
      omega
    | _ => simpa only [Placed, hframe] using hplaced

/-! Steps that leave the engine as it is. -/

theorem calm_same (hcore : w'.core = w.core) (hversions : w'.versions = w.versions)
    (hdurable : ∀ c, w.durable c ≤ w'.durable c) (th : Thread) : Calm conf r w w' th :=
  ⟨fun id _ => by rw [hcore], fun id _ => by rw [hversions], by rw [hcore],
    fun k hk => by rwa [hcore] at hk, hdurable, ⟨[], by rw [hcore, List.append_nil]⟩⟩

theorem Crewed.same (h : Crewed conf G A r w th) (hcore : w'.core = w.core)
    (hversions : w'.versions = w.versions) (hdurable : ∀ c, w.durable c ≤ w'.durable c) :
    Crewed conf G A r w' th :=
  h.calm (calm_same hcore hversions hdurable th)

theorem Syncs.same {k : ℕ} (h : Syncs w th k) (hcore : w'.core = w.core) : Syncs w' th k :=
  h.later fun id o _ ho => ⟨o, by rw [hcore, ho], .refl o⟩

theorem Grounded.same (h : Grounded conf G r s w) (hcore : w'.core = w.core)
    (hobjects : w'.objects = w.objects) (hdurable : w'.durable = w.durable)
    (hhanded : w'.handed = w.handed) (hshown : Shown s w') : Grounded conf G r s w' := by
  refine ⟨hcore ▸ h.engaged, hshown, ?_, ?_, ?_, ?_, ?_⟩
  · rw [hdurable, hhanded]
    exact h.durable
  · rw [hcore, hobjects]
    exact h.known
  · rw [hcore, hobjects]
    exact h.mapped
  · rw [hcore]
    exact h.superseded
  · rw [hcore, hdurable]
    exact h.covered

theorem Shown.append (h : Shown s w) {more : List Txn} (hlog : w'.core.log = w.core.log ++ more)
    (hhanded : w'.handed = w.handed) (hpart : w'.part = w.part) (hbatch : w'.batch = w.batch)
    (hstore : w'.store = w.store) : Shown s w' := by
  have hle := h.handed.1.trans h.handed.2
  have htake : (w.core.log ++ more).take w.handed = w.core.log.take w.handed :=
    List.take_append_of_le_length hle
  refine ⟨?_, fun heq => ?_, ?_⟩
  · rw [hlog, hhanded, hbatch, List.length_append]
    exact ⟨h.handed.1, h.handed.2.trans (Nat.le_add_right _ _)⟩
  · rw [hlog, hhanded, List.length_append] at heq
    rw [hpart]
    exact h.part (by omega)
  · obtain ⟨u, hu, hshow⟩ := h.store
    rw [hlog, hhanded, hpart, hstore, htake]
    refine ⟨u, hu, ?_⟩
    by_cases hlt : w.handed < w.core.log.length
    · rwa [List.getElem?_append_left hlt]
    · -- nothing of what is new can be seen yet
      have hpart0 := h.part (by omega)
      rw [hpart0, List.take_zero] at hshow ⊢
      exact hshow

theorem Shown.same (h : Shown s w) (hlog : w'.core.log = w.core.log) (hhanded : w'.handed = w.handed)
    (hpart : w'.part = w.part) (hbatch : w'.batch = w.batch) (hstore : w'.store = w.store) :
    Shown s w' :=
  h.append (hlog.trans (List.append_nil _).symm) hhanded hpart hbatch hstore

/-- A call that touches no name. An Object it changes was not in the map, and is
not retired by it; one it finds to hold a name is that of a settled name. -/
structure Quiet (conf : Conf) (w w' : World) : Prop where
  log : ∃ more, w'.core.log = w.core.log ++ more ∧ ∀ n, ∀ t ∈ more, ¬ Touches n t
  fresh : w.core.fresh ≤ w'.core.fresh
  heap : ∀ id o, w'.core.heap id = some o → w.core.heap id = some o ∨
    (w.core.fresh ≤ id ∨ ∃ p, w.core.heap id = some p ∧ p.state ≠ .active ∧ p.state ≠ .missing) ∧
      o.state ≠ .old ∧ (o.state = .active → Settled conf w o.name)

theorem Quiet.touched (h : Quiet conf w w') {k : ℕ} (hk : TouchedAt w'.core.log name k) :
    TouchedAt w.core.log name k := by
  obtain ⟨more, hlog, hnone⟩ := h.log
  obtain ⟨u, hu, htouch⟩ := hk
  rw [hlog] at hu
  by_cases hlt : k < w.core.log.length
  · rw [List.getElem?_append_left hlt] at hu
    exact ⟨u, hu, htouch⟩
  · rw [List.getElem?_append_right (by omega)] at hu
    exact absurd htouch (hnone name u (List.mem_of_getElem? hu))

theorem Quiet.held (h : Quiet conf w w') (r : Record) (n : Name) :
    (r.after w'.core.log).held n = (r.after w.core.log).held n := by
  obtain ⟨more, hlog, hnone⟩ := h.log
  rw [hlog, Record.after_append]
  exact held_quiet (hnone n)

theorem grounded_quiet (h : Grounded conf G r s w) (hq : Quiet conf w w')
    (hengaged : Engaged conf G r s w'.core) (hshown : Shown s w')
    (hobjects : w'.objects = w.objects) (hdurable : w'.durable = w.durable)
    (hhanded : w'.handed = w.handed) : Grounded conf G r s w' := by
  obtain ⟨more, hlog, -⟩ := hq.log
  refine ⟨hengaged, hshown, ?_, fun n id hid => ?_, fun n id o hid ho => ?_, fun id o ho hold => ?_,
    fun id o ho hactive k hk => ?_⟩
  · rw [hdurable, hhanded]
    exact h.durable
  · rw [hobjects] at hid
    exact (h.known n id hid).trans_le hq.fresh
  · rw [hobjects] at hid
    rw [hq.held r n]
    rcases hq.heap id o ho with hsame | ⟨hge | ⟨p, hp, hnot, hnot'⟩, -⟩
    · exact h.mapped n id o hid hsame
    · have hlt := h.known n id hid
      omega
    · rcases (h.mapped n id p hid hp).2 with hstate | ⟨hstate, -⟩
      · exact absurd hstate hnot
      · exact absurd hstate hnot'
  · rcases hq.heap id o ho with hsame | ⟨-, hnot, -⟩
    · obtain ⟨k, hk, hlater⟩ := h.superseded id o hsame hold
      exact ⟨k, hlog ▸ hk.append more, hlater⟩
    · exact absurd hold hnot
  · rw [hdurable]
    rcases hq.heap id o ho with hsame | ⟨-, -, hsettled⟩
    · exact h.covered id o hsame hactive k (hq.touched hk)
    · exact Or.inl (hsettled hactive k (hq.touched hk))

/-- What one thread of a step has to do with the threads before it. -/
structure Moves (conf : Conf) (G : Goal → Prop) (A : Answer → Option View → Prop) (r : Record)
    (w w' : World) (t : ℕ) (before after : Option Thread) : Prop where
  was : w.threads t = before
  now : w'.threads = update w.threads t after
  crewed : ∀ th', after = some th' → t < w'.next ∧ Crewed conf G A r w' th'
  owns : ∀ th', after = some th' → ∀ id, th'.owns id → (∃ th, before = some th ∧ th.owns id) ∨
    ∀ u uth, u ≠ t → w.threads u = some uth → ¬ uth.keeps id
  keeps : ∀ th', after = some th' → ∀ id, th'.keeps id → (∃ th, before = some th ∧ th.keeps id) ∨
    ∀ u uth, u ≠ t → w.threads u = some uth → ¬ uth.owns id
  guards : ∀ th, before = some th → ∀ k, Syncs w th k → k < w'.durable (conf.collection th.name) ∨
    ∃ th', after = some th' ∧ th'.name = th.name ∧ Syncs w' th' k

/-- A step of one thread that changes nothing the others have to do with and
touches no name. -/
theorem manned_step {before after : Option Thread} (h : Manned conf G A r w)
    (hmoves : Moves conf G A r w w' t before after) (hnext : w.next ≤ w'.next)
    (hobjects : w'.objects = w.objects) (hdurable : ∀ c, w.durable c ≤ w'.durable c)
    (htouched : ∀ n k, TouchedAt w'.core.log n k → TouchedAt w.core.log n k)
    (hcalm : ∀ u uth, u ≠ t → w.threads u = some uth → Calm conf r w w' uth)
    (hactive : ∀ id o, w'.core.heap id = some o → o.state = .active →
      w.core.heap id = some o ∨ FoundBy w' o.name id)
    (hsearch : ∀ th, before = some th → Searches th → (∃ th', after = some th' ∧
      th'.name = th.name ∧ Searches th') ∧ ¬ (th.native = none ∧ ∃ id, th.frame = some (.searching id)))
    (hsearch' : ∀ th', after = some th' → Searches th' →
      ∃ th, before = some th ∧ Searches th ∧ th'.name = th.name) : Manned conf G A r w' := by
  have hcases : ∀ {u uth}, w'.threads u = some uth → u = t ∧ after = some uth ∨
      u ≠ t ∧ w.threads u = some uth := by
    intro u uth hu
    rw [hmoves.now] at hu
    by_cases hut : u = t
    · subst hut
      rw [update_self] at hu
      exact Or.inl ⟨rfl, hu⟩
    · rw [update_of_ne hut] at hu
      exact Or.inr ⟨hut, hu⟩
  have hother : ∀ {u uth}, u ≠ t → w.threads u = some uth → w'.threads u = some uth := by
    intro u uth hut hu
    rw [hmoves.now, update_of_ne hut, hu]
  have hself : ∀ {th'}, after = some th' → w'.threads t = some th' := by
    intro th' heq
    rw [hmoves.now, update_self, heq]
  have hsyncs : ∀ {u uth k}, u ≠ t → w.threads u = some uth → Syncs w uth k → Syncs w' uth k := by
    intro u uth k hut hu hs
    have hc := hcalm u uth hut hu
    exact hs.later fun id o hkeeps ho => ⟨o, (hc.heap id hkeeps).trans ho, .refl o⟩
  refine ⟨fun u uth hu => ?_, fun u v uth vth id hu hv howns hkeeps => ?_, fun n u hu => ?_,
    fun u uth hu hs => ?_, fun id o ho hact => ?_, fun n k hk hpending => ?_⟩
  · rcases hcases hu with ⟨rfl, heq⟩ | ⟨hut, hu⟩
    · exact hmoves.crewed uth heq
    · obtain ⟨hlt, hcrewed⟩ := h.crewed u uth hu
      exact ⟨hlt.trans_le hnext, hcrewed.calm (hcalm u uth hut hu)⟩
  · rcases hcases hu with ⟨rfl, heq⟩ | ⟨hut, hu⟩
    · rcases hcases hv with ⟨rfl, -⟩ | ⟨hvt, hv⟩
      · rfl
      · rcases hmoves.owns uth heq id howns with ⟨th, hth, hown⟩ | hnone
        · exact h.apart u v th vth id (hmoves.was.trans hth) hv hown hkeeps
        · exact absurd hkeeps (hnone v vth hvt hv)
    · rcases hcases hv with ⟨rfl, heq⟩ | ⟨-, hv⟩
      · rcases hmoves.keeps vth heq id hkeeps with ⟨th, hth, hkept⟩ | hnone
        · exact h.apart u v uth th id hu (hmoves.was.trans hth) howns hkept
        · exact absurd howns (hnone u uth hut hu)
      · exact h.apart u v uth vth id hu hv howns hkeeps
  · rw [hobjects] at hu
    obtain ⟨uth, huth, hname, hs⟩ := h.sought n u hu
    by_cases hut : u = t
    · subst hut
      obtain ⟨⟨th', heq, hname', hs'⟩, -⟩ := hsearch uth (hmoves.was.symm.trans huth) hs
      exact ⟨th', hself heq, hname'.trans hname, hs'⟩
    · exact ⟨uth, hother hut huth, hname, hs⟩
  · rw [hobjects]
    rcases hcases hu with ⟨rfl, heq⟩ | ⟨-, hu⟩
    · obtain ⟨th, hth, hs', hname⟩ := hsearch' uth heq hs
      rw [hname]
      exact h.searches u th (hmoves.was.trans hth) hs'
    · exact h.searches u uth hu hs
  · rcases hactive id o ho hact with hold | hfound
    · rw [hobjects]
      refine (h.located id o hold hact).imp_right fun ⟨u, uth, huth, hname, hframe, hnative⟩ => ?_
      have hut : u ≠ t := by
        rintro rfl
        exact (hsearch uth (hmoves.was.symm.trans huth) (Or.inr ⟨id, hframe⟩)).2
          ⟨hnative, id, hframe⟩
      exact ⟨u, uth, hother hut huth, hname, hframe, hnative⟩
    · exact Or.inr hfound
  · obtain ⟨u, uth, huth, hname, hs⟩ := h.guarded n k (htouched n k hk) ((hdurable _).trans hpending)
    by_cases hut : u = t
    · subst hut
      rcases hmoves.guards uth (hmoves.was.symm.trans huth) k hs with hlt | ⟨th', heq, hname', hs'⟩
      · rw [hname] at hlt
        omega
      · exact ⟨u, th', hself heq, hname'.trans hname, hs'⟩
    · exact ⟨u, uth, hother hut huth, hname, hsyncs hut huth hs⟩

/-- A step of a thread that is no search, and that leaves everything else as it is. -/
theorem manned_thread (h : Manned conf G A r w) (hth : w.threads t = some th)
    (hsearch : ¬ Searches th) {after : Option Thread}
    (hcore : w'.core = w.core) (hobjects : w'.objects = w.objects)
    (hversions : w'.versions = w.versions) (hdurable : w'.durable = w.durable)
    (hnext : w'.next = w.next) (hthreads : w'.threads = update w.threads t after)
    (hplace : ∀ th', after = some th' → th'.name = th.name ∧ ¬ Searches th' ∧
      Crewed conf G A r w th' ∧ (∀ id, th'.owns id → th.owns id) ∧
      ∀ id, th'.keeps id → th.keeps id ∨ ∃ o, w.core.heap id = some o ∧ ¬ Writing o)
    (hguard : ∀ k, Syncs w th k → k < w.durable (conf.collection th.name) ∨
      ∃ th', after = some th' ∧ Syncs w th' k) : Manned conf G A r w' := by
  have hle : ∀ c, w.durable c ≤ w'.durable c := fun c => by rw [hdurable]
  refine manned_step h ⟨hth, hthreads, fun th' heq => ?_, fun th' heq id howns => ?_,
    fun th' heq id hkeeps => ?_, fun _ heq k hs => ?_⟩ hnext.ge hobjects hle
    (fun n k hk => by rwa [hcore] at hk) (fun u uth _ _ => calm_same hcore hversions hle uth)
    (fun id o ho _ => Or.inl (by rwa [hcore] at ho)) (fun _ heq hs => ?_) fun th' heq hs => ?_
  · rw [hnext]
    exact ⟨(h.crewed t th hth).1, (hplace th' heq).2.2.1.same hcore hversions hle⟩
  · exact Or.inl ⟨th, rfl, (hplace th' heq).2.2.2.1 id howns⟩
  · refine ((hplace th' heq).2.2.2.2 id hkeeps).imp (fun hkept => ⟨th, rfl, hkept⟩)
      fun ⟨o, ho, hnot⟩ u uth _ hu howns => ?_
    exact hnot ((h.crewed u uth hu).2.owned id o howns ho)
  · obtain rfl := Option.some.inj heq
    rw [hdurable]
    refine (hguard k hs).imp_right fun ⟨th', heq', hs'⟩ => ?_
    exact ⟨th', heq', (hplace th' heq').1, hs'.same hcore⟩
  · obtain rfl := Option.some.inj heq
    exact absurd hs hsearch
  · exact absurd hs (hplace th' heq).2.1

/-! A new Object. -/

/-- The world with one more Object. -/
def added (w : World) (o : Object) (last : UInt64) : World :=
  { w with core := { w.core with
      heap := update w.core.heap w.core.fresh (some o), fresh := w.core.fresh + 1, last } }

theorem Manned.unused (h : Manned conf G A r w) : w.threads w.next = none := by
  cases hu : w.threads w.next with
  | none => rfl
  | some uth => exact absurd (h.crewed w.next uth hu).1 (lt_irrefl _)

theorem Manned.lt_fresh (h : Manned conf G A r w) (hg : Grounded conf G r s w) {id : ℕ}
    (hth : w.threads t = some th) (hkeeps : th.keeps id) : id < w.core.fresh := by
  obtain ⟨o, ho, -⟩ := (h.crewed t th hth).2.alive id hkeeps
  exact hg.engaged.stands.lt_fresh ho

theorem calm_added (hg : Grounded conf G r s w) (hm : Manned conf G A r w)
    (hth : w.threads t = some th) (o : Object) (last : UInt64) :
    Calm conf r w (added w o last) th := by
  refine ⟨fun id hkeeps => ?_, fun _ _ => rfl, rfl, fun _ hk => hk, fun _ => le_refl _,
    ⟨[], (List.append_nil _).symm⟩⟩
  have hlt := hm.lt_fresh hg hth hkeeps
  exact update_of_ne (by omega) _ _

theorem quiet_added (w : World) {o : Object} (last : UInt64)
    (hstate : o.state = .preWrite ∨ o.state = .preSearch) : Quiet conf w (added w o last) := by
  refine ⟨⟨[], (List.append_nil _).symm, fun n t ht => by contradiction⟩, Nat.le_succ _,
    fun id p hp => ?_⟩
  rcases heap_update hp with ⟨rfl, heq⟩ | ⟨-, hp⟩
  · obtain rfl := Option.some.inj heq
    refine Or.inr ⟨Or.inl (le_refl _), ?_, fun hactive => ?_⟩
    · rcases hstate with h | h <;> simp [h]
    · rcases hstate with h | h <;> simp [h] at hactive
  · exact Or.inl hp

/-- What a decision that writes comes to: its name has a new version, or new
metadata, for an Object the thread then syncs. -/
structure Decides (conf : Conf) (G : Goal → Prop) (A : Answer → Option View → Prop) (r : Record)
    (w w' : World) (t : ℕ) (th th' : Thread) (id : ℕ) : Prop where
  was : w.threads t = some th
  now : w'.threads = update w.threads t (some th')
  next : w'.next = w.next
  name : th'.name = th.name
  crewed : Crewed conf G A r w' th'
  owns : ∀ i, th'.owns i → th.owns i
  keeps : ∀ i, th'.keeps i → th.keeps i ∨ ∀ u uth, u ≠ t → w.threads u = some uth → ¬ uth.owns i
  found : ∃ prev, w.objects th.name = some (.object prev)
  mapped : w'.objects th.name = some (.object id)
  others : ∀ n, n ≠ th.name → w'.objects n = w.objects n
  durable : w'.durable = w.durable
  touched : ∀ n k, n ≠ th.name → TouchedAt w'.core.log n k → TouchedAt w.core.log n k
  calm : ∀ u uth, u ≠ t → w.threads u = some uth → uth.name ≠ th.name → Calm conf r w w' uth
  stale : ∀ u uth, u ≠ t → w.threads u = some uth → uth.name = th.name → ¬ Searches uth →
    Stale w w' uth
  active : ∀ i o, w'.core.heap i = some o → o.state = .active →
    w.core.heap i = some o ∧ o.name ≠ th.name ∨ o.name = th.name ∧ i = id
  syncs : ∀ k, TouchedAt w'.core.log th.name k → Syncs w' th' k

theorem manned_decides {th' : Thread} {id : ℕ} (h : Manned conf G A r w)
    (hd : Decides conf G A r w w' t th th' id) (hsearch : ¬ Searches th') :
    Manned conf G A r w' := by
  obtain ⟨prev, hslot⟩ := hd.found
  have hcases : ∀ {u uth}, w'.threads u = some uth → u = t ∧ th' = uth ∨
      u ≠ t ∧ w.threads u = some uth := by
    intro u uth hu
    rw [hd.now] at hu
    by_cases hut : u = t
    · subst hut
      rw [update_self] at hu
      exact Or.inl ⟨rfl, Option.some.inj hu⟩
    · rw [update_of_ne hut] at hu
      exact Or.inr ⟨hut, hu⟩
  have hother : ∀ {u uth}, u ≠ t → w.threads u = some uth → w'.threads u = some uth := by
    intro u uth hut hu
    rw [hd.now, update_of_ne hut, hu]
  have hself : w'.threads t = some th' := by rw [hd.now, update_self]
  have hnone : ∀ {u uth}, w.threads u = some uth → uth.name = th.name → ¬ Searches uth := by
    intro u uth hu hname hs
    have hsearches := h.searches u uth hu hs
    simp [hname, hslot] at hsearches
  refine ⟨fun u uth hu => ?_, fun u v uth vth i hu hv howns hkeeps => ?_, fun n u hu => ?_,
    fun u uth hu hs => ?_, fun i o ho hact => ?_, fun n k hk hpending => ?_⟩
  · rw [hd.next]
    rcases hcases hu with ⟨rfl, rfl⟩ | ⟨hut, hu⟩
    · exact ⟨(h.crewed u th hd.was).1, hd.crewed⟩
    · obtain ⟨hlt, hcrewed⟩ := h.crewed u uth hu
      refine ⟨hlt, ?_⟩
      by_cases hname : uth.name = th.name
      · exact hcrewed.stale (hd.stale u uth hut hu hname (hnone hu hname))
      · exact hcrewed.calm (hd.calm u uth hut hu hname)
  · rcases hcases hu with ⟨rfl, rfl⟩ | ⟨hut, hu⟩
    · rcases hcases hv with ⟨rfl, -⟩ | ⟨-, hv⟩
      · rfl
      · exact h.apart u v th vth i hd.was hv (hd.owns i howns) hkeeps
    · rcases hcases hv with ⟨rfl, rfl⟩ | ⟨-, hv⟩
      · rcases hd.keeps i hkeeps with hkept | hnone
        · exact h.apart u v uth th i hu hd.was howns hkept
        · exact absurd howns (hnone u uth hut hu)
      · exact h.apart u v uth vth i hu hv howns hkeeps
  · have hn : n ≠ th.name := by
      rintro rfl
      simp [hd.mapped] at hu
    rw [hd.others n hn] at hu
    obtain ⟨uth, huth, hname, hs⟩ := h.sought n u hu
    have hut : u ≠ t := by
      rintro rfl
      obtain rfl := Option.some.inj (hd.was.symm.trans huth)
      exact hn hname.symm
    exact ⟨uth, hother hut huth, hname, hs⟩
  · rcases hcases hu with ⟨rfl, rfl⟩ | ⟨-, hu⟩
    · exact absurd hs hsearch
    · have hn : uth.name ≠ th.name := fun hname => hnone hu hname hs
      rw [hd.others _ hn]
      exact h.searches u uth hu hs
  · rcases hd.active i o ho hact with ⟨hold, hn⟩ | ⟨hname, rfl⟩
    · rw [hd.others _ hn]
      refine (h.located i o hold hact).imp_right fun ⟨u, uth, huth, hname, hframe, hnative⟩ => ?_
      have hut : u ≠ t := by
        rintro rfl
        obtain rfl := Option.some.inj (hd.was.symm.trans huth)
        exact hn hname.symm
      exact ⟨u, uth, hother hut huth, hname, hframe, hnative⟩
    · rw [hname]
      exact Or.inl hd.mapped
  · by_cases hn : n = th.name
    · subst hn
      exact ⟨t, th', hself, hd.name, hd.syncs k hk⟩
    · rw [hd.durable] at hpending
      obtain ⟨u, uth, huth, hname, hs⟩ := h.guarded n k (hd.touched n k hn hk) hpending
      have hut : u ≠ t := by
        rintro rfl
        obtain rfl := Option.some.inj (hd.was.symm.trans huth)
        exact hn hname.symm
      have hc := hd.calm u uth hut huth fun heq => hn (hname.symm.trans heq)
      exact ⟨u, uth, hother hut huth, hname,
        hs.later fun id o hkeeps ho => ⟨o, (hc.heap id hkeeps).trans ho, .refl o⟩⟩

end Swiftacular.DeviceWorld
