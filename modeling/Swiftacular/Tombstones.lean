import Swiftacular.AnchoredObjects
import Swiftacular.RangedReads
import Swiftacular.WrittenWhole

/-!
What is marked deleted has no data. A tombstone is refused once there is some,
but it leads to the state a write asks for, so that data can follow it. A run
in which none does has no bytes in whatever holds a name as deleted.
-/
namespace Swiftacular.Tombstones

open Function EntryStore EngineObjects Versions EngineRuns LiveObjects PreparedLog EngineMoves
  StepRuns WrittenWhole AnchoredObjects RangedReads

/-- The Objects whose deleted flag a call can set: those of a `create()` or a
`find()` before their first call. -/
def Early (o : Object) : Prop := o.state = .preWrite ∨ o.state = .preSearch

/-- No transaction of an Object that is deleted writes data. -/
def Bare (e : Engine) : Prop :=
  ∀ id o, e.core.heap id = some o → o.deleted = true → bytesOf e.core.log id = []

/-- A deleted Object that can be written is not given data. -/
def Unspoiled (e : Engine) (m : Move) : Prop :=
  ∀ id data o, m = .call (.write id data) → e.core.heap id = some o → Writing o →
    o.deleted = true → data = []

/-- Entries marked deleted have no data. -/
def Barren (s : Store) : Prop :=
  ∀ a x k, s a = some x → x.attrs = some k → k.deleted = true → x.data = []

/-- Whoever finds a name deleted reads nothing. -/
def ReadsEmpty (s : Store) : Prop :=
  ∀ name o, (Backend.find 0 name).open s = (o, .ok ()) → o.state = .active → o.deleted = true →
    ∀ offset size, objectRead s s o offset size = .ok []

variable {e e' : Engine} {m : Move}

/-- What a move does to the flags and to what was written. -/
structure Marks (e : Engine) (m : Move) (e' : Engine) : Prop where
  fresh : e.core.fresh ≤ e'.core.fresh
  flags : ∀ id o', e'.core.heap id = some o' →
    (∃ o, e.core.heap id = some o ∧ (o'.deleted = o.deleted ∨ Early o) ∧ (Early o' → Early o)) ∨
      e.core.fresh ≤ id ∧ o'.deleted = false
  bytes : ∀ id, bytesOf e'.core.log id = bytesOf e.core.log id ∨
    ∃ data o o', m = .call (.write id data) ∧ e.core.heap id = some o ∧ Writing o ∧
      e'.core.heap id = some o' ∧ o'.deleted = o.deleted ∧ ¬ Early o' ∧
      bytesOf e'.core.log id = bytesOf e.core.log id ++ data

theorem marks_same (e : Engine) (m : Move) : Marks e m e :=
  ⟨le_refl _, fun _ o ho => Or.inl ⟨o, ho, Or.inl rfl, fun h => h⟩, fun _ => Or.inl rfl⟩

/-- A transaction that writes nothing, of an Object whose flag stays or is set early. -/
theorem marks_prepared {id : ℕ} {o o' : Object} {t : Txn} (ho : e.core.heap id = some o)
    (hflag : o'.deleted = o.deleted ∨ Early o) (hearly : ¬ Early o' ∨ Early o)
    (hbytes : ∀ i, Note.bytesTo i t.note = []) :
    Marks e m { e with core := e.core.prepared id o' t } := by
  refine ⟨le_refl _, fun i p hp => Or.inl ?_, fun i => Or.inl ?_⟩
  · rcases heap_update hp with ⟨rfl, heq⟩ | ⟨-, hp⟩
    · obtain rfl := Option.some.inj heq
      exact ⟨o, ho, hflag, fun h => hearly.resolve_left (not_not_intro h)⟩
    · exact ⟨p, hp, Or.inl rfl, fun h => h⟩
  · change bytesOf (e.core.log ++ [t]) i = _
    rw [bytesOf_concat, hbytes i, List.append_nil]

theorem marks_write {id : ℕ} {data : Bytes} {c : Core} (hc : e.core.write id data = .ok c) :
    Marks e (.call (.write id data)) { e with core := c } := by
  rcases write_cases hc with rfl | ⟨o, o', ops, ho, hw, rfl⟩
  · exact marks_same e _
  obtain ⟨hstate, rfl, -⟩ := write_ok hw
  refine ⟨le_refl _, fun i p hp => Or.inl ?_, fun i => ?_⟩
  · rcases heap_update hp with ⟨rfl, heq⟩ | ⟨-, hp⟩
    · obtain rfl := Option.some.inj heq
      refine ⟨o, ho, Or.inl rfl, fun h => ?_⟩
      rcases h with h | h <;> contradiction
    · exact ⟨p, hp, Or.inl rfl, fun h => h⟩
  · dsimp only [Core.prepared]
    rw [bytesOf_concat]
    by_cases hi : id = i
    · subst hi
      refine Or.inr ⟨data, o, _, rfl, ho, hstate, update_self .., rfl, ?_, ?_⟩
      · rintro (h | h) <;> contradiction
      · simp only [Note.bytesTo, if_true]
    · left
      simp only [Note.bytesTo, hi, if_false, List.append_nil]

theorem marks_metadata {id : ℕ} {o o₁ o' : Object} {data : Bytes} {ops : List Op} {stat : Stat}
    (ho : e.core.heap id = some o)
    (hsame : o₁ = o ∨ o.state = .preWrite ∧ o₁ = { o with deleted := true })
    (hm : o₁.writeMetadata data = .ok (o', ops)) :
    Marks e m { e with core := e.core.prepared id o' ⟨o.name, ops, .header id stat data⟩ } := by
  obtain ⟨hstate, rfl, -⟩ := writeMetadata_ok hm
  have hearly : ¬ Early (if o₁.state = .preWrite then { o₁ with state := .inWrite } else o₁) := by
    rcases hstate with h | h | h <;> simp [h, Early]
  refine marks_prepared ho ?_ (Or.inl hearly) fun _ => rfl
  rcases hsame with rfl | ⟨hpre, -⟩
  · left
    split <;> rfl
  · exact Or.inr (Or.inl hpre)

theorem marks_put {i j : ℕ} {ts : Option ℕ} {c : Core} (hc : e.core.put i j ts = .ok c) :
    Marks e m { e with core := c } := by
  rcases put_cases hc with rfl | ⟨n, p, n', p', ops, hn, hp, hput, rfl⟩
  · exact marks_same e _
  obtain ⟨-, hstate, -, -, rfl, rfl, -⟩ := put_ok hput
  refine ⟨le_refl _, fun k q hq => Or.inl ?_, fun k => Or.inl ?_⟩
  · rcases heap_update hq with ⟨rfl, heq⟩ | ⟨-, hq⟩
    · obtain rfl := Option.some.inj heq
      refine ⟨n, hn, Or.inl rfl, fun h => ?_⟩
      rcases h with h | h <;> contradiction
    rcases heap_update hq with ⟨rfl, heq⟩ | ⟨-, hq⟩
    · obtain rfl := Option.some.inj heq
      refine ⟨p, hp, Or.inl ?_, fun h => ?_⟩
      · unfold Backend.retire
        split <;> rfl
      · rcases hstate with hs | hs <;> simp [Backend.retire, Early, hs] at h
    · exact ⟨q, hq, Or.inl rfl, fun h => h⟩
  · change bytesOf (e.core.log ++ [_]) k = _
    rw [bytesOf_concat]
    exact List.append_nil _

theorem marks_release (e : Engine) (m : Move) (id : ℕ) :
    Marks e m { e with core := e.core.release id } := by
  cases ho : e.core.heap id with
  | none =>
    have hsame : e.core.release id = e.core := by simp only [Core.release, ho]
    rw [hsame]
    exact marks_same e m
  | some o =>
    have hheap : (e.core.release id).heap = update e.core.heap id none := by
      simp only [Core.release, ho]
    refine ⟨by simp only [Core.release, ho, le_refl], fun i p hp => Or.inl ?_, fun i => Or.inl ?_⟩
    · dsimp only at hp
      rw [hheap] at hp
      rcases heap_update hp with ⟨-, h⟩ | ⟨-, hp⟩
      · contradiction
      · exact ⟨p, hp, Or.inl rfl, fun h => h⟩
    · dsimp only [Core.release]
      rw [ho]
      dsimp only
      split
      · rfl
      · rw [bytesOf_concat]
        exact List.append_nil _

theorem marks_call {call : Call} (hstep : e.step call = some e') : Marks e (.call call) e' := by
  have hnew : ∀ (o : Object) (last : UInt64), o.deleted = false → Marks e (.call call)
      { e with core := { e.core with
        heap := update e.core.heap e.core.fresh (some o), fresh := e.core.fresh + 1, last } } := by
    intro o last hdel
    refine ⟨Nat.le_succ _, fun i p hp => ?_, fun _ => Or.inl rfl⟩
    rcases heap_update hp with ⟨rfl, heq⟩ | ⟨-, hp⟩
    · obtain rfl := Option.some.inj heq
      exact Or.inr ⟨le_refl _, hdel⟩
    · exact Or.inl ⟨p, hp, Or.inl rfl, fun h => h⟩
  cases call with
  | create name ts us =>
    obtain rfl := Option.some.inj hstep
    exact hnew _ _ rfl
  | find name =>
    obtain rfl := Option.some.inj hstep
    exact hnew _ _ rfl
  | «open» id =>
    obtain rfl := Option.some.inj hstep
    dsimp only [Core.open]
    split
    · exact marks_same _ _
    · rename_i o ho
      refine ⟨le_refl _, fun i p hp => Or.inl ?_, fun _ => Or.inl rfl⟩
      rcases heap_update hp with ⟨rfl, heq⟩ | ⟨-, hp⟩
      · obtain rfl := Option.some.inj heq
        rcases open_state e.store o with hsame | ⟨hpre, -⟩
        · exact ⟨o, ho, Or.inl (congrArg (fun x => x.deleted) hsame), fun h => hsame ▸ h⟩
        · exact ⟨o, ho, Or.inr (Or.inr hpre), fun _ => Or.inr hpre⟩
      · exact ⟨p, hp, Or.inl rfl, fun h => h⟩
  | write id data =>
    rcases attempt_cases hstep with rfl | ⟨c, hc, rfl⟩
    · exact marks_same _ _
    · exact marks_write hc
  | writeMetadata id data =>
    rcases attempt_cases hstep with rfl | ⟨c, hc, rfl⟩
    · exact marks_same _ _
    rcases writeMetadata_cases hc with rfl | ⟨o, o', ops, ho, hm, rfl⟩
    · exact marks_same _ _
    · exact marks_metadata ho (Or.inl rfl) hm
  | tombstone id data =>
    rcases attempt_cases hstep with rfl | ⟨c, hc, rfl⟩
    · exact marks_same _ _
    rcases tombstone_cases hc with rfl | ⟨o, o', ops, ho, hpre, hm, rfl⟩
    · exact marks_same _ _
    · exact marks_metadata ho (Or.inr ⟨hpre, rfl⟩) hm
  | put next prev ts =>
    rcases attempt_cases hstep with rfl | ⟨c, hc, rfl⟩
    · exact marks_same _ _
    · exact marks_put hc
  | submit =>
    unfold Engine.step at hstep
    dsimp only at hstep
    split at hstep
    · contradiction
    · obtain rfl := Option.some.inj hstep
      exact ⟨le_refl _, fun _ o ho => Or.inl ⟨o, ho, Or.inl rfl, fun h => h⟩, fun _ => Or.inl rfl⟩
  | release id =>
    obtain rfl := Option.some.inj hstep
    exact marks_release e _ id

theorem marks_move (hstep : move e m = some e') : Marks e m e' := by
  cases m with
  | call call => exact marks_call hstep
  | hand =>
    rcases hand_cases hstep with rfl | ⟨t, store, -, -, rfl⟩
    · exact marks_same _ _
    · exact ⟨le_refl _, fun _ o ho => Or.inl ⟨o, ho, Or.inl rfl, fun h => h⟩, fun _ => Or.inl rfl⟩

/-! The flags over a run. -/

/-- Nothing was written to what is not made yet, or to an Object before its first call. -/
structure Spotless (e : Engine) : Prop where
  numbered : Numbered e.core
  unmade : ∀ id, e.core.fresh ≤ id → bytesOf e.core.log id = []
  early : ∀ id o, e.core.heap id = some o → Early o → bytesOf e.core.log id = []

theorem spotless_start (s : Store) (last : UInt64) : Spotless (Engine.start s last) :=
  ⟨fun _ _ => rfl, fun _ _ => rfl, fun _ _ _ _ => rfl⟩

theorem spotless_move (hs : Spotless e) (hstep : move e m = some e') : Spotless e' := by
  have h := marks_move hstep
  refine ⟨numbered_move hs.numbered hstep, fun id hid => ?_, fun id o' ho' hearly => ?_⟩
  · have hid := h.fresh.trans hid
    rcases h.bytes id with hsame | ⟨_, o, _, _, ho, _⟩
    · rw [hsame]
      exact hs.unmade id hid
    · rw [hs.numbered id hid] at ho
      contradiction
  · rcases h.bytes id with hsame | ⟨_, _, p, _, _, _, hp, _, hnot, _⟩
    · rw [hsame]
      rcases h.flags id o' ho' with ⟨o, ho, _, hwas⟩ | ⟨hid, _⟩
      · exact hs.early id o ho (hwas hearly)
      · exact hs.unmade id hid
    · obtain rfl := Option.some.inj (ho'.symm.trans hp)
      exact absurd hearly hnot

/-- Where no data follows a tombstone, what is deleted stays bare. -/
theorem bare_move (hs : Spotless e) (hbare : Bare e) (hm : Unspoiled e m)
    (hstep : move e m = some e') : Bare e' := by
  have h := marks_move hstep
  intro id o' ho' hdel
  rcases h.bytes id with hsame | ⟨data, o, p, hcall, ho, hw, hp, hkeeps, _, hbytes⟩
  · rw [hsame]
    rcases h.flags id o' ho' with ⟨o, ho, hflag | hearly, _⟩ | ⟨hid, _⟩
    · exact hbare id o ho (hflag ▸ hdel)
    · exact hs.early id o ho hearly
    · exact hs.unmade id hid
  · obtain rfl := Option.some.inj (ho'.symm.trans hp)
    have hold : o.deleted = true := hkeeps ▸ hdel
    rw [hbytes, hbare id o ho hold, hm id data o hcall ho hw hold]
    rfl

/-- Data after a tombstone is in what is deleted at once. -/
theorem unspoiled_of_bare (hbare : ∀ e', move e m = some e' → Bare e') : Unspoiled e m := by
  rintro id data o rfl ho hw hdel
  obtain ⟨o', ops, hcall, hflag⟩ : ∃ o' ops, o.write data = .ok (o', ops) ∧
      o'.deleted = o.deleted := ⟨_, _, write_eq hw data, rfl⟩
  have hstep : move e (.call (.write id data)) = some { e with
      core := e.core.prepared id o' ⟨o.name, ops, .write id o'.toStat data⟩ } := by
    simp only [move, Engine.step, Core.write, ho, hcall]
    rfl
  have hnone := hbare _ hstep id _ (update_self ..) (hflag.trans hdel)
  dsimp only [Core.prepared] at hnone
  rw [bytesOf_concat] at hnone
  simpa only [Note.bytesTo, if_true] using (List.append_eq_nil_iff.mp hnone).2

theorem bare_iff (hs : Spotless e) (hbare : Bare e) (ms : List Move) :
    (∀ k e', run move e (ms.take k) = some e' → Bare e') ↔ Along move Unspoiled e ms := by
  induction ms generalizing e with
  | nil =>
    refine ⟨fun _ => trivial, fun _ k e' hrun => ?_⟩
    rw [List.take_nil] at hrun
    obtain rfl := Option.some.inj hrun
    exact hbare
  | cons m rest ih =>
    constructor
    · intro hall
      have hfirst : ∀ t, move e m = some t → Bare t := by
        intro t ht
        refine hall 1 t ?_
        change (move e m).bind (fun u => run move u (rest.take 0)) = some t
        rw [ht]
        rfl
      refine ⟨unspoiled_of_bare hfirst, fun t ht => ?_⟩
      refine (ih (spotless_move hs ht) (hfirst t ht)).mp fun k e' hrun => hall (k + 1) e' ?_
      change (move e m).bind (fun u => run move u (rest.take k)) = some e'
      rw [ht]
      exact hrun
    · rintro ⟨hm, hrest⟩ k e' hrun
      cases k with
      | zero =>
        obtain rfl := Option.some.inj hrun
        exact hbare
      | succ k =>
        obtain ⟨t, ht, hrun⟩ := run_cons_some hrun
        exact (ih (spotless_move hs ht) (bare_move hs hbare hm ht)).mpr (hrest t ht) k e' hrun

/-- An Object with data that is not deleted never is. -/
theorem undeleted_move {id : ℕ} (hs : Spotless e)
    (h : bytesOf e.core.log id ≠ [] ∧ ∀ o, e.core.heap id = some o → o.deleted = false)
    (hstep : move e m = some e') :
    bytesOf e'.core.log id ≠ [] ∧ ∀ o, e'.core.heap id = some o → o.deleted = false := by
  have hmarks := marks_move hstep
  refine ⟨?_, fun o' ho' => ?_⟩
  · rcases hmarks.bytes id with hsame | ⟨data, _, _, _, _, _, _, _, _, hbytes⟩
    · rw [hsame]
      exact h.1
    · rw [hbytes]
      exact fun hnil => h.1 (List.append_eq_nil_iff.mp hnil).1
  · rcases hmarks.flags id o' ho' with ⟨o, ho, hflag | hearly, _⟩ | ⟨_, hflag⟩
    · exact hflag.trans (h.2 o ho)
    · exact absurd (hs.early id o ho hearly) h.1
    · exact hflag

theorem undeleted_run {id : ℕ} {ms : List Move} (hs : Spotless e)
    (hbytes : bytesOf e.core.log id ≠ [])
    (hflag : ∀ o, e.core.heap id = some o → o.deleted = false) (hrun : run move e ms = some e') :
    ∀ o, e'.core.heap id = some o → o.deleted = false := by
  have hboth := run_keeps
    (I := fun e => Spotless e ∧ bytesOf e.core.log id ≠ [] ∧
      ∀ o, e.core.heap id = some o → o.deleted = false)
    (fun _ _ _ h hstep => ⟨spotless_move h.1 hstep, undeleted_move h.1 h.2 hstep⟩)
    ⟨hs, hbytes, hflag⟩ hrun
  exact hboth.2.2

/-! What is in the store. -/

/-- Versions marked deleted have no data. -/
structure Bald (r : Record) : Prop where
  temp : ∀ id v, r.temp id = some v → v.stat.deleted = true → v.data = []
  held : ∀ name v, r.held name = some v → v.stat.deleted = true → v.data = []

variable {r : Record} {s : Store}

theorem bald_setTemp (h : Bald r) (id : ℕ) {v : Option Version}
    (hv : ∀ w, v = some w → w.stat.deleted = true → w.data = []) : Bald (r.setTemp id v) := by
  refine ⟨fun i w hw => ?_, h.held⟩
  by_cases hi : i = id
  · subst hi
    rw [Record.setTemp_self] at hw
    exact hv w hw
  · rw [Record.setTemp_of_ne _ _ hi] at hw
    exact h.temp i w hw

theorem bald_setHeld (h : Bald r) (name : Name) {v : Option Version}
    (hv : ∀ w, v = some w → w.stat.deleted = true → w.data = []) : Bald (r.setHeld name v) := by
  refine ⟨h.temp, fun n w hw => ?_⟩
  by_cases hn : n = name
  · subst hn
    rw [Record.setHeld_self] at hw
    exact hv w hw
  · rw [Record.setHeld_of_ne _ _ hn] at hw
    exact h.held n w hw

/-- A transaction that gives data to nothing deleted. -/
def Sparse (r : Record) : Note → Prop
  | .write id stat data => stat.deleted = true → (r.draft id stat).data ++ data = []
  | .header id stat _ => stat.state ≠ .active → stat.deleted = true → (r.draft id stat).data = []
  | _ => True

theorem bald_apply (h : Bald r) {note : Note} (hn : Sparse r note) : Bald (r.apply note) := by
  cases note with
  | write id stat data =>
    refine bald_setTemp h id fun w hw hdel => ?_
    obtain rfl := Option.some.inj hw
    exact hn hdel
  | header id stat blob =>
    simp only [Record.apply]
    split
    · refine bald_setHeld h _ fun w hw hdel => ?_
      obtain ⟨v, hv, rfl⟩ := Option.map_eq_some_iff.mp hw
      exact h.held _ v hv hdel
    · rename_i hactive
      refine bald_setTemp h id fun w hw hdel => ?_
      obtain rfl := Option.some.inj hw
      exact hn hactive hdel
  | put i j name ts =>
    have hretire : Bald (r.retire j name) := by
      unfold Record.retire
      split
      · exact h
      · rename_i v hv
        refine bald_setHeld (bald_setTemp h j fun w hw hdel => ?_) name fun _ hw => by contradiction
        obtain rfl := Option.some.inj hw
        exact h.held name v hv hdel
    simp only [Record.apply]
    unfold Record.place
    split
    · exact hretire
    · rename_i v hv
      refine bald_setHeld (bald_setTemp hretire i fun _ hw => by contradiction) name
        fun w hw hdel => ?_
      obtain rfl := Option.some.inj hw
      exact hretire.temp i v hv hdel
  | remove id => exact bald_setTemp h id fun _ hw => by contradiction

/-- What a deleted Object that can be written has so far. -/
theorem draft_empty {c : Core} (hs : Stands c r) (hb : Bald r) {id : ℕ} {o : Object}
    (ho : c.heap id = some o) (hw : Writing o) (hdel : o.deleted = true) (stat : Stat) :
    (r.draft id stat).data = [] := by
  have hd := hs.drafts id o ho
  unfold Record.draft
  rcases hw with hpre | hin
  · rw [(hd.unwritten hpre).1]
    rfl
  · obtain ⟨v, hv, hstat, -⟩ := hd.draft hin
    rw [hv]
    exact hb.temp id v hv (hstat ▸ hdel)

/-- The one transaction a call adds to the log is sparse, if the call is unspoiled. -/
theorem call_sparse {call : Call} (hs : Stands e.core r) (hb : Bald r)
    (hm : Unspoiled e (.call call)) (hstep : e.step call = some e') :
    e'.core.log = e.core.log ∨ ∃ t, e'.core.log = e.core.log ++ [t] ∧ Sparse r t.note := by
  have hmeta : ∀ {id : ℕ} {o o₁ o' : Object} {data : Bytes} {ops : List Op},
      e.core.heap id = some o → (o₁ = o ∨ o.state = .preWrite ∧ o₁ = { o with deleted := true }) →
      o₁.writeMetadata data = .ok (o', ops) → Sparse r (.header id o'.toStat data) := by
    intro id o o₁ o' data ops ho hsame hmeta hnot hdel
    obtain ⟨hstate, rfl, -⟩ := writeMetadata_ok hmeta
    rcases hsame with rfl | ⟨hpre, -⟩
    · have hw : Writing o₁ := by
        rcases hstate with h | h | h
        · exact Or.inl h
        · exact Or.inr h
        · simp [h] at hnot
      refine draft_empty hs hb ho hw ?_ _
      split at hdel <;> exact hdel
    · have hd := (hs.drafts id o ho).unwritten hpre
      unfold Record.draft
      rw [hd.1]
      rfl
  cases call with
  | write id data =>
    rcases attempt_cases hstep with rfl | ⟨c, hc, rfl⟩
    · exact Or.inl rfl
    rcases write_cases hc with rfl | ⟨o, o', ops, ho, hw, rfl⟩
    · exact Or.inl rfl
    · refine Or.inr ⟨_, rfl, fun hdel => ?_⟩
      obtain ⟨hstate, rfl, -⟩ := write_ok hw
      rw [hm id data o rfl ho hstate hdel, draft_empty hs hb ho hstate hdel]
      rfl
  | writeMetadata id data =>
    rcases attempt_cases hstep with rfl | ⟨c, hc, rfl⟩
    · exact Or.inl rfl
    rcases writeMetadata_cases hc with rfl | ⟨o, o', ops, ho, hw, rfl⟩
    · exact Or.inl rfl
    · exact Or.inr ⟨_, rfl, hmeta ho (Or.inl rfl) hw⟩
  | tombstone id data =>
    rcases attempt_cases hstep with rfl | ⟨c, hc, rfl⟩
    · exact Or.inl rfl
    rcases tombstone_cases hc with rfl | ⟨o, o', ops, ho, hpre, hw, rfl⟩
    · exact Or.inl rfl
    · exact Or.inr ⟨_, rfl, hmeta ho (Or.inr ⟨hpre, rfl⟩) hw⟩
  | put next prev ts =>
    rcases attempt_cases hstep with rfl | ⟨c, hc, rfl⟩
    · exact Or.inl rfl
    rcases put_cases hc with rfl | ⟨n, p, n', p', ops, -, -, -, rfl⟩
    · exact Or.inl rfl
    · exact Or.inr ⟨_, rfl, trivial⟩
  | submit =>
    unfold Engine.step at hstep
    dsimp only at hstep
    split at hstep
    · contradiction
    · obtain rfl := Option.some.inj hstep
      exact Or.inl rfl
  | release id =>
    obtain rfl := Option.some.inj hstep
    cases ho : e.core.heap id with
    | none => exact Or.inl (by simp only [Core.release, ho])
    | some o =>
      cases hrel : o.release with
      | none => exact Or.inl (by simp only [Core.release, ho, hrel])
      | some ops =>
        exact Or.inr ⟨⟨o.name, ops, .remove id⟩, by simp only [Core.release, ho, hrel], trivial⟩
  | create name ts us =>
    obtain rfl := Option.some.inj hstep
    exact Or.inl rfl
  | find name =>
    obtain rfl := Option.some.inj hstep
    exact Or.inl rfl
  | «open» id =>
    obtain rfl := Option.some.inj hstep
    dsimp only [Core.open]
    split <;> exact Or.inl rfl

/-- Wherever the log is cut, what is deleted has no data. -/
def Sheared (r : Record) (e : Engine) : Prop := ∀ k, Bald (r.after (e.core.log.take k))

theorem sheared_move (h : Grounded r s e) (hsheared : Sheared r e) (hm : Unspoiled e m)
    (hstep : move e m = some e') : Sheared r e' := by
  have hnow : Bald (Engine.record r e) := by
    have hall := hsheared e.core.log.length
    rwa [List.take_length] at hall
  have hlog : e'.core.log = e.core.log ∨
      ∃ t, e'.core.log = e.core.log ++ [t] ∧ Sparse (Engine.record r e) t.note := by
    cases m with
    | call call => exact call_sparse h.sound.stands hnow hm hstep
    | hand =>
      left
      rcases hand_cases hstep with rfl | ⟨t, store, -, -, rfl⟩ <;> rfl
  intro k
  rcases hlog with hsame | ⟨t, hlog, ht⟩
  · rw [hsame]
    exact hsheared k
  · rw [hlog]
    by_cases hk : k ≤ e.core.log.length
    · rw [List.take_append_of_le_length hk]
      exact hsheared k
    · rw [List.take_of_length_le (by simp; omega), Record.after_concat]
      exact bald_apply hnow ht

/-- A record of versions without data in what is deleted renders such a store. -/
theorem barren_of_bald (hr : Renders r s) (hb : Bald r) : Barren s := by
  intro a x k hx hk hdel
  obtain ⟨space, name, generation⟩ := a
  have hentry : ∀ v : Version, v.entry = x → v.stat.deleted = true := by
    rintro v rfl
    rw [← Option.some.inj hk] at hdel
    exact hdel
  cases space with
  | temporary =>
    obtain ⟨id, v, hv, rfl, rfl⟩ := hr.owned name generation (by
      change (s ⟨.temporary, name, generation⟩).isSome = true
      rw [hx]
      rfl)
    have hsame : v.entry = x := Option.some.inj ((hr.version id v hv).symm.trans hx)
    subst hsame
    exact hb.temp id v hv (hentry v rfl)
  | ordinary =>
    by_cases hg : generation = 0
    · subst hg
      have hholder := hr.holder name
      change s ⟨.ordinary, name, 0⟩ = _ at hholder
      rw [hx] at hholder
      obtain ⟨v, hv, rfl⟩ := Option.map_eq_some_iff.mp hholder.symm
      exact hb.held name v hv (hentry v rfl)
    · rw [hr.base name generation hg] at hx
      contradiction

theorem bald_of_barren (h : Swept r s) (hs : Barren s) : Bald r := by
  refine ⟨fun id v hv => ?_, fun name v hv hdel => ?_⟩
  · rw [h.none id] at hv
    contradiction
  · have hholder := h.renders.holder name
    rw [hv] at hholder
    exact hs (ordinary name) v.entry _ hholder rfl hdel

/-- What a search finds is the entry at the name's address. -/
theorem open_found {name : Name} {o : Object}
    (h : (Backend.find 0 name).open s = (o, .ok ())) (hactive : o.state = .active) :
    ∃ x k, s (ordinary name) = some x ∧ x.attrs = some k ∧ o.name = name ∧ o.ts = k.ts ∧
      o.deleted = k.deleted := by
  have hreq : (Backend.find 0 name).require "open" [.preSearch] = .ok () :=
    require_of_mem (by simp [Backend.find])
  have haddr : address { Backend.find 0 name with state := .inSearch }.toStat = ordinary name := rfl
  cases hx : s (ordinary name) with
  | none =>
    simp only [Object.open, hreq, haddr, load, hx, Prod.mk.injEq, and_true] at h
    rw [← h] at hactive
    contradiction
  | some x =>
    cases hk : x.attrs with
    | none => simp [Object.open, hreq, haddr, load, hx, hk] at h
    | some k =>
      simp only [Object.open, hreq, haddr, load, hx, hk, Prod.mk.injEq, and_true] at h
      exact ⟨x, k, rfl, hk, by rw [← h]; rfl, by rw [← h], by rw [← h]⟩

theorem reads_empty (hs : Barren s) : ReadsEmpty s := by
  intro name o hopen hactive hdel offset size
  obtain ⟨x, k, hx, hk, hname, hts, hflag⟩ := open_found hopen hactive
  have haddr : address o.toStat = ordinary name := by rw [address_active hactive, hname]
  have hreq : o.require "read" [.active, .old] = .ok () := require_of_mem (by simp [hactive])
  have hcheck : check "read" s (ordinary name) o.toStat true = .ok () := by
    simp only [check, load, hx, hk, hts, if_true]
    simp
  have hdata : x.data = [] := hs _ x k hx hk (hflag.symm.trans hdel)
  have hread : storeRead [] offset size = [] := by simp [storeRead, extent]
  unfold objectRead
  rw [hreq, haddr, hx]
  change (if size = 0 then _ else _) = _
  split
  · rfl
  · simp only [Option.isSome_some, hcheck, Option.map_some, Option.getD_some, hdata, hread]
    rfl

/-- No transaction of a deleted Object writes data, in every state of a run, if
and only if the run gives none to an Object after its tombstone. An Object with
data never becomes deleted. And where none follows a tombstone, whoever finds a
name deleted reads nothing. -/
theorem tombstones_empty (s : Store) (last : UInt64) (ms : List Move) :
    ((∀ k e, run move (Engine.start s last) (ms.take k) = some e → Bare e) ↔
      Along move Unspoiled (Engine.start s last) ms) ∧
    (∀ k e e' id, run move (Engine.start s last) (ms.take k) = some e →
      bytesOf e.core.log id ≠ [] → (∀ o, e.core.heap id = some o → o.deleted = false) →
      run move e (ms.drop k) = some e' → ∀ o, e'.core.heap id = some o → o.deleted = false) ∧
    ∀ r, Swept r s → Barren s → Along move (Allowed r) (Engine.start s last) ms →
      Along move Unspoiled (Engine.start s last) ms →
      ∀ k e, run move (Engine.start s last) (ms.take k) = some e →
        Barren e.store ∧ ReadsEmpty e.store := by
  have hspotless := spotless_start s last
  refine ⟨bare_iff hspotless (fun _ _ _ _ => rfl) ms, fun k e e' id hrun hbytes hflag hrest => ?_,
    fun r hswept hbarren hallowed hunspoiled k e hrun => ?_⟩
  · have hs : Spotless e := run_keeps (fun _ _ _ => spotless_move) hspotless hrun
    exact undeleted_run hs hbytes hflag hrest
  · have hsheared : Sheared r (Engine.start s last) := by
      intro k
      have hnil : (Engine.start s last).core.log.take k = [] := List.take_nil
      rw [hnil]
      exact bald_of_barren hswept hbarren
    have hboth : Grounded r s e ∧ Sheared r e :=
      along_keeps (I := fun e => Grounded r s e ∧ Sheared r e)
        (fun _ _ _ h hm hstep => ⟨grounded_move h.1 hm.1 hstep, sheared_move h.1 h.2 hm.2 hstep⟩)
        ⟨grounded_start hswept last, hsheared⟩ ((along_and hallowed hunspoiled).take k) hrun
    have hstore := barren_of_bald (Grounded.rendered hboth.1) (hboth.2 e.handed)
    exact ⟨hstore, reads_empty hstore⟩

/-- `Unspoiled`, as a check. -/
def unspoiled (e : Engine) : Move → Bool
  | .call (.write id data) => (e.core.heap id).all fun o =>
      !((o.state = .preWrite || o.state = .inWrite) && o.deleted) || data = []
  | _ => true

theorem unspoiled_of_check (h : unspoiled e m = true) : Unspoiled e m := by
  rintro id data o rfl ho hw hdel
  simp only [unspoiled, ho, Option.all_some, hdel, Bool.and_true, Bool.or_eq_true,
    Bool.not_eq_true', Bool.or_eq_false_iff, decide_eq_false_iff_not, decide_eq_true_eq] at h
  rcases h with ⟨hpre, hin⟩ | hnil
  · rcases hw with h | h
    · exact absurd h hpre
    · exact absurd h hin
  · exact hnil

/-- A name put and then deleted. -/
def deleted : List Move :=
  [.call (.create "a/c/o" (some 5) 0), .call (.write 0 [1, 2]), .call .submit,
    .call (.find "a/c/o"), .call (.open 1), .call (.put 0 1 none), .call .submit,
    .call (.create "a/c/o" (some 9) 0), .call (.tombstone 2 [7]), .call (.write 2 []),
    .call (.put 2 0 none), .hand, .hand, .hand]

theorem tombstones_empty_deleted : ∃ e,
    run move (Engine.start (fun _ => none) 0) deleted = some e ∧ Barren e.store ∧ ReadsEmpty e.store := by
  have hrun := Option.some_get
    (by decide +kernel : (run move (Engine.start (fun _ => none) 0) deleted).isSome = true)
  refine ⟨_, hrun.symm, ?_⟩
  exact (tombstones_empty (fun _ => none) 0 deleted).2.2 Record.empty swept_empty
    (fun _ _ _ h => by contradiction) (along_allowed (fun _ _ => rfl) (by decide +kernel))
    (Along.imp (I := fun _ => True) (fun _ _ _ _ _ => trivial) (fun _ _ _ => unspoiled_of_check)
      trivial (by decide +kernel)) 14 _ hrun.symm

/-- A tombstone that is written to before it is put. -/
def spoiled : List Move :=
  [.call (.create "a/c/o" (some 5) 0), .call (.tombstone 0 [7]), .call (.write 0 [1]),
    .call .submit, .call (.find "a/c/o"), .call (.open 1), .call (.put 0 1 none), .call .submit]

def afterSpoiled : Engine :=
  (run move (Engine.start (fun _ => none) 0) spoiled).get (by decide +kernel)

def foundDeleted : Object := ((Backend.find 0 "a/c/o").open afterSpoiled.store).1

/-- The name is held as deleted, and reads as the data. -/
theorem tombstone_written :
    Along move (Allowed Record.empty) (Engine.start (fun _ => none) 0) spoiled ∧
      run move (Engine.start (fun _ => none) 0) spoiled = some afterSpoiled ∧
      ¬ Bare afterSpoiled ∧
      (Backend.find 0 "a/c/o").open afterSpoiled.store = (foundDeleted, .ok ()) ∧
      foundDeleted.state = .active ∧ foundDeleted.deleted = true ∧
      objectRead afterSpoiled.store afterSpoiled.store foundDeleted 0 1 = .ok [1] := by
  refine ⟨along_allowed (fun _ _ => rfl) (by decide +kernel), (Option.some_get _).symm, ?_,
    by decide +kernel, by decide +kernel, by decide +kernel, by decide +kernel⟩
  intro hbare
  have hdata : bytesOf afterSpoiled.core.log 0 = [1] := by decide +kernel
  have hnone := hbare 0 ((afterSpoiled.core.heap 0).get (by decide +kernel))
    (Option.some_get _).symm (by decide +kernel)
  rw [hdata] at hnone
  contradiction

end Swiftacular.Tombstones
