import Swiftacular.LiveObjects

/-!
What the prepared transactions make of the store: every prefix of the log that
the store takes renders the record of that prefix, at every point of a run that
gives each put the holder and keeps temporary addresses apart.
-/
namespace Swiftacular.PreparedLog

open Function EntryStore EngineObjects Versions EngineRuns StepRuns LiveObjects

/-- Whatever of the log the store takes, it then renders the record of that much. -/
def Journaled (r : Record) (s : Store) (log : List Txn) : Prop :=
  ∀ k t, applyAll s (opsOf (log.take k)) = some t → Renders (r.after (log.take k)) t

theorem journaled_concat {r : Record} {s : Store} {log : List Txn} (h : Journaled r s log) {t : Txn}
    (ht : ∀ u v, Renders (r.after log) u → applyAll u t.ops = some v →
      Renders ((r.after log).apply t.note) v) : Journaled r s (log ++ [t]) := by
  intro k v hv
  by_cases hk : k ≤ log.length
  · rw [List.take_append_of_le_length hk] at hv ⊢
    exact h k v hv
  · have hall : (log ++ [t]).take k = log ++ [t] := List.take_of_length_le (by simp; omega)
    rw [hall, opsOf_concat] at hv
    obtain ⟨u, hu, huv⟩ := applyAll_append_some hv
    have hlog := h log.length u (by rwa [List.take_length])
    rw [List.take_length] at hlog
    rw [hall, Record.after_concat]
    exact ht u v hlog huv

/-- A transaction stays with the name it is for. -/
def Named (t : Txn) : Prop :=
  (∀ op ∈ t.ops, ∀ a ∈ op.addresses, a.name = t.name) ∧
    match t.note with
    | .header _ stat _ => stat.name = t.name
    | .put _ _ name _ => name = t.name
    | _ => True

/-- What is prepared for other names leaves the holder of a name alone. -/
theorem held_after {r : Record} {log : List Txn} {name : Name}
    (hnamed : ∀ t ∈ log, Named t) (hne : ∀ t ∈ log, t.name ≠ name) :
    (r.after log).held name = r.held name := by
  induction log generalizing r with
  | nil => rfl
  | cons t rest ih =>
    have htail := ih (r := r.apply t.note) (fun u hu => hnamed u (List.mem_cons_of_mem _ hu))
      (fun u hu => hne u (List.mem_cons_of_mem _ hu))
    refine htail.trans ?_
    have hn := (hnamed t (List.mem_cons_self ..)).2
    have hother := (hne t (List.mem_cons_self ..)).symm
    cases hnote : t.note with
    | write id stat data => rfl
    | remove id => rfl
    | header id stat blob =>
      rw [hnote] at hn
      dsimp only at hn
      simp only [Record.apply]
      split
      · exact Record.setHeld_of_ne _ _ (hn ▸ hother)
      · rfl
    | put i j m ts =>
      rw [hnote] at hn
      dsimp only at hn
      subst hn
      have hretire : (r.retire j t.name).held name = r.held name := by
        unfold Record.retire
        split
        · rfl
        · exact Record.setHeld_of_ne _ _ hother
      have hplace : ((r.retire j t.name).place i t.name ts).held name =
          (r.retire j t.name).held name := by
        unfold Record.place
        split
        · rfl
        · exact Record.setHeld_of_ne _ _ hother
      exact hplace.trans hretire

theorem address_name (stat : Stat) : (address stat).name = stat.name := by
  unfold address
  split <;> rfl

theorem named_write {id : ℕ} {o o' : Object} {data : Bytes} {ops : List Op}
    (h : o.write data = .ok (o', ops)) :
    Named ⟨o.name, ops, .write id o'.toStat data⟩ := by
  obtain ⟨-, -, rfl⟩ := write_ok h
  refine ⟨fun op hop a ha => ?_, trivial⟩
  have hname := address_name o.toStat
  have hname' := address_name { o.toStat with state := .inWrite }
  split at hop
  · simp only [List.cons_append, List.nil_append, List.mem_cons, List.not_mem_nil, or_false] at hop
    rcases hop with rfl | rfl | rfl
    · simp only [EntryStore.Op.addresses, List.mem_singleton] at ha
      rw [ha, hname]
    · simp only [save, EntryStore.Op.addresses, List.mem_singleton] at ha
      rw [ha, hname']
    · simp only [EntryStore.Op.addresses, List.mem_singleton] at ha
      rw [ha, hname]
  · simp only [List.nil_append, List.mem_singleton] at hop
    subst hop
    simp only [EntryStore.Op.addresses, List.mem_singleton] at ha
    rw [ha, hname]

theorem named_writeMetadata {id : ℕ} {o o' : Object} {data : Bytes} {ops : List Op}
    (h : o.writeMetadata data = .ok (o', ops)) :
    Named ⟨o.name, ops, .header id o'.toStat data⟩ := by
  obtain ⟨-, ho, rfl⟩ := writeMetadata_ok h
  have hsame : o'.name = o.name := by
    rw [ho]
    split <;> rfl
  refine ⟨fun op hop a ha => ?_, hsame⟩
  have hname := address_name o.toStat
  have hname' := address_name o'.toStat
  have hops : op ∈ [EntryStore.Op.touch (address o.toStat), .setheader (address o.toStat) data,
      save o'.toStat] := by
    dsimp only at hop
    split at hop
    · exact hop
    · exact List.mem_cons_of_mem _ hop
  simp only [List.mem_cons, List.not_mem_nil, or_false] at hops
  rcases hops with rfl | rfl | rfl
  · simp only [EntryStore.Op.addresses, List.mem_singleton] at ha
    rw [ha, hname]
  · simp only [EntryStore.Op.addresses, List.mem_singleton] at ha
    rw [ha, hname]
  · simp only [save, EntryStore.Op.addresses, List.mem_singleton] at ha
    rw [ha, hname', hsame]

theorem named_put {p i j : ℕ} {next prev next' prev' : Object} {ts : Option ℕ} {ops : List Op}
    (h : Backend.put p next prev ts = .ok (next', prev', ops)) :
    Named ⟨next.name, ops, .put i j next.name (ts.getD next.ts)⟩ := by
  obtain ⟨-, -, hname, -, -, -, rfl⟩ := put_ok h
  have h1 := address_name prev.toStat
  have h2 := address_name (Backend.retire prev).toStat
  have h3 := address_name next.toStat
  have h4 := address_name (Backend.settle next (ts.getD next.ts)).toStat
  have h5 : (Backend.retire prev).name = prev.name := by
    unfold Backend.retire
    split <;> rfl
  have h6 : (Backend.settle next (ts.getD next.ts)).name = next.name := rfl
  refine ⟨fun op hop a ha => ?_, rfl⟩
  have hops : op ∈ [EntryStore.Op.rename (address prev.toStat) (address (Backend.retire prev).toStat),
      save (Backend.retire prev).toStat,
      .rename (address next.toStat) (address (Backend.settle next (ts.getD next.ts)).toStat),
      save (Backend.settle next (ts.getD next.ts)).toStat] := by
    unfold Backend.handOverOps at hop
    split at hop
    · exact hop
    · exact List.mem_cons_of_mem _ (List.mem_cons_of_mem _ hop)
  simp only [List.mem_cons, List.not_mem_nil, or_false] at hops
  rcases hops with rfl | rfl | rfl | rfl
  · simp only [EntryStore.Op.addresses, List.mem_cons, List.not_mem_nil, or_false] at ha
    rcases ha with rfl | rfl
    · rw [h1, hname]
    · rw [h2, h5, hname]
  · simp only [save, EntryStore.Op.addresses, List.mem_singleton] at ha
    rw [ha, h2, h5, hname]
  · simp only [EntryStore.Op.addresses, List.mem_cons, List.not_mem_nil, or_false] at ha
    rcases ha with rfl | rfl
    · rw [h3]
    · rw [h4, h6]
  · simp only [save, EntryStore.Op.addresses, List.mem_singleton] at ha
    rw [ha, h4, h6]

theorem named_release {id : ℕ} {o : Object} {ops : List Op} (h : o.release = some ops) :
    Named ⟨o.name, ops, .remove id⟩ := by
  unfold Object.release at h
  split at h
  · obtain rfl := Option.some.inj h
    refine ⟨fun op hop a ha => ?_, trivial⟩
    rw [List.mem_singleton.mp hop] at ha
    simp only [EntryStore.Op.addresses, List.mem_singleton] at ha
    rw [ha, address_name]
  · contradiction

/-! One call, and a run of calls. -/

/-- What holds a name has it, and is ACTIVE. -/
def Holders (r : Record) : Prop :=
  ∀ n v, r.held n = some v → v.stat.name = n ∧ v.stat.state = .active

/-- A store swept clean: the record has holders only, and the store renders it. -/
structure Swept (r : Record) (s : Store) : Prop where
  renders : Renders r s
  none : ∀ id, r.temp id = none
  held : Holders r

theorem swept_empty : Swept Record.empty fun _ => none :=
  ⟨renders_empty, fun _ => rfl, fun _ _ h => by contradiction⟩

/-- The record of everything prepared so far. -/
def Engine.record (r : Record) (e : Engine) : Record := r.after e.core.log

/-- How the Device calls the engine: a search looks when nothing of its name
is queued and no live Object stands for its holder already, and a put that
succeeds is given what holds the name. -/
def Disciplined (r : Record) (e : Engine) : Call → Prop
  | .open id => ∀ o, e.core.heap id = some o → o.state = .preSearch →
      (∀ t ∈ e.queue, t.name ≠ o.name) ∧
      ∀ j p, e.core.heap j = some p → p.state = .active → p.name ≠ o.name
  | .put next prev ts => ∀ n p result, e.core.heap next = some n → e.core.heap prev = some p →
      Backend.put 0 n p ts = .ok result → Holds (Engine.record r e) p
  | _ => True

structure Sound (r : Record) (s : Store) (e : Engine) : Prop where
  stands : Stands e.core (Engine.record r e)
  journal : Journaled r s e.core.log
  named : ∀ t ∈ e.core.log, Named t
  holders : ∀ k, Holders (r.after (e.core.log.take k))
  handed_le : e.handed ≤ e.core.log.length
  stored : applyAll s (opsOf (e.core.log.take e.handed)) = some e.store

theorem sound_start {r : Record} {s : Store} (h : Swept r s) (last : UInt64) :
    Sound r s (Engine.start s last) := by
  refine ⟨stands_start r h.held h.none last s, fun k t ht => ?_, ?_, fun k => ?_, le_refl _, rfl⟩
  · have hnil : (Engine.start s last).core.log.take k = [] := List.take_nil
    rw [hnil] at ht ⊢
    obtain rfl := Option.some.inj ht
    exact h.renders
  · intro t ht
    contradiction
  · have hnil : (Engine.start s last).core.log.take k = [] := List.take_nil
    rw [hnil]
    exact h.held

/-- The store once everything queued is handed over. -/
def Engine.drained (e : Engine) : Option Store := applyAll e.store (opsOf e.queue)

/-- What is queued is the rest of the log. -/
theorem Sound.drained {r : Record} {s : Store} {e : Engine} (h : Sound r s e) :
    Engine.drained e = applyAll s (opsOf e.core.log) := by
  have hsplit : opsOf e.core.log = opsOf (e.core.log.take e.handed) ++ opsOf e.queue := by
    rw [← opsOf_append]
    exact congrArg opsOf (List.take_append_drop e.handed e.core.log).symm
  rw [hsplit, applyAll_append, h.stored, Option.bind_some]
  rfl

theorem Sound.renders {r : Record} {s t : Store} {e : Engine} (h : Sound r s e)
    (ht : Engine.drained e = some t) : Renders (Engine.record r e) t := by
  have hall := h.journal e.core.log.length t (by rw [List.take_length, ← h.drained, ht])
  rwa [List.take_length] at hall

/-- A call after which the store still takes what is queued, if it did before. -/
def Carries (e e' : Engine) : Prop := (Engine.drained e).isSome → (Engine.drained e').isSome

/-- A transaction more in the log, with nothing more handed over. -/
theorem sound_prepared {r : Record} {s : Store} {e : Engine} (h : Sound r s e) {c : Core} {t : Txn}
    (hlog : c.log = e.core.log ++ [t]) (hstands : Stands c ((Engine.record r e).apply t.note))
    (hnamed : Named t)
    (hrenders : ∀ u v, Renders (Engine.record r e) u → applyAll u t.ops = some v →
      Renders ((Engine.record r e).apply t.note) v) : Sound r s { e with core := c } := by
  have hrecord : Engine.record r { e with core := c } = (Engine.record r e).apply t.note := by
    change r.after c.log = _
    rw [hlog, Record.after_concat]
    rfl
  refine ⟨hrecord ▸ hstands, ?_, ?_, ?_, ?_, ?_⟩
  · change Journaled r s c.log
    rw [hlog]
    exact journaled_concat h.journal hrenders
  · change ∀ u ∈ c.log, Named u
    intro u hu
    rw [hlog, List.mem_append, List.mem_singleton] at hu
    rcases hu with hu | rfl
    · exact h.named u hu
    · exact hnamed
  · change ∀ k, Holders (r.after (c.log.take k))
    intro k
    rw [hlog]
    by_cases hk : k ≤ e.core.log.length
    · rw [List.take_append_of_le_length hk]
      exact h.holders k
    · rw [List.take_of_length_le (by simp; omega), Record.after_concat]
      exact hstands.held
  · change e.handed ≤ c.log.length
    rw [hlog, List.length_append]
    exact h.handed_le.trans (Nat.le_add_right ..)
  · change applyAll s (opsOf (c.log.take e.handed)) = some e.store
    rw [hlog, List.take_append_of_le_length h.handed_le]
    exact h.stored

/-- Nothing prepared, and the Objects still stand for the same. -/
theorem sound_unprepared {r : Record} {s : Store} {e : Engine} (h : Sound r s e) {c : Core}
    (hlog : c.log = e.core.log) (hstands : Stands c (Engine.record r e)) :
    Sound r s { e with core := c } := by
  refine ⟨?_, ?_, ?_, ?_, ?_, ?_⟩
  · change Stands c (r.after c.log)
    rw [hlog]
    exact hstands
  · change Journaled r s c.log
    rw [hlog]
    exact h.journal
  · change ∀ u ∈ c.log, Named u
    rw [hlog]
    exact h.named
  · change ∀ k, Holders (r.after (c.log.take k))
    rw [hlog]
    exact h.holders
  · change e.handed ≤ c.log.length
    rw [hlog]
    exact h.handed_le
  · change applyAll s (opsOf (c.log.take e.handed)) = some e.store
    rw [hlog]
    exact h.stored

/-- A transaction that renders its note on every store that renders the record. -/
def Lands (r : Record) (t : Txn) : Prop :=
  ∀ u, Renders r u → ∃ v, applyAll u t.ops = some v ∧ Renders (r.apply t.note) v

theorem sound_lands {r : Record} {s : Store} {e : Engine} (h : Sound r s e) {c : Core} {t : Txn}
    (hlog : c.log = e.core.log ++ [t]) (hstands : Stands c ((Engine.record r e).apply t.note))
    (hnamed : Named t)
    (hlands : Lands (Engine.record r e) t) :
    Sound r s { e with core := c } ∧ Carries e { e with core := c } := by
  have hsound : Sound r s { e with core := c } := by
    refine sound_prepared h hlog hstands hnamed fun u v hu hv => ?_
    obtain ⟨w, hw, hr⟩ := hlands u hu
    obtain rfl := Option.some.inj (hw.symm.trans hv)
    exact hr
  refine ⟨hsound, fun hopen => ?_⟩
  obtain ⟨u, hu⟩ := Option.isSome_iff_exists.mp hopen
  obtain ⟨v, hv, -⟩ := hlands u (h.renders hu)
  have hlast : Engine.drained { e with core := c } = some v := by
    rw [hsound.drained]
    change applyAll s (opsOf c.log) = some v
    rw [hlog, opsOf_concat, applyAll_append, ← h.drained, hu, Option.bind_some, hv]
  rw [hlast]
  rfl

theorem carries_unprepared {e : Engine} {c : Core} (hlog : c.log = e.core.log) :
    Carries e { e with core := c } := by
  intro hopen
  have hsame : Engine.drained { e with core := c } = Engine.drained e := by
    change applyAll e.store (opsOf (c.log.drop e.handed)) = _
    rw [hlog]
    rfl
  rw [hsame]
  exact hopen

/-- A search finds what the record says holds the name. -/
theorem found_held {r : Record} {s : Store} {e : Engine} (h : Sound r s e) {name : Name}
    (hqueue : ∀ t ∈ e.queue, t.name ≠ name) :
    e.store (ordinary name) = ((Engine.record r e).held name).map Version.entry := by
  have hsplit : e.core.log = e.core.log.take e.handed ++ e.queue :=
    (List.take_append_drop e.handed e.core.log).symm
  have hsame : (Engine.record r e).held name = (r.after (e.core.log.take e.handed)).held name := by
    unfold Engine.record
    rw [hsplit, Record.after_append, held_after ?_ hqueue, ← hsplit]
    intro t ht
    exact h.named t (List.mem_of_mem_drop ht)
  rw [hsame]
  exact (h.journal e.handed e.store h.stored).holder name

/-- A first metadata write of a tombstone is prepared for the same draft. -/
theorem drafts_deleted {r : Record} {id : ℕ} {o : Object} (h : Drafts r id o)
    (hpre : o.state = .preWrite) : Drafts r id { o with deleted := true } :=
  ⟨h.unwritten, by simp [hpre], by simp [hpre], by simp [hpre]⟩

/-- The next version's address when the name passes to it: its own, or the one
its holder is moved to, where the store stops. -/
theorem put_renders {c : Core} {r : Record} (hs : Stands c r) (ha : Apart c) {i j : ℕ}
    {n p n' p' : Object} {ts : Option ℕ} {ops : List Op} (hn : c.heap i = some n)
    (hp : c.heap j = some p) (h : Backend.put 0 n p ts = .ok (n', p', ops)) (hholds : Holds r p)
    (ha' : ∀ k q, k ≠ i → k ≠ j → c.heap k = some q → InTemp q → p.state = .active →
      q.name = p.name → q.ts ≠ p.ts) {u : Store} (hu : Renders r u) :
    (p.state = .active ∧ n.ts = p.ts → applyAll u ops = none) ∧
    (¬ (p.state = .active ∧ n.ts = p.ts) → ∃ v, applyAll u ops = some v ∧
      Renders (r.apply (.put i j n.name (ts.getD n.ts))) v) := by
  obtain ⟨hin, hstate, hname, -⟩ := put_ok h
  have hd := hs.drafts i n hn
  have hd' := hs.drafts j p hp
  obtain ⟨w, hw, hwstat, -⟩ := hd.draft hin
  have hnot : ¬ InTemp p := by rcases hstate with h | h <;> simp [InTemp, h]
  have hwname : w.stat.name = n.name := by rw [hwstat]
  have hwts : w.stat.ts = n.ts := by rw [hwstat]
  constructor
  · rintro ⟨hactive, hts⟩
    refine put_collides hu h hd' hactive ?_
    have hentry := hu.version i w hw
    rw [hwname, hwts, hname, hts] at hentry
    rw [hentry]
    rfl
  · intro hapart
    refine renders_put hu h hd hd' (fun hmiss => ?_) (hs.not_temp hp hnot)
      (hs.vacant ha hn (Or.inl hin) fun k q _ hq _ => hq) fun hactive => ?_
    · unfold Holds at hholds
      rw [hname]
      cases hheld : r.held p.name with
      | none => rfl
      | some v =>
        rw [hheld] at hholds
        rw [hmiss] at hholds
        simp at hholds
    · intro k v hv hvn hvt
      obtain ⟨q, hq, hqstat, hqtemp⟩ := hs.live k v hv
      have hqname : q.name = p.name := (congrArg Stat.name hqstat).trans hvn
      have hqts : q.ts = p.ts := (congrArg Stat.ts hqstat).trans hvt
      by_contra hkj
      by_cases hki : k = i
      · subst hki
        obtain rfl := Option.some.inj (hn.symm.trans hq)
        exact hapart ⟨hactive, hqts⟩
      · exact ha' k q hki hkj hq hqtemp hactive hqname hqts

theorem sound_submit {r : Record} {s store : Store} {e : Engine} (h : Sound r s e)
    (hstore : Engine.drained e = some store) :
    Sound r s { e with handed := e.core.log.length, store } ∧
      Carries e { e with handed := e.core.log.length, store } := by
  refine ⟨⟨h.stands, h.journal, h.named, h.holders, le_refl _, ?_⟩, fun _ => ?_⟩
  · rw [List.take_length, ← h.drained, hstore]
  · have hnil : Engine.queue { e with handed := e.core.log.length, store } = [] := List.drop_length
    unfold Engine.drained
    rw [hnil]
    rfl

/-- The address a call writes at is no other version's. -/
theorem vacant_prepared {c : Core} {r : Record} (hs : Stands c r) {id : ℕ} {o o' : Object} {t : Txn}
    (ha : Apart (c.prepared id o' t)) (htemp : InTemp o') (hname : o'.name = o.name)
    (hts : o'.ts = o.ts) : r.Vacant id o.name o.ts := by
  have hvacant := hs.vacant ha (update_self id _ _) htemp
    fun i p hi hp _ => (update_of_ne hi _ _).trans hp
  dsimp only at hvacant
  rwa [hname, hts] at hvacant

theorem sound_write {r : Record} {s : Store} {e : Engine} (h : Sound r s e) {id : ℕ} {data : Bytes}
    {c : Core} (hc : e.core.write id data = .ok c) (ha : Apart c) :
    Sound r s { e with core := c } ∧ Carries e { e with core := c } := by
  rcases write_cases hc with rfl | ⟨o, o', ops, ho, hw, rfl⟩
  · exact ⟨h, fun hopen => hopen⟩
  · have hd := h.stands.drafts id o ho
    obtain ⟨-, rfl, -⟩ := write_ok hw
    have hvacant := vacant_prepared (o := o) h.stands ha (Or.inl rfl) rfl rfl
    exact sound_lands h rfl (stands_write h.stands ho hw rfl) (named_write hw)
      fun _ hu => renders_write hu hw hd hvacant

/-- A metadata write, also that of a tombstone. -/
theorem sound_metadata {r : Record} {s : Store} {e : Engine} (h : Sound r s e) {id : ℕ}
    {o o₁ o' : Object} {data : Bytes} {ops : List Op} (ho : e.core.heap id = some o)
    (hsame : o₁ = o ∨ o.state = .preWrite ∧ o₁ = { o with deleted := true })
    (hm : o₁.writeMetadata data = .ok (o', ops))
    (ha : Apart (e.core.prepared id o' ⟨o.name, ops, .header id o'.toStat data⟩)) :
    Sound r s
        { e with core := e.core.prepared id o' ⟨o.name, ops, .header id o'.toStat data⟩ } ∧
      Carries e
        { e with core := e.core.prepared id o' ⟨o.name, ops, .header id o'.toStat data⟩ } := by
  have hold := h.stands.drafts id o ho
  have hd : Drafts (Engine.record r e) id o₁ := by
    rcases hsame with rfl | ⟨hpre, rfl⟩
    · exact hold
    · exact drafts_deleted hold hpre
  have hname : o₁.name = o.name := by rcases hsame with rfl | ⟨-, rfl⟩ <;> rfl
  have hvacant : o₁.state ≠ .active → (Engine.record r e).Vacant id o₁.name o₁.ts := by
    intro hnot
    obtain ⟨hstate, rfl, -⟩ := writeMetadata_ok hm
    refine vacant_prepared h.stands ha ?_ ?_ ?_
    · rcases hstate with hpre | hin | hactive
      · exact Or.inl (by rw [if_pos hpre])
      · exact Or.inl (by split <;> simp [hin])
      · exact absurd hactive hnot
    · split <;> rfl
    · split <;> rfl
  have hnamed := @named_writeMetadata id _ _ _ _ hm
  rw [hname] at hnamed
  exact sound_lands h rfl (stands_writeMetadata h.stands ho hsame hm rfl) hnamed
    fun _ hu => renders_writeMetadata hu hm hd hvacant

/-- What a put leaves in the temporary space is apart from what it retires. -/
theorem apart_retired {c : Core} {i j : ℕ} {n' p : Object} {t : Txn} (hij : i ≠ j)
    (ha : Apart ({ c with heap := update c.heap j (some (Backend.retire p)) }.prepared i n' t)) :
    ∀ k q, k ≠ i → k ≠ j → c.heap k = some q → InTemp q → p.state = .active →
      q.name = p.name → q.ts ≠ p.ts := by
  intro k q hki hkj hq htemp hactive hname hts
  have hold : (Backend.retire p).state = .old := by simp only [Backend.retire, hactive, if_true]
  have hretired : (Backend.retire p).name = p.name ∧ (Backend.retire p).ts = p.ts := by
    simp only [Backend.retire, hactive, if_true, and_self]
  refine hkj (ha k j q (Backend.retire p) ?_ ?_ htemp (Or.inr hold) ?_ ?_)
  · exact ((update_of_ne hki _ _).trans (update_of_ne hkj _ _)).trans hq
  · exact (update_of_ne hij.symm _ _).trans (update_self ..)
  · exact hname.trans hretired.1.symm
  · exact hts.trans hretired.2.symm

/-- The one call the store can stop at: a put whose next version was written
at the very timestamp of the holder. -/
def Untied (e : Engine) : Call → Prop
  | .put next prev ts => ∀ n p result, e.core.heap next = some n → e.core.heap prev = some p →
      Backend.put 0 n p ts = .ok result → ¬ (p.state = .active ∧ n.ts = p.ts)
  | _ => True

theorem sound_put {r : Record} {s : Store} {e : Engine} (h : Sound r s e) (ha : Apart e.core)
    {i j : ℕ} {ts : Option ℕ} {c : Core} (hc : e.core.put i j ts = .ok c)
    (hd : Disciplined r e (.put i j ts)) (ha' : Apart c) :
    Sound r s { e with core := c } ∧
      (Untied e (.put i j ts) → Carries e { e with core := c }) := by
  rcases put_cases hc with rfl | ⟨n, p, n', p', ops, hn, hp, hput, rfl⟩
  · exact ⟨h, fun _ hopen => hopen⟩
  · have hholds := hd n p _ hn hp hput
    obtain ⟨hin, hstate, -, -, -, hp', -⟩ := put_ok hput
    have hij : i ≠ j := by
      rintro rfl
      obtain rfl := Option.some.inj (hn.symm.trans hp)
      rcases hstate with h | h <;> simp [h] at hin
    have hretired := apart_retired (p := p) hij (hp' ▸ ha')
    have hstands := stands_put h.stands hn hp hput hholds
    have hnamed := named_put (i := i) (j := j) hput
    by_cases htie : p.state = .active ∧ n.ts = p.ts
    · refine ⟨sound_prepared h rfl (hstands _) hnamed fun u v hu hv => ?_, fun huntied => ?_⟩
      · rw [(put_renders h.stands ha hn hp hput hholds hretired hu).1 htie] at hv
        contradiction
      · exact absurd htie (huntied n p _ hn hp hput)
    · obtain ⟨hsound, hcarries⟩ := sound_lands h rfl (hstands _) hnamed
        fun u hu => (put_renders h.stands ha hn hp hput hholds hretired hu).2 htie
      exact ⟨hsound, fun _ => hcarries⟩

theorem sound_release {r : Record} {s : Store} {e : Engine} (h : Sound r s e) (ha : Apart e.core)
    (id : ℕ) : Sound r s { e with core := e.core.release id } ∧
      Carries e { e with core := e.core.release id } := by
  cases ho : e.core.heap id with
  | none =>
    have hsame : e.core.release id = e.core := by simp only [Core.release, ho]
    rw [hsame]
    exact ⟨h, fun hopen => hopen⟩
  | some o =>
    have hstands := stands_release h.stands ho
    cases hrel : o.release with
    | none =>
      rw [hrel] at hstands
      have hlog : (e.core.release id).log = e.core.log := by simp only [Core.release, ho, hrel]
      exact ⟨sound_unprepared h hlog hstands, carries_unprepared hlog⟩
    | some ops =>
      rw [hrel] at hstands
      have htemp : InTemp o := by
        unfold Object.release at hrel
        split at hrel
        · assumption
        · contradiction
      have hvacant := h.stands.vacant ha ho htemp fun _ _ _ hp _ => hp
      exact sound_lands (t := ⟨o.name, ops, .remove id⟩) h
        (by simp only [Core.release, ho, hrel]) hstands (named_release hrel)
        fun _ hu => renders_release hu hrel (h.stands.drafts id o ho) hvacant

theorem sound_open {r : Record} {s : Store} {e : Engine} (h : Sound r s e) {id : ℕ}
    (hd : Disciplined r e (.open id)) :
    Sound r s { e with core := (e.core.open e.store id).1 } ∧
      Carries e { e with core := (e.core.open e.store id).1 } := by
  have hlog : (e.core.open e.store id).1.log = e.core.log := by
    unfold Core.open
    split <;> rfl
  refine ⟨sound_unprepared h hlog ?_, carries_unprepared hlog⟩
  cases ho : e.core.heap id with
  | none =>
    have hsame : (e.core.open e.store id).1 = e.core := by simp only [Core.open, ho]
    rw [hsame]
    exact h.stands
  | some o =>
    have hd := hd o ho
    refine stands_open h.stands ho (fun hpre => load_reported ?_ (h.stands.held _))
      fun hpre => (hd hpre).2
    rw [found_held h (hd hpre).1, Option.map_map]
    rfl

/-- One call, between two states with the temporary addresses apart. -/
theorem sound_step {r : Record} {s : Store} {e e' : Engine} {call : Call} (h : Sound r s e)
    (ha : Apart e.core) (hd : Disciplined r e call) (hstep : e.step call = some e')
    (ha' : Apart e'.core) : Sound r s e' ∧ (Untied e call → Carries e e') := by
  have hsame : Sound r s e ∧ (Untied e call → Carries e e) := ⟨h, fun _ hopen => hopen⟩
  have hboth : ∀ {u : Engine}, Sound r s u ∧ Carries e u →
      Sound r s u ∧ (Untied e call → Carries e u) := fun h => ⟨h.1, fun _ => h.2⟩
  cases call with
  | create name ts us =>
    obtain rfl := Option.some.inj hstep
    exact hboth ⟨sound_unprepared h rfl (stands_fresh h.stands _ (Or.inl ⟨rfl, rfl⟩)),
      carries_unprepared rfl⟩
  | find name =>
    obtain rfl := Option.some.inj hstep
    exact hboth ⟨sound_unprepared h rfl (stands_fresh h.stands _ (Or.inr rfl)),
      carries_unprepared rfl⟩
  | «open» id =>
    obtain rfl := Option.some.inj hstep
    exact hboth (sound_open h hd)
  | write id data =>
    rcases attempt_cases hstep with rfl | ⟨c, hc, rfl⟩
    · exact hsame
    · exact hboth (sound_write h hc ha')
  | writeMetadata id data =>
    rcases attempt_cases hstep with rfl | ⟨c, hc, rfl⟩
    · exact hsame
    rcases writeMetadata_cases hc with rfl | ⟨o, o', ops, ho, hm, rfl⟩
    · exact hsame
    · exact hboth (sound_metadata h ho (Or.inl rfl) hm ha')
  | tombstone id data =>
    rcases attempt_cases hstep with rfl | ⟨c, hc, rfl⟩
    · exact hsame
    rcases tombstone_cases hc with rfl | ⟨o, o', ops, ho, hpre, hm, rfl⟩
    · exact hsame
    · exact hboth (sound_metadata h ho (Or.inr ⟨hpre, rfl⟩) hm ha')
  | put next prev ts =>
    rcases attempt_cases hstep with rfl | ⟨c, hc, rfl⟩
    · exact hsame
    · exact sound_put h ha hc hd ha'
  | submit =>
    unfold Engine.step at hstep
    dsimp only at hstep
    split at hstep
    · contradiction
    · rename_i store hstore
      obtain rfl := Option.some.inj hstep
      exact hboth (sound_submit h hstore)
  | release id =>
    obtain rfl := Option.some.inj hstep
    exact hboth (sound_release h ha id)

/-- A call as the Device makes it, after which temporary addresses are still apart. -/
def Driven (r : Record) (e : Engine) (call : Call) : Prop :=
  Disciplined r e call ∧ ∀ e', e.step call = some e' → Apart e'.core

theorem apart_start (s : Store) (last : UInt64) : Apart (Engine.start s last).core :=
  fun _ _ _ _ h => by contradiction

/-- What a call asks for, over the list of the live Objects. -/
def checked (r : Record) (e : Engine) : Call → Bool
  | .open id =>
      match e.core.heap id with
      | none => true
      | some o => o.state ≠ .preSearch || e.queue.all (fun t => t.name ≠ o.name) &&
          e.core.objects.all fun x => x.2.state ≠ .active || x.2.name ≠ o.name
  | .put next prev ts =>
      match e.core.heap next, e.core.heap prev with
      | some n, some p =>
          match Backend.put 0 n p ts with
          | .ok _ =>
              match (Engine.record r e).held p.name with
              | none => p.state = .missing
              | some v => p.state = .active && p.toStat = v.stat
          | .error _ => true
      | _, _ => true
  | _ => true

theorem disciplined_of_checked {r : Record} {e : Engine} {call : Call} (hc : Numbered e.core)
    (h : checked r e call = true) : Disciplined r e call := by
  cases call with
  | «open» id =>
    intro o ho hpre
    simp only [checked, ho, hpre, ne_eq, not_true_eq_false, decide_false, Bool.false_or,
      Bool.and_eq_true, List.all_eq_true, decide_eq_true_eq, Bool.or_eq_true, Prod.forall,
      mem_objects hc] at h
    exact ⟨h.1, fun j p hp hactive => (h.2 j p hp).resolve_left fun hnot => hnot hactive⟩
  | put next prev ts =>
    intro n p result hn hp hput
    cases hheld : (Engine.record r e).held p.name with
    | none =>
      simp only [checked, hn, hp, hput, hheld] at h
      simp only [Holds, hheld]
      exact of_decide_eq_true h
    | some v =>
      simp only [checked, hn, hp, hput, hheld] at h
      obtain ⟨hstate, hstat⟩ := Bool.and_eq_true_iff.mp h
      simp only [Holds, hheld]
      exact ⟨of_decide_eq_true hstate, of_decide_eq_true hstat⟩
  | _ => trivial

def drives (r : Record) (e : Engine) (call : Call) : Bool :=
  checked r e call && (e.step call).all fun e' => e'.core.apart

theorem driven_of_drives {r : Record} {e : Engine} {calls : List Call} (hc : Numbered e.core)
    (h : Keeps (fun e call => drives r e call = true) e calls) : Keeps (Driven r) e calls := by
  refine Along.imp (I := fun e => Numbered e.core) (fun _ _ _ => numbered_step) ?_ hc h
  intro e call hc h
  obtain ⟨hchecked, hapart⟩ := Bool.and_eq_true_iff.mp h
  refine ⟨disciplined_of_checked hc hchecked, fun e' hstep => ?_⟩
  rw [hstep] at hapart
  exact (apart_iff (numbered_step hc hstep)).mp hapart

end Swiftacular.PreparedLog
