import Swiftacular.EngineObjects

/-!
What the engine keeps for its callers, without addresses: the versions being
written or retired, each for one Object, and the version that holds each
name. Every transaction changes this record in one of four ways. The store
renders the record: each version is one entry, at the address its state and
timestamp give it, and there is nothing else.
-/
namespace Swiftacular.Versions

open Function EntryStore EngineObjects

structure Version where
  stat : Stat
  data : Bytes
  header : Bytes
  deriving DecidableEq

def Version.entry (v : Version) : Entry Attrs :=
  ⟨v.data, v.header, some ⟨v.stat.ts, v.stat.deleted, v.stat.state = .old⟩⟩

def Version.retired (v : Version) : Version := { v with stat := { v.stat with state := .old } }

def Version.placed (v : Version) (ts : ℕ) : Version :=
  { v with stat := { v.stat with state := .active, ts } }

/-- `temp` is by the Object a version belongs to. -/
structure Record where
  temp : ℕ → Option Version
  held : Name → Option Version

def Record.empty : Record := ⟨fun _ => none, fun _ => none⟩

/-- What a transaction does to the record. A write or a metadata write comes
with the Object's Stat as the call leaves it. -/
inductive Note
  | write (id : ℕ) (stat : Stat) (data : Bytes)
  | header (id : ℕ) (stat : Stat) (blob : Bytes)
  | put (next prev : ℕ) (name : Name) (ts : ℕ)
  | remove (id : ℕ)
  deriving DecidableEq

/-- A transaction as prepared: whose collection it is for, and its changes. -/
structure Txn where
  name : Name
  ops : List Op
  note : Note
  deriving DecidableEq

namespace Record

def setTemp (r : Record) (id : ℕ) (v : Option Version) : Record :=
  { r with temp := update r.temp id v }

def setHeld (r : Record) (name : Name) (v : Option Version) : Record :=
  { r with held := update r.held name v }

/-- The holder of a name becomes a retired version of the Object `prev`. -/
def retire (r : Record) (prev : ℕ) (name : Name) : Record :=
  match r.held name with
  | none => r
  | some h => (r.setTemp prev (some h.retired)).setHeld name none

/-- The version written by the Object `next` becomes the holder of a name. -/
def place (r : Record) (next : ℕ) (name : Name) (ts : ℕ) : Record :=
  match r.temp next with
  | none => r
  | some v => (r.setTemp next none).setHeld name (some (v.placed ts))

/-- The version as written so far. -/
def draft (r : Record) (id : ℕ) (stat : Stat) : Version := (r.temp id).getD ⟨stat, [], []⟩

def apply (r : Record) : Note → Record
  | .write id stat data =>
      let v := r.draft id stat
      r.setTemp id (some ⟨stat, v.data ++ data, v.header⟩)
  | .header id stat blob =>
      if stat.state = .active then
        r.setHeld stat.name ((r.held stat.name).map fun v => { v with header := blob })
      else r.setTemp id (some ⟨stat, (r.draft id stat).data, blob⟩)
  | .put next prev name ts => (r.retire prev name).place next name ts
  | .remove id => r.setTemp id none

/-- The record after the transactions of a log. -/
def after (r : Record) (log : List Txn) : Record := log.foldl (fun r t => r.apply t.note) r

@[simp] theorem setTemp_self (r : Record) (id : ℕ) (v : Option Version) :
    (r.setTemp id v).temp id = v := update_self ..

theorem setTemp_of_ne (r : Record) {id i : ℕ} (v : Option Version) (h : i ≠ id) :
    (r.setTemp id v).temp i = r.temp i := update_of_ne h _ _

@[simp] theorem setTemp_held (r : Record) (id : ℕ) (v : Option Version) :
    (r.setTemp id v).held = r.held := rfl

@[simp] theorem setHeld_self (r : Record) (name : Name) (v : Option Version) :
    (r.setHeld name v).held name = v := update_self ..

theorem setHeld_of_ne (r : Record) {name n : Name} (v : Option Version) (h : n ≠ name) :
    (r.setHeld name v).held n = r.held n := update_of_ne h _ _

@[simp] theorem setHeld_temp (r : Record) (name : Name) (v : Option Version) :
    (r.setHeld name v).temp = r.temp := rfl

theorem after_append (r : Record) (log more : List Txn) :
    r.after (log ++ more) = (r.after log).after more := List.foldl_append ..

@[simp] theorem after_concat (r : Record) (log : List Txn) (t : Txn) :
    r.after (log ++ [t]) = (r.after log).apply t.note := by
  rw [after_append]
  rfl

end Record

/-- A `put` in one piece: what was held is retired and the next is held. -/
theorem Record.apply_put {r : Record} {i j : ℕ} {name : Name} {ts : ℕ} {v : Version}
    (hv : r.temp i = some v) (hj : r.temp j = none) :
    r.apply (.put i j name ts) =
      ((r.setTemp j ((r.held name).map Version.retired)).setTemp i none).setHeld name
        (some (v.placed ts)) := by
  have hij : i ≠ j := by
    rintro rfl
    rw [hj] at hv
    contradiction
  cases hheld : r.held name with
  | none =>
    have hself : r.setTemp j none = r := by
      unfold Record.setTemp
      rw [← hj, update_eq_self]
    simp only [Record.apply, Record.retire, hheld, Record.place, hv, Option.map_none, hself]
  | some u =>
    have htemp : ((r.setTemp j (some u.retired)).setHeld name none).temp i = some v := by
      rw [Record.setHeld_temp, Record.setTemp_of_ne _ _ hij, hv]
    simp only [Record.apply, Record.retire, hheld, Record.place, htemp, Option.map_some]
    simp only [Record.setTemp, Record.setHeld, update_idem]

/-- The store has exactly the versions of the record. -/
structure Renders (r : Record) (s : Store) : Prop where
  holder : ∀ n, s (ordinary n) = (r.held n).map Version.entry
  version : ∀ id v, r.temp id = some v → s (temporary v.stat.name v.stat.ts) = some v.entry
  owned : ∀ n g, (s (temporary n g)).isSome → ∃ id v, r.temp id = some v ∧
    v.stat.name = n ∧ v.stat.ts = g
  base : ∀ n g, g ≠ 0 → s ⟨.ordinary, n, g⟩ = none

/-- No other version than that of `id` is at the temporary address. -/
def Record.Vacant (r : Record) (id : ℕ) (name : Name) (ts : ℕ) : Prop :=
  ∀ id' v, r.temp id' = some v → v.stat.name = name → v.stat.ts = ts → id' = id

@[simp] theorem ordinary_ne_temporary (n m : Name) (g : ℕ) : ordinary n ≠ temporary m g := by
  intro h
  have hspace := congrArg Address.space h
  contradiction

@[simp] theorem temporary_ne_ordinary (n m : Name) (g : ℕ) : temporary m g ≠ ordinary n :=
  (ordinary_ne_temporary n m g).symm

@[simp] theorem temporary_inj {n m : Name} {g k : ℕ} :
    temporary n g = temporary m k ↔ n = m ∧ g = k := by
  simp [temporary]

@[simp] theorem ordinary_inj {n m : Name} : ordinary n = ordinary m ↔ n = m := by
  simp [ordinary]

theorem renders_empty : Renders Record.empty fun _ => none :=
  ⟨fun _ => rfl, fun _ _ h => by contradiction, fun _ _ h => by contradiction, fun _ _ _ => rfl⟩

/-- A version written at an address no other version has. -/
theorem Renders.setTemp {r : Record} {s : Store} (h : Renders r s) {id : ℕ} {v : Version}
    (hvacant : r.Vacant id v.stat.name v.stat.ts)
    (hsame : ∀ u, r.temp id = some u → u.stat.name = v.stat.name ∧ u.stat.ts = v.stat.ts) :
    Renders (r.setTemp id (some v))
      (update s (temporary v.stat.name v.stat.ts) (some v.entry)) := by
  refine ⟨fun n => ?_, fun i u hu => ?_, fun n g hsome => ?_, fun n g hg => ?_⟩
  · rw [update_of_ne (ordinary_ne_temporary _ _ _)]
    exact h.holder n
  · by_cases hi : i = id
    · subst hi
      simp only [Record.setTemp, update_self, Option.some.injEq] at hu
      rw [← hu, update_self]
    · simp only [Record.setTemp, update_of_ne hi] at hu
      rw [update_of_ne]
      · exact h.version i u hu
      · intro heq
        obtain ⟨hn, ht⟩ := temporary_inj.mp heq
        exact hi (hvacant i u hu hn ht)
  · by_cases ha : temporary n g = temporary v.stat.name v.stat.ts
    · obtain ⟨rfl, rfl⟩ := temporary_inj.mp ha
      exact ⟨id, v, by simp [Record.setTemp], rfl, rfl⟩
    · rw [update_of_ne ha] at hsome
      obtain ⟨i, u, hu, hn, ht⟩ := h.owned n g hsome
      refine ⟨i, u, ?_, hn, ht⟩
      have hi : i ≠ id := by
        rintro rfl
        obtain ⟨hn', ht'⟩ := hsame u hu
        exact ha (temporary_inj.mpr ⟨hn.symm.trans hn', ht.symm.trans ht'⟩)
      simp only [Record.setTemp, update_of_ne hi, hu]
  · rw [update_of_ne]
    · exact h.base n g hg
    · intro heq
      have hspace := congrArg Address.space heq
      contradiction

/-- A version taken away from its address. -/
theorem Renders.clearTemp {r : Record} {s : Store} (h : Renders r s) {id : ℕ} {v : Version}
    (hv : r.temp id = some v) (hvacant : r.Vacant id v.stat.name v.stat.ts) :
    Renders (r.setTemp id none)
      (update s (temporary v.stat.name v.stat.ts) none) := by
  refine ⟨fun n => ?_, fun i u hu => ?_, fun n g hsome => ?_, fun n g hg => ?_⟩
  · rw [update_of_ne (ordinary_ne_temporary _ _ _)]
    exact h.holder n
  · have hi : i ≠ id := by
      rintro rfl
      simp [Record.setTemp] at hu
    simp only [Record.setTemp, update_of_ne hi] at hu
    rw [update_of_ne]
    · exact h.version i u hu
    · intro heq
      obtain ⟨hn, ht⟩ := temporary_inj.mp heq
      exact hi (hvacant i u hu hn ht)
  · by_cases ha : temporary n g = temporary v.stat.name v.stat.ts
    · rw [ha, update_self] at hsome
      contradiction
    · rw [update_of_ne ha] at hsome
      obtain ⟨i, u, hu, hn, ht⟩ := h.owned n g hsome
      refine ⟨i, u, ?_, hn, ht⟩
      have hi : i ≠ id := by
        rintro rfl
        obtain rfl := Option.some.inj (hv.symm.trans hu)
        exact ha (temporary_inj.mpr ⟨hn.symm, ht.symm⟩)
      simp only [Record.setTemp, update_of_ne hi, hu]
  · rw [update_of_ne]
    · exact h.base n g hg
    · intro heq
      have hspace := congrArg Address.space heq
      contradiction

/-- A holder written, or taken away. -/
theorem Renders.setHeld {r : Record} {s : Store} (h : Renders r s) (name : Name)
    (v : Option Version) :
    Renders (r.setHeld name v)
      (update s (ordinary name) (v.map Version.entry)) := by
  refine ⟨fun n => ?_, fun i u hu => ?_, fun n g hsome => ?_, fun n g hg => ?_⟩
  · by_cases hn : n = name
    · subst hn
      simp [Record.setHeld]
    · rw [update_of_ne fun heq => hn (ordinary_inj.mp heq)]
      simp only [Record.setHeld, update_of_ne hn]
      exact h.holder n
  · rw [update_of_ne (temporary_ne_ordinary _ _ _)]
    exact h.version i u hu
  · rw [update_of_ne (temporary_ne_ordinary _ _ _)] at hsome
    exact h.owned n g hsome
  · rw [update_of_ne]
    · exact h.base n g hg
    · intro heq
      exact hg (congrArg Address.generation heq)

/-! Each call's changes do to the store what its note does to the record. -/

/-- The record has of a live Object what its state says. -/
structure Drafts (r : Record) (id : ℕ) (o : Object) : Prop where
  unwritten : o.state = .preWrite → r.temp id = none ∧ o.written = 0
  draft : o.state = .inWrite → ∃ v, r.temp id = some v ∧ v.stat = o.toStat ∧
    v.data.length = o.written
  retired : o.state = .old → ∃ v, r.temp id = some v ∧ v.stat = o.toStat
  holding : o.state = .active → ∃ v, r.held o.name = some v ∧ v.stat = o.toStat

theorem address_temp {stat : Stat} (h : stat.state.temp = true) :
    address stat = temporary stat.name stat.ts := by
  simp only [address, h, if_true]

theorem address_active {stat : Stat} (h : stat.state = .active) :
    address stat = ordinary stat.name := by
  simp [address, h, State.temp]

/-- Where no version is, there is no entry. -/
theorem Renders.vacant {r : Record} {s : Store} (h : Renders r s) {id : ℕ} {name : Name} {ts : ℕ}
    (hnone : r.temp id = none) (hvacant : r.Vacant id name ts) : s (temporary name ts) = none := by
  cases hs : s (temporary name ts) with
  | none => rfl
  | some e =>
    obtain ⟨i, u, hu, hn, ht⟩ := h.owned name ts (by rw [hs]; rfl)
    obtain rfl := hvacant i u hu hn ht
    rw [hnone] at hu
    contradiction

theorem renders_write {r : Record} {s : Store} (hr : Renders r s) {id : ℕ} {o o' : Object}
    {data : Bytes} {ops : List Op} (h : o.write data = .ok (o', ops)) (hd : Drafts r id o)
    (hvacant : r.Vacant id o.name o.ts) :
    ∃ s', applyAll s ops = some s' ∧ Renders (r.apply (.write id o'.toStat data)) s' := by
  obtain ⟨hstate, rfl, rfl⟩ := write_ok h
  rcases hstate with hpre | hin
  · obtain ⟨hnone, hzero⟩ := hd.unwritten hpre
    have haddr : address o.toStat = temporary o.name o.ts := address_temp (by rw [hpre]; rfl)
    have haddr' : address { o.toStat with state := .inWrite } = temporary o.name o.ts := rfl
    have hempty := hr.vacant hnone hvacant
    let v : Version := ⟨{ o.toStat with state := .inWrite }, data, []⟩
    refine ⟨update s (temporary o.name o.ts) (some v.entry), ?_, ?_⟩
    · have hdata : splice [] 0 data = data := splice_end [] data
      simp only [if_pos hpre, List.cons_append, List.nil_append, applyAll_cons, applyAll_nil,
        EntryStore.apply, save, haddr, haddr', hempty, hzero, Option.getD_none, Option.bind_some,
        update_self, update_idem, Option.map_some, Option.getD_some, Entry.blank, hdata]
      rfl
    · have happly : r.apply (.write id { o.toStat with state := .inWrite } data) =
          r.setTemp id (some v) := by
        simp only [Record.apply, Record.draft, hnone, Option.getD_none, List.nil_append, v]
      exact happly ▸ hr.setTemp (v := v) hvacant fun u hu => by rw [hnone] at hu; contradiction
  · obtain ⟨u, hu, hstat, hlen⟩ := hd.draft hin
    have haddr : address o.toStat = temporary o.name o.ts := address_temp (by rw [hin]; rfl)
    have hentry : s (temporary o.name o.ts) = some u.entry := by
      have hsome := hr.version id u hu
      rwa [hstat] at hsome
    have hsame : { o.toStat with state := .inWrite } = o.toStat := by rw [← hin]
    let v : Version := ⟨o.toStat, u.data ++ data, u.header⟩
    refine ⟨update s (temporary o.name o.ts) (some v.entry), ?_, ?_⟩
    · have hdata : splice u.data o.written data = u.data ++ data := hlen ▸ splice_end u.data data
      have hnot : ¬ o.state = .preWrite := by rw [hin]; simp
      simp only [if_neg hnot, List.nil_append, applyAll_cons, applyAll_nil, EntryStore.apply, haddr,
        hentry, Option.getD_some, Option.bind_some, Version.entry, hdata, v, hstat]
    · have happly : r.apply (.write id { o.toStat with state := .inWrite } data) =
          r.setTemp id (some v) := by
        simp only [Record.apply, Record.draft, hu, Option.getD_some, hsame, v]
      refine happly ▸ hr.setTemp (v := v) hvacant fun u' hu' => ?_
      obtain rfl := Option.some.inj (hu.symm.trans hu')
      rw [hstat]
      exact ⟨rfl, rfl⟩

theorem renders_writeMetadata {r : Record} {s : Store} (hr : Renders r s) {id : ℕ}
    {o o' : Object} {data : Bytes} {ops : List Op} (h : o.writeMetadata data = .ok (o', ops))
    (hd : Drafts r id o) (hvacant : o.state ≠ .active → r.Vacant id o.name o.ts) :
    ∃ s', applyAll s ops = some s' ∧ Renders (r.apply (.header id o'.toStat data)) s' := by
  obtain ⟨hstate, rfl, rfl⟩ := writeMetadata_ok h
  rcases hstate with hpre | hin | hactive
  · obtain ⟨hnone, -⟩ := hd.unwritten hpre
    have hvacant := hvacant (by rw [hpre]; simp)
    have haddr : address o.toStat = temporary o.name o.ts := address_temp (by rw [hpre]; rfl)
    have haddr' : address { o.toStat with state := .inWrite } = temporary o.name o.ts := rfl
    have hempty := hr.vacant hnone hvacant
    let v : Version := ⟨{ o.toStat with state := .inWrite }, [], data⟩
    refine ⟨update s (temporary o.name o.ts) (some v.entry), ?_, ?_⟩
    · simp only [if_pos hpre, List.cons_append, List.nil_append, applyAll_cons, applyAll_nil,
        EntryStore.apply, save, haddr, haddr', hempty, Option.getD_none, Option.bind_some,
        update_self, update_idem, Option.map_some, Entry.blank]
      rfl
    · have happly : r.apply (.header id { o.toStat with state := .inWrite } data) =
          r.setTemp id (some v) := by
        simp only [Record.apply, Record.draft, hnone, Option.getD_none, reduceCtorEq, if_false, v]
      rw [if_pos hpre]
      exact happly ▸ hr.setTemp (v := v) hvacant fun u hu => by rw [hnone] at hu; contradiction
  · obtain ⟨u, hu, hstat, -⟩ := hd.draft hin
    have hvacant := hvacant (by rw [hin]; simp)
    have haddr : address o.toStat = temporary o.name o.ts := address_temp (by rw [hin]; rfl)
    have hentry : s (temporary o.name o.ts) = some u.entry := by
      have hsome := hr.version id u hu
      rwa [hstat] at hsome
    have hnot : ¬ o.state = .preWrite := by rw [hin]; simp
    let v : Version := ⟨o.toStat, u.data, data⟩
    refine ⟨update s (temporary o.name o.ts) (some v.entry), ?_, ?_⟩
    · simp only [if_neg hnot, List.nil_append, applyAll_cons, applyAll_nil, EntryStore.apply, save,
        haddr, hentry, Option.map_some, Option.bind_some, update_self, update_idem, Version.entry, v]
    · have happly : r.apply (.header id o.toStat data) = r.setTemp id (some v) := by
        simp only [Record.apply, Record.draft, hu, Option.getD_some, hin, reduceCtorEq, if_false, v]
      rw [if_neg hnot]
      refine happly ▸ hr.setTemp (v := v) hvacant fun u' hu' => ?_
      obtain rfl := Option.some.inj (hu.symm.trans hu')
      rw [hstat]
      exact ⟨rfl, rfl⟩
  · obtain ⟨u, hu, hstat⟩ := hd.holding hactive
    have haddr : address o.toStat = ordinary o.name := address_active hactive
    have hentry : s (ordinary o.name) = some u.entry := by rw [hr.holder, hu, Option.map_some]
    have hnot : ¬ o.state = .preWrite := by rw [hactive]; simp
    let v : Version := ⟨u.stat, u.data, data⟩
    refine ⟨update s (ordinary o.name) (some v.entry), ?_, ?_⟩
    · simp only [if_neg hnot, List.nil_append, applyAll_cons, applyAll_nil, EntryStore.apply, save,
        haddr, hentry, Option.map_some, Option.bind_some, update_self, update_idem, Version.entry, v,
        hstat]
    · have happly : r.apply (.header id o.toStat data) = r.setHeld o.name (some v) := by
        simp only [Record.apply, hactive, if_true, hu, Option.map_some, v]
      rw [if_neg hnot, happly]
      exact hr.setHeld o.name (some v)

/-- The holder moves out of the ordinary space. -/
theorem renders_retire {r : Record} {s : Store} (hr : Renders r s) {prev : ℕ} {name : Name}
    {h : Version} (hheld : r.held name = some h) (hname : h.stat.name = name)
    (hnone : r.temp prev = none) (hvacant : r.Vacant prev name h.stat.ts) :
    Renders (r.retire prev name)
        (update (update s (ordinary name) none) (temporary name h.stat.ts) (some h.retired.entry)) ∧
      s (ordinary name) = some h.entry ∧ s (temporary name h.stat.ts) = none := by
  refine ⟨?_, by rw [hr.holder, hheld, Option.map_some], hr.vacant hnone hvacant⟩
  have hclear := hr.setHeld name none
  have hset := @Renders.setTemp _ _ hclear prev h.retired
    (by simpa [Version.retired, Record.Vacant, Record.setHeld, hname] using hvacant)
    (fun u hu => by simp [Record.setHeld, hnone] at hu)
  have heq : r.retire prev name = (r.setHeld name none).setTemp prev (some h.retired) := by
    simp only [Record.retire, hheld, Record.setTemp, Record.setHeld]
  rw [heq]
  simpa [Version.retired, hname] using hset

/-- The next version moves into the ordinary space, where nothing is. -/
theorem renders_place {r : Record} {s : Store} (hr : Renders r s) {next : ℕ} {name : Name}
    (ts : ℕ) {v : Version} (hv : r.temp next = some v) (hname : v.stat.name = name)
    (hheld : r.held name = none) (hvacant : r.Vacant next name v.stat.ts) :
    Renders (r.place next name ts)
        (update (update s (temporary name v.stat.ts) none) (ordinary name)
          (some (v.placed ts).entry)) ∧
      s (temporary name v.stat.ts) = some v.entry ∧ s (ordinary name) = none := by
  have hentry := hr.version next v hv
  rw [hname] at hentry
  refine ⟨?_, hentry, by rw [hr.holder, hheld, Option.map_none]⟩
  have hclear := hr.clearTemp hv (hname.symm ▸ hvacant)
  have hset := hclear.setHeld name (some (v.placed ts))
  have heq : r.place next name ts = (r.setTemp next none).setHeld name (some (v.placed ts)) := by
    simp only [Record.place, hv]
  rw [heq]
  simpa [hname] using hset

theorem renders_put {r : Record} {s : Store} (hr : Renders r s) {p i j : ℕ}
    {next prev next' prev' : Object} {ts : Option ℕ} {ops : List Op}
    (h : Backend.put p next prev ts = .ok (next', prev', ops)) (hnext : Drafts r i next)
    (hprev : Drafts r j prev) (hmissing : prev.state = .missing → r.held next.name = none)
    (hnone : r.temp j = none) (hi : r.Vacant i next.name next.ts)
    (hj : prev.state = .active → r.Vacant j prev.name prev.ts) :
    ∃ s', applyAll s ops = some s' ∧
      Renders (r.apply (.put i j next.name (ts.getD next.ts))) s' := by
  obtain ⟨hin, hstate, hname, -, -, -, rfl⟩ := put_ok h
  obtain ⟨v, hv, hstat, -⟩ := hnext.draft hin
  have hvname : v.stat.name = next.name := by rw [hstat]
  have hvts : v.stat.ts = next.ts := by rw [hstat]
  have hfrom : address next.toStat = temporary next.name next.ts :=
    address_temp (by rw [hin]; rfl)
  have hto : address (Backend.settle next (ts.getD next.ts)).toStat = ordinary next.name :=
    address_active rfl
  have hattrs : (v.placed (ts.getD next.ts)).entry =
      { v.entry with attrs := some ⟨ts.getD next.ts, next.deleted, false⟩ } := by
    simp [Version.placed, Version.entry, hstat]
  rcases hstate with hactive | hmiss
  · obtain ⟨u, hu, hustat⟩ := hprev.holding hactive
    have hut : u.stat.ts = prev.ts := by rw [hustat]
    have hout : address prev.toStat = ordinary next.name := by
      rw [address_active hactive, hname]
    have hmoved : address (Backend.retire prev).toStat = temporary next.name prev.ts := by
      rw [hname]
      simp only [Backend.retire, hactive, if_true]
      rfl
    have hold : u.retired.entry = { u.entry with attrs := some ⟨prev.ts, prev.deleted, true⟩ } := by
      simp [Version.retired, Version.entry, hustat]
    rw [← hname] at hu
    obtain ⟨hr1, hs1, hs2⟩ := renders_retire hr hu (by rw [hustat, hname]) hnone
      (by rw [hname, hut]; exact hj hactive)
    have hij : i ≠ j := by
      rintro rfl
      rw [hnone] at hv
      contradiction
    have htemp : (r.retire j next.name).temp i = some v := by
      simp only [Record.retire, hu, Record.setHeld, Record.setTemp, update_of_ne hij, hv]
    have hheld : (r.retire j next.name).held next.name = none := by
      simp only [Record.retire, hu, Record.setHeld, Record.setTemp, update_self]
    have hvac : (r.retire j next.name).Vacant i next.name v.stat.ts := by
      intro k w hw hwn hwt
      by_cases hk : k = j
      · -- the retired version is not where the next one is
        subst hk
        simp only [Record.retire, hu, Record.setHeld, Record.setTemp, update_self,
          Option.some.injEq] at hw
        rw [← hw] at hwt
        have hsame : v.stat.ts = prev.ts := hwt.symm.trans hut
        exact absurd (hj hactive i v hv (hvname.trans hname) hsame) hij
      · simp only [Record.retire, hu, Record.setHeld, Record.setTemp, update_of_ne hk] at hw
        exact hi k w hw hwn (hwt.trans hvts)
    obtain ⟨hr2, hs3, hs4⟩ := renders_place hr1 (ts.getD next.ts) htemp hvname hheld hvac
    refine ⟨_, ?_, hr2⟩
    simp only [Backend.handOverOps, hactive, if_true, List.cons_append, List.nil_append,
      applyAll_cons, applyAll_nil, EntryStore.apply, save, hout, hmoved, hfrom, hto, hs1]
    rw [hut] at hs2 hs3 hs4 ⊢
    rw [hvts] at hs3 ⊢
    simp only [hs2, Option.bind_some, update_self, Option.map_some, update_idem]
    have hretired : (Backend.retire prev).ts = prev.ts ∧
        (Backend.retire prev).deleted = prev.deleted ∧ (Backend.retire prev).state = .old := by
      simp [Backend.retire, hactive]
    have hcommon : ({ u.entry with attrs := some ⟨(Backend.retire prev).ts,
        (Backend.retire prev).deleted, decide ((Backend.retire prev).state = .old)⟩ } :
        EntryStore.Entry Attrs) = u.retired.entry := by
      rw [hold, hretired.1, hretired.2.1, hretired.2.2]
      rfl
    rw [hcommon]
    simp only [hs3, hs4, Option.bind_some, update_self, Option.map_some, update_idem, hattrs]
    rfl
  · have hheld := hmissing hmiss
    have hretire : r.retire j next.name = r := by simp only [Record.retire, hheld]
    obtain ⟨hr2, hs3, hs4⟩ := renders_place hr (ts.getD next.ts) hv hvname hheld
      (hvts.symm ▸ hi)
    refine ⟨_, ?_, by simpa only [Record.apply, hretire] using hr2⟩
    have hnot : ¬ prev.state = .active := by rw [hmiss]; simp
    rw [hvts] at hs3 ⊢
    simp only [Backend.handOverOps, hnot, if_false, List.nil_append, applyAll_cons, applyAll_nil,
      EntryStore.apply, save, hfrom, hto, hs3, hs4, Option.bind_some, update_self, Option.map_some,
      update_idem, hattrs]
    rfl

/-- A holder cannot move out to where something is: the store stops. -/
theorem put_collides {r : Record} {s : Store} (hr : Renders r s) {p j : ℕ}
    {next prev next' prev' : Object} {ts : Option ℕ} {ops : List Op}
    (h : Backend.put p next prev ts = .ok (next', prev', ops)) (hprev : Drafts r j prev)
    (hactive : prev.state = .active) (hsome : (s (temporary prev.name prev.ts)).isSome) :
    applyAll s ops = none := by
  obtain ⟨-, -, hname, -, -, -, rfl⟩ := put_ok h
  obtain ⟨u, hu, -⟩ := hprev.holding hactive
  have hentry : s (ordinary prev.name) = some u.entry := by rw [hr.holder, hu, Option.map_some]
  obtain ⟨e, he⟩ := Option.isSome_iff_exists.mp hsome
  have hout : address prev.toStat = ordinary prev.name := address_active hactive
  have hmoved : address (Backend.retire prev).toStat = temporary prev.name prev.ts := by
    simp only [Backend.retire, hactive, if_true]
    rfl
  simp only [Backend.handOverOps, hactive, if_true, List.cons_append, applyAll_cons,
    EntryStore.apply, hout, hmoved, hentry, he, Option.bind_none]

theorem renders_release {r : Record} {s : Store} (hr : Renders r s) {id : ℕ} {o : Object}
    {ops : List Op} (h : o.release = some ops) (hd : Drafts r id o)
    (hvacant : r.Vacant id o.name o.ts) :
    ∃ s', applyAll s ops = some s' ∧ Renders (r.apply (.remove id)) s' := by
  unfold Object.release at h
  split at h
  · rename_i hstate
    obtain ⟨v, hv, hstat⟩ : ∃ v, r.temp id = some v ∧ v.stat = o.toStat := by
      rcases hstate with hin | hold
      · obtain ⟨v, hv, hstat, -⟩ := hd.draft hin
        exact ⟨v, hv, hstat⟩
      · exact hd.retired hold
    have haddr : address o.toStat = temporary o.name o.ts := by
      rcases hstate with hin | hold
      · exact address_temp (by rw [hin]; rfl)
      · exact address_temp (by rw [hold]; rfl)
    obtain rfl := Option.some.inj h
    have hclear := hr.clearTemp hv (by rw [hstat]; exact hvacant)
    rw [hstat] at hclear
    exact ⟨_, by simp only [applyAll_cons, applyAll_nil, EntryStore.apply, haddr, Option.bind_some],
      hclear⟩
  · contradiction

end Swiftacular.Versions
