import Swiftacular.DeviceRuns
import Swiftacular.HeldEntries
import Swiftacular.PreparedLog

/-!
The engine as a Device uses it: what holds a name is seen in the ordinary
space, and every transaction that changes it is one request's decision. One
lemma for each call. Nothing here asks that temporary addresses are apart.
-/
namespace Swiftacular.DeviceEngine

open Function EntryStore EngineObjects Versions EngineRuns LiveObjects HeldEntries PreparedLog
  DeviceRuns MetadataModel

/-- What a name shows its requests. -/
structure View where
  ts : ℕ
  deleted : Bool
  header : Bytes
  deriving DecidableEq

def View.of (v : Version) : View := ⟨v.stat.ts, v.stat.deleted, v.header⟩

variable (conf : Conf)

/-- The metadata a decision starts from. -/
def previous (header : Option Bytes) : Option Metadata :=
  (header.bind conf.loads).map (MetadataModel.get conf.isSysMeta)

/-- A decision on a name, as a function of what holds it. -/
def decided (held : Option View) : Goal → Option View
  | .put _ ts metadata =>
      if ts ≤ (held.map View.ts).getD 0 then held
      else some ⟨ts, false,
        conf.dumps (MetadataModel.put (previous conf (held.map View.header)) metadata)⟩
  | .delete ts metadata =>
      if ts ≤ (held.map View.ts).getD 0 then held
      else some ⟨ts, true,
        conf.dumps (MetadataModel.delete (previous conf (held.map View.header)) ts metadata)⟩
  | .post metadata =>
      match MetadataModel.post (previous conf (held.map View.header)) metadata with
      | .ok (some blob) => held.map fun v => { v with header := conf.dumps blob }
      | _ => held

/-- A transaction does to each name it touches what a decision does. -/
def Written (G : Goal → Prop) (r : Record) (t : Txn) : Prop :=
  ∀ name, Touches name t → ∃ goal, G goal ∧
    ((r.apply t.note).held name).map View.of = decided conf ((r.held name).map View.of) goal

/-- The Objects that can be read. -/
def Readable (o : Object) : Prop := o.state = .active ∨ o.state = .old

/-- The Objects a search can end with, and what becomes of them. -/
def Found (o : Object) : Prop := o.state = .missing ∨ Readable o

/-- Of the one Backend, and without a timestamp where nothing was found. -/
def Plain (o : Object) : Prop := o.back = 0 ∧ (o.state = .missing ∨ o.state = .preSearch → o.ts = 0)

theorem Readable.not_writing {o : Object} (h : Readable o) : ¬ Writing o := by
  rintro (hw | hw) <;> rcases h with h | h <;> simp [h] at hw

theorem Found.not_writing {o : Object} (h : Found o) : ¬ Writing o := by
  rcases h with h | h
  · rintro (hw | hw) <;> simp [h] at hw
  · exact h.not_writing

variable {conf}

/-- The engine's side of a Device that started with the record `r` and the store `s`. -/
structure Engaged (conf : Conf) (G : Goal → Prop) (r : Record) (s : Store) (c : Core) : Prop where
  stands : Stands c (r.after c.log)
  kept : Kept r s c.log
  named : ∀ t ∈ c.log, Named t
  plain : ∀ id o, c.heap id = some o → Plain o
  done : ∀ id o d, c.heap id = some o → o.done = some d → d < c.log.length
  written : ∀ k t, c.log[k]? = some t → Written conf G (r.after (c.log.take k)) t

variable {G : Goal → Prop} {r : Record} {s : Store} {c : Core}

theorem shows_of_renders (h : Renders r s) : Shows r s := by
  intro n
  rw [h.holder n, Option.map_map]
  rfl

/-- A store whose ordinary entries are what the record says holds the names. -/
structure Mounted (r : Record) (s : Store) : Prop where
  shows : Shows r s
  none : ∀ id, r.temp id = none
  held : ∀ n v, r.held n = some v → v.stat.name = n ∧ v.stat.state = .active

theorem mounted_swept (h : Swept r s) : Mounted r s := ⟨shows_of_renders h.renders, h.none, h.held⟩

theorem engaged_mounted (h : Mounted r s) (last : UInt64) :
    Engaged conf G r s (Engine.start s last).core := by
  have hnil : (Engine.start s last).core.log = [] := rfl
  refine ⟨stands_start r h.held h.none last s, kept_nil h.shows, ?_, ?_, ?_, ?_⟩
  · intro t ht
    contradiction
  · intro id o ho
    contradiction
  · intro id o d ho
    contradiction
  · intro k t ht
    rw [hnil, List.getElem?_nil] at ht
    contradiction

/-- A transaction more: what is asked of it and of the Objects it changes. -/
theorem engaged_concat (h : Engaged conf G r s c) {c' : Core} {t : Txn}
    (hlog : c'.log = c.log ++ [t]) (hstands : Stands c' ((r.after c.log).apply t.note))
    (hkept : Kept r s (c.log ++ [t])) (hnamed : Named t)
    (hplain : ∀ id o, c'.heap id = some o → Plain o)
    (hdone : ∀ id o d, c'.heap id = some o → o.done = some d → d ≤ c.log.length)
    (hwritten : Written conf G (r.after c.log) t) : Engaged conf G r s c' := by
  have hrecord : r.after c'.log = (r.after c.log).apply t.note := by
    rw [hlog, Record.after_concat]
  refine ⟨hrecord ▸ hstands, hlog ▸ hkept, fun u hu => ?_, hplain, fun id o d ho hd => ?_,
    fun k u hu => ?_⟩
  · rw [hlog] at hu
    rcases List.mem_append.mp hu with hu | hu
    · exact h.named u hu
    · rw [List.mem_singleton.mp hu]
      exact hnamed
  · rw [hlog, List.length_append, List.length_singleton]
    exact Nat.lt_succ_of_le (hdone id o d ho hd)
  · rw [hlog] at hu ⊢
    rcases getElem?_concat_cases hu with ⟨hu, htake⟩ | ⟨rfl, htake⟩
    · rw [htake]
      exact h.written k u hu
    · rw [htake]
      exact hwritten

/-- A transaction that touches no name is written right whatever it does. -/
theorem written_quiet {r : Record} {t : Txn} (h : ∀ n, ¬ Touches n t) : Written conf G r t :=
  fun n hn => absurd hn (h n)

/-- A call on one Object that prepares a transaction other than a put. -/
theorem engaged_prepared (h : Engaged conf G r s c) {id : ℕ} {o' : Object} {t : Txn}
    (hplain : Plain o') (hstands : Stands (c.prepared id o' t) ((r.after c.log).apply t.note))
    (hkept : Kept r s (c.log ++ [t])) (hnamed : Named t)
    (hwritten : Written conf G (r.after c.log) t) :
    Engaged conf G r s (c.prepared id o' t) := by
  refine engaged_concat h rfl hstands hkept hnamed (fun i p hp => ?_) (fun i p d hp hd => ?_) hwritten
  · rcases heap_update hp with ⟨rfl, heq⟩ | ⟨-, hp⟩
    · obtain rfl := Option.some.inj heq
      exact hplain
    · exact h.plain i p hp
  · rcases heap_update hp with ⟨rfl, heq⟩ | ⟨-, hp⟩
    · obtain rfl := Option.some.inj heq
      exact (Option.some.inj hd).ge
    · exact (h.done i p d hp hd).le

/-- Nothing prepared. -/
theorem engaged_unprepared (h : Engaged conf G r s c) {c' : Core} (hlog : c'.log = c.log)
    (hstands : Stands c' (r.after c.log)) (hplain : ∀ id o, c'.heap id = some o → Plain o)
    (hdone : ∀ id o d, c'.heap id = some o → o.done = some d →
      ∃ o', c.heap id = some o' ∧ o'.done = some d) : Engaged conf G r s c' := by
  refine ⟨?_, ?_, ?_, hplain, fun id o d ho hd => ?_, ?_⟩
  · rw [hlog]
    exact hstands
  · rw [hlog]
    exact h.kept
  · rw [hlog]
    exact h.named
  · obtain ⟨o', ho', hd'⟩ := hdone id o d ho hd
    rw [hlog]
    exact h.done id o' d ho' hd'
  · rw [hlog]
    exact h.written

theorem engaged_fresh (h : Engaged conf G r s c) {o : Object} (last : UInt64) (hplain : Plain o)
    (hdone : o.done = none)
    (hstate : o.state = .preWrite ∧ o.written = 0 ∨ o.state = .preSearch) :
    Engaged conf G r s
      { c with heap := update c.heap c.fresh (some o), fresh := c.fresh + 1, last } := by
  refine engaged_unprepared h rfl (stands_fresh h.stands last hstate)
    (fun i p hp => ?_) fun i p d hp hd => ?_
  · rcases heap_update hp with ⟨-, heq⟩ | ⟨-, hp⟩
    · obtain rfl := Option.some.inj heq
      exact hplain
    · exact h.plain i p hp
  · rcases heap_update hp with ⟨-, heq⟩ | ⟨-, hp⟩
    · obtain rfl := Option.some.inj heq
      rw [hdone] at hd
      contradiction
    · exact ⟨p, hp, hd⟩

/-- A search leaves the Backend and the latest transaction of its Object alone,
and what it does not find has no timestamp. -/
theorem open_plain (st : Store) {o : Object} (h : Plain o) :
    Plain (o.open st).1 ∧ (o.open st).1.done = o.done := by
  rcases open_state st o with hsame | ⟨hpre, -⟩
  · rw [hsame]
    exact ⟨h, rfl⟩
  · have hreq : o.require "open" [.preSearch] = .ok () := require_of_mem (by simp [hpre])
    have hts : o.ts = 0 := h.2 (Or.inr hpre)
    cases hload : load st (address { o with state := .inSearch }.toStat) with
    | error e =>
      cases e with
      | noEntry =>
        simp only [Object.open, hreq, hload]
        exact ⟨⟨h.1, fun _ => hts⟩, trivial⟩
      | undecodable =>
        simp only [Object.open, hreq, hload]
        exact ⟨⟨h.1, fun _ => hts⟩, trivial⟩
    | ok stored =>
      have hstate : stored.state ≠ .missing ∧ stored.state ≠ .preSearch := by
        unfold load at hload
        split at hload
        · contradiction
        · split at hload
          · contradiction
          · rw [← Except.ok.inj hload]
            dsimp only
            split
            · simp
            · split <;> simp
      simp only [Object.open, hreq, hload]
      refine ⟨⟨h.1, fun hnone => ?_⟩, trivial⟩
      rcases hnone with hnone | hnone
      · exact absurd hnone hstate.1
      · exact absurd hnone hstate.2

/-- A search of a name whose holder is seen, and that no live Object stands for. -/
theorem engaged_open (h : Engaged conf G r s c) {st : Store} {id : ℕ} {o : Object}
    (ho : c.heap id = some o)
    (hfound : o.state = .preSearch →
      load st (ordinary o.name) = reported ((r.after c.log).held o.name))
    (hone : o.state = .preSearch → ∀ j p, c.heap j = some p → p.state = .active →
      p.name ≠ o.name) : Engaged conf G r s (c.open st id).1 := by
  have hopen : (c.open st id).1 = { c with heap := update c.heap id (some (o.open st).1) } := by
    simp only [Core.open, ho]
  have hstands := stands_open h.stands ho hfound hone
  rw [hopen] at hstands ⊢
  obtain ⟨hplain, hdone⟩ := open_plain st (h.plain id o ho)
  refine engaged_unprepared h rfl hstands (fun i p hp => ?_) fun i p d hp hd => ?_
  · rcases heap_update hp with ⟨-, heq⟩ | ⟨-, hp⟩
    · obtain rfl := Option.some.inj heq
      exact hplain
    · exact h.plain i p hp
  · rcases heap_update hp with ⟨rfl, heq⟩ | ⟨-, hp⟩
    · obtain rfl := Option.some.inj heq
      exact ⟨o, ho, hdone ▸ hd⟩
    · exact ⟨p, hp, hd⟩

theorem engaged_write (h : Engaged conf G r s c) {c' : Core} {id : ℕ} {data : Bytes}
    (hc : c.write id data = .ok c') : Engaged conf G r s c' := by
  rcases write_cases hc with rfl | ⟨o, o', ops, ho, hw, rfl⟩
  · exact h
  · obtain ⟨hquiet, hland⟩ := @write_quiet id _ _ _ _ hw
    have hnone : ∀ n, ¬ Touches n ⟨o.name, ops, .write id o'.toStat data⟩ := fun n hn => hn
    have hstands := stands_write h.stands ho hw rfl
    have hnamed := @named_write id _ _ _ _ hw
    obtain ⟨-, rfl, -⟩ := write_ok hw
    have hplain := h.plain id o ho
    exact engaged_prepared h ⟨hplain.1, by simp⟩ hstands (kept_quiet h.kept hquiet hnone hland)
      hnamed (written_quiet hnone)

/-- A version whose metadata is the last thing that was written, as a put of it needs it. -/
def Drafted (r : Record) (s : Store) (c : Core) (id : ℕ) (o : Object) (blob : Bytes) : Prop :=
  (∃ v, (r.after c.log).temp id = some v ∧ v.stat = o.toStat ∧ v.header = blob) ∧
    ∀ u, applyAll s (opsOf c.log) = some u →
      ∃ e, u (temporary o.name o.ts) = some e ∧ e.header = blob

/-- The metadata write of a version not yet put, or of a tombstone. -/
theorem engaged_draft (h : Engaged conf G r s c) {id : ℕ} {o o₁ o' : Object} {data : Bytes}
    {ops : List Op} (ho : c.heap id = some o)
    (hsame : o₁ = o ∨ o.state = .preWrite ∧ o₁ = { o with deleted := true }) (hw : Writing o₁)
    (hm : o₁.writeMetadata data = .ok (o', ops)) :
    let t : Txn := ⟨o.name, ops, .header id o'.toStat data⟩
    Engaged conf G r s (c.prepared id o' t) ∧ Drafted r s (c.prepared id o' t) id o' data ∧
      o' = { o₁ with state := .inWrite } ∧ ∀ n, ¬ Touches n t := by
  intro t
  have hname : o₁.name = o.name := by rcases hsame with rfl | ⟨-, rfl⟩ <;> rfl
  have hback : o₁.back = o.back := by rcases hsame with rfl | ⟨-, rfl⟩ <;> rfl
  obtain ⟨hquiet, hland, hnone⟩ := @draft_quiet id o.name _ _ _ _ hm hw
  have hstands : Stands (c.prepared id o' t) ((r.after c.log).apply t.note) :=
    stands_writeMetadata h.stands ho hsame hm rfl
  have hnamed := @named_writeMetadata id _ _ _ _ hm
  rw [hname] at hnamed
  have hplain := h.plain id o ho
  have hnext := (draft_ops hm hw).1
  refine ⟨?_, ⟨?_, fun u hu => ?_⟩, hnext, hnone⟩
  · refine engaged_prepared h ⟨?_, ?_⟩ hstands (kept_quiet h.kept hquiet hnone hland)
      hnamed (written_quiet hnone)
    · rw [hnext]
      exact hback.trans hplain.1
    · rw [hnext]
      intro hstate
      simp at hstate
  · have hlog : (c.prepared id o' t).log = c.log ++ [t] := rfl
    have hstate : o'.state = .inWrite := by rw [hnext]
    rw [hlog, Record.after_concat]
    refine ⟨⟨o'.toStat, ((r.after c.log).draft id o'.toStat).data, data⟩, ?_, rfl, rfl⟩
    simp only [t, Record.apply, hstate, reduceCtorEq, if_false, Record.setTemp_self]
  · have hlog : (c.prepared id o' t).log = c.log ++ [t] := rfl
    rw [hlog, opsOf_concat] at hu
    obtain ⟨w, -, hwu⟩ := applyAll_append_some hu
    have hentry := drafted_entry hm hw hwu
    rw [hnext]
    exact hentry

/-- A metadata write of what holds a name, as a decision. -/
theorem engaged_post (h : Engaged conf G r s c) {id : ℕ} {o o' : Object} {data : Bytes}
    {ops : List Op} (ho : c.heap id = some o) (hactive : o.state = .active)
    (hm : o.writeMetadata data = .ok (o', ops)) {goal : Goal} (hgoal : G goal)
    (hdecided : ∀ v, (r.after c.log).held o.name = some v →
      decided conf (some (View.of v)) goal = some { View.of v with header := data }) :
    let t : Txn := ⟨o.name, ops, .header id o'.toStat data⟩
    Engaged conf G r s (c.prepared id o' t) ∧ o' = o ∧ (∀ n, Touches n t ↔ n = o.name) := by
  intro t
  have hnot : ¬ o.state = .preWrite := by rw [hactive]; simp
  have hnext : o' = o := by
    obtain ⟨-, hnext, -⟩ := writeMetadata_ok hm
    rwa [if_neg hnot] at hnext
  obtain ⟨v, hv, hstat⟩ := (h.stands.drafts id o ho).holding hactive
  have hstands : Stands (c.prepared id o' t) ((r.after c.log).apply t.note) :=
    stands_writeMetadata h.stands ho (Or.inl rfl) hm rfl
  have hnamed := @named_writeMetadata id _ _ _ _ hm
  have htouch : ∀ n, Touches n t ↔ n = o.name := by
    intro n
    have hstate : o'.state = .active := hnext ▸ hactive
    have hname : o'.name = o.name := by rw [hnext]
    simp only [Touches, t, hstate, true_and, hname]
    exact eq_comm
  have happly : (r.after c.log).apply t.note =
      (r.after c.log).setHeld o.name (some { v with header := data }) := by
    simp only [t, hnext, Record.apply, hactive, if_true, hv, Option.map_some]
  refine ⟨?_, hnext, htouch⟩
  refine engaged_prepared h (hnext ▸ h.plain id o ho) hstands ?_ hnamed fun n hn => ?_
  · obtain ⟨hquiet, hland⟩ := @post_quiet id o.name _ _ _ _ hm hactive
    refine kept_concat h.kept hquiet (fun _ => ⟨v, by rw [hnext, hv]⟩) fun u _ hshown =>
      ⟨hland u, fun w hw => shows_post hshown hm hactive hv hstat hw⟩
  · rw [htouch] at hn
    subst hn
    refine ⟨goal, hgoal, ?_⟩
    rw [happly, Record.setHeld_self, hv, Option.map_some, Option.map_some, hdecided v hv]
    rfl

/-- What the previous Object of a put has to do with the holder. -/
theorem holds_active {c : Core} {r : Record} (h : Stands c r) {id : ℕ} {o : Object}
    (ho : c.heap id = some o) (hactive : o.state = .active) : Holds r o := by
  obtain ⟨v, hv, hstat⟩ := (h.drafts id o ho).holding hactive
  unfold Holds
  rw [hv]
  exact ⟨hactive, hstat.symm⟩

/-- A put over what holds the name, right after the metadata of its next
version, as a decision. -/
theorem engaged_put (h : Engaged conf G r s c) {i j ts : ℕ} {n p n' p' : Object} {blob : Bytes}
    {ops : List Op} (hn : c.heap i = some n) (hp : c.heap j = some p)
    (hput : Backend.put 0 n p (some ts) = .ok (n', p', ops)) (hholds : Holds (r.after c.log) p)
    (hdrafted : Drafted r s c i n blob) {goal : Goal} (hgoal : G goal)
    (hdecided : decided conf (((r.after c.log).held n.name).map View.of) goal =
      some ⟨ts, n.deleted, blob⟩) :
    let t : Txn := ⟨n.name, ops, .put i j n.name ts⟩
    Engaged conf G r s ({ c with heap := update c.heap j (some p') }.prepared i n' t) ∧
      ∀ m, Touches m t ↔ m = n.name := by
  intro t
  have htouch : ∀ m, Touches m t ↔ m = n.name := fun m => eq_comm
  have hstands := stands_put h.stands hn hp hput hholds t
  have hnamed : Named t := @named_put _ i j _ _ _ _ _ _ hput
  have hquiet : ∀ u : Store, (p.state = .missing → u (ordinary n.name) = none) →
      Confined t ∧ Landing u t := fun u => @put_quiet _ i j _ _ _ _ _ _ hput u
  have hplaced := fun u v => @shows_put (r.after c.log) u v
  obtain ⟨-, hstate, hname, hlt, rfl, rfl, -⟩ := put_ok hput
  obtain ⟨⟨v, hv, hstat, hheader⟩, hentry⟩ := hdrafted
  have hnot : ¬ InTemp p := by rcases hstate with hs | hs <;> simp [InTemp, hs]
  have hj : (r.after c.log).temp j = none := h.stands.not_temp hp hnot
  have hmissing : p.state = .missing → (r.after c.log).held n.name = none := by
    intro hmiss
    unfold Holds at hholds
    rw [← hname] at hholds
    cases hheld : (r.after c.log).held n.name with
    | none => rfl
    | some u =>
      rw [hheld] at hholds
      rw [hholds.1] at hmiss
      contradiction
  have hholding : ∀ u, (r.after c.log).held n.name = some u → u.stat.ts < ts := by
    intro u hu
    unfold Holds at hholds
    rw [← hname, hu] at hholds
    exact (congrArg Stat.ts hholds.2) ▸ hlt
  refine ⟨engaged_concat h rfl hstands ?_ hnamed (fun k q hq => ?_) (fun k q d hq hd => ?_) ?_,
    htouch⟩
  · refine kept_concat h.kept (hquiet (fun _ => none) fun _ => rfl).1
      ⟨⟨v, hv⟩, hj, hholding⟩ fun u hu hshows => ⟨?_, fun w hw => ?_⟩
    · exact (hquiet u fun hmiss => hshows.vacant (hmissing hmiss)).2
    · obtain ⟨e, he, heheader⟩ := hentry u hu
      refine hplaced u w hshows hput hv hstat hj ⟨e, he, heheader.trans hheader.symm⟩ hmissing
        (fun hactive => ?_) hw
      obtain ⟨x, hx, -⟩ := (h.stands.drafts j p hp).holding hactive
      exact ⟨x, hname ▸ hx⟩
  · rcases heap_update hq with ⟨-, heq⟩ | ⟨-, hq⟩
    · obtain rfl := Option.some.inj heq
      exact ⟨(h.plain i n hn).1, by simp [Backend.settle]⟩
    · rcases heap_update hq with ⟨-, heq⟩ | ⟨-, hq⟩
      · obtain rfl := Option.some.inj heq
        have hplain := h.plain j p hp
        unfold Backend.retire
        split
        · exact ⟨hplain.1, by simp⟩
        · exact hplain
      · exact h.plain k q hq
  · rcases heap_update hq with ⟨-, heq⟩ | ⟨-, hq⟩
    · obtain rfl := Option.some.inj heq
      exact (Option.some.inj hd).ge
    · rcases heap_update hq with ⟨-, heq⟩ | ⟨-, hq⟩
      · obtain rfl := Option.some.inj heq
        have hsame : (Backend.retire p).done = p.done := by
          unfold Backend.retire
          split <;> rfl
        exact (h.done j p d hp (hsame ▸ hd)).le
      · exact (h.done k q d hq hd).le
  · intro m hm
    rw [htouch] at hm
    subst hm
    refine ⟨goal, hgoal, ?_⟩
    rw [hdecided]
    simp only [t, Record.apply_put hv hj, Record.setHeld_self, Option.map_some, View.of,
      Version.placed, hheader, hstat]

/-- An Object that goes. -/
theorem engaged_release (h : Engaged conf G r s c) (id : ℕ) :
    Engaged conf G r s (c.release id) ∧ ((c.release id).log = c.log ∨
      ∃ t, (c.release id).log = c.log ++ [t] ∧ ∀ n, ¬ Touches n t) := by
  cases ho : c.heap id with
  | none =>
    have hsame : c.release id = c := by simp only [Core.release, ho]
    rw [hsame]
    exact ⟨h, Or.inl rfl⟩
  | some o =>
    have hheap : (c.release id).heap = update c.heap id none := by simp only [Core.release, ho]
    have hold : ∀ k q, (c.release id).heap k = some q → c.heap k = some q := by
      intro k q hq
      rw [hheap] at hq
      rcases heap_update hq with ⟨-, h⟩ | ⟨-, hq⟩
      · contradiction
      · exact hq
    have hstands := stands_release h.stands ho
    cases hrel : o.release with
    | none =>
      have hlog : (c.release id).log = c.log := by simp only [Core.release, ho, hrel]
      rw [hrel] at hstands
      exact ⟨engaged_unprepared h hlog hstands (fun k q hq => h.plain k q (hold k q hq))
        fun k q d hq hd => ⟨q, hold k q hq, hd⟩, Or.inl hlog⟩
    | some ops =>
      have hlog : (c.release id).log = c.log ++ [⟨o.name, ops, .remove id⟩] := by
        simp only [Core.release, ho, hrel]
      have hnone : ∀ n, ¬ Touches n ⟨o.name, ops, .remove id⟩ := fun n hn => hn
      rw [hrel] at hstands
      obtain ⟨hconf, hland⟩ := @release_quiet id _ _ hrel
      refine ⟨engaged_concat h hlog hstands (kept_quiet h.kept hconf hnone hland)
        (@named_release id _ _ hrel) (fun k q hq => h.plain k q (hold k q hq))
        (fun k q d hq hd => (h.done k q d (hold k q hq) hd).le) (written_quiet hnone),
        Or.inr ⟨_, hlog, hnone⟩⟩

end Swiftacular.DeviceEngine
