import Swiftacular.EngineRuns

/-!
The live Objects and the record of the log say the same. An Object being
written or retired has its version, an ACTIVE one stands for the holder of its
name and no two do; every version in the temporary space has its Object. One
lemma for each call that keeps it so.
-/
namespace Swiftacular.LiveObjects

open Function EntryStore EngineObjects Versions EngineRuns

structure Stands (c : Core) (r : Record) : Prop where
  drafts : ∀ id o, c.heap id = some o → Drafts r id o
  live : ∀ id v, r.temp id = some v → ∃ o, c.heap id = some o ∧ o.toStat = v.stat ∧ InTemp o
  held : ∀ n v, r.held n = some v → v.stat.name = n ∧ v.stat.state = .active
  one : ∀ i j o p, c.heap i = some o → c.heap j = some p → o.state = .active →
    p.state = .active → o.name = p.name → i = j
  fresh : ∀ id, c.fresh ≤ id → c.heap id = none

theorem Stands.lt_fresh {c : Core} {r : Record} (hs : Stands c r) {id : ℕ} {o : Object}
    (ho : c.heap id = some o) : id < c.fresh := by
  by_contra hge
  rw [hs.fresh id (by omega)] at ho
  contradiction

/-- An Object without an entry in the temporary space has no version there. -/
theorem Stands.not_temp {c : Core} {r : Record} (hs : Stands c r) {id : ℕ} {o : Object}
    (ho : c.heap id = some o) (hnot : ¬ InTemp o) : r.temp id = none := by
  cases hv : r.temp id with
  | none => rfl
  | some v =>
    obtain ⟨p, hp, -, htemp⟩ := hs.live id v hv
    obtain rfl := Option.some.inj (ho.symm.trans hp)
    exact absurd htemp hnot

/-- Where temporary addresses are apart, a version has its address alone. -/
theorem Stands.vacant {c c' : Core} {r : Record} (hs : Stands c r) (ha : Apart c') {id : ℕ}
    {o : Object} (ho : c'.heap id = some o) (htemp : InTemp o)
    (hkeep : ∀ i p, i ≠ id → c.heap i = some p → InTemp p → c'.heap i = some p) :
    r.Vacant id o.name o.ts := by
  intro i v hv hn ht
  obtain ⟨p, hp, hstat, hptemp⟩ := hs.live i v hv
  by_contra hi
  have hname : p.name = o.name := (congrArg Stat.name hstat).trans hn
  have hts : p.ts = o.ts := (congrArg Stat.ts hstat).trans ht
  exact hi (ha i id p o (hkeep i p hi hp hptemp) ho hptemp htemp hname hts)

theorem stands_start (r : Record) (hheld : ∀ n v, r.held n = some v →
    v.stat.name = n ∧ v.stat.state = .active) (htemp : ∀ id, r.temp id = none) (last : UInt64)
    (store : Store) : Stands (Engine.start store last).core r := by
  refine ⟨fun id o ho => ?_, fun id v hv => ?_, hheld, fun i j o p ho => ?_, fun id _ => rfl⟩
  · contradiction
  · rw [htemp id] at hv
    contradiction
  · contradiction

/-- A new Object that stands for nothing yet. -/
theorem stands_fresh {c : Core} {r : Record} (hs : Stands c r) {o : Object} (last : UInt64)
    (hstate : o.state = .preWrite ∧ o.written = 0 ∨ o.state = .preSearch) :
    Stands { c with heap := update c.heap c.fresh (some o), fresh := c.fresh + 1, last } r := by
  have hnone : r.temp c.fresh = none := by
    cases hv : r.temp c.fresh with
    | none => rfl
    | some v =>
      obtain ⟨p, hp, -⟩ := hs.live _ v hv
      rw [hs.fresh _ (le_refl _)] at hp
      contradiction
  have hnot : o.state ≠ .active := by
    rcases hstate with ⟨h, -⟩ | h <;> rw [h] <;> simp
  refine ⟨fun id p hp => ?_, fun id v hv => ?_, hs.held, fun i j p q hp hq ha hb hn => ?_,
    fun id hid => ?_⟩
  · rcases heap_update hp with ⟨rfl, ho⟩ | ⟨-, hp⟩
    · obtain rfl := Option.some.inj ho
      rcases hstate with ⟨h, hzero⟩ | h
      · exact ⟨fun _ => ⟨hnone, hzero⟩, by simp [h], by simp [h], by simp [h]⟩
      · exact ⟨by simp [h], by simp [h], by simp [h], by simp [h]⟩
    · exact hs.drafts id p hp
  · obtain ⟨p, hp, hstat, htemp⟩ := hs.live id v hv
    exact ⟨p, (update_of_ne (Nat.ne_of_lt (hs.lt_fresh hp)) _ _).trans hp, hstat, htemp⟩
  · have hold : ∀ k q, update c.heap c.fresh (some o) k = some q → q.state = .active →
        c.heap k = some q := by
      intro k q hq hactive
      rcases heap_update hq with ⟨-, ho⟩ | ⟨-, hq⟩
      · obtain rfl := Option.some.inj ho
        exact absurd hactive hnot
      · exact hq
    exact hs.one i j p q (hold i p hp ha) (hold j q hq hb) ha hb hn
  · have hlt : c.fresh + 1 ≤ id := hid
    exact (update_of_ne (by omega) _ _).trans (hs.fresh id (by omega))

/-- What loading a name's address reports, by what holds the name. -/
def reported : Option Version → Except LoadError Stat
  | none => .error .noEntry
  | some v => .ok v.stat

/-- The attributes of the holder's entry are all that is loaded. -/
theorem load_reported {s : Store} {name : Name} {held : Option Version}
    (hs : (s (ordinary name)).map Entry.attrs = held.map fun v => v.entry.attrs)
    (hheld : ∀ v, held = some v → v.stat.name = name ∧ v.stat.state = .active) :
    load s (ordinary name) = reported held := by
  cases held with
  | none =>
    have hnone : s (ordinary name) = none := by simpa using hs
    simp only [load, hnone, reported]
  | some v =>
    obtain ⟨hname, hstate⟩ := hheld v rfl
    obtain ⟨e, he, hattrs⟩ := Option.map_eq_some_iff.mp hs
    simp only [load, he, hattrs, Version.entry, reported]
    rw [← hname, ← hstate]
    rfl

/-- A search of a name whose holder no live Object stands for. -/
theorem stands_open {c : Core} {r : Record} (hs : Stands c r) {s : Store} {id : ℕ} {o : Object}
    (ho : c.heap id = some o)
    (hfound : o.state = .preSearch → load s (ordinary o.name) = reported (r.held o.name))
    (hone : o.state = .preSearch → ∀ j p, c.heap j = some p → p.state = .active → p.name ≠ o.name) :
    Stands (c.open s id).1 r := by
  have hopen : (c.open s id).1 = { c with heap := update c.heap id (some (o.open s).1) } := by
    simp only [Core.open, ho]
  rw [hopen]
  by_cases hpre : o.state = .preSearch
  swap
  · have hsame : (o.open s).1 = o := by
      have hreq : o.require "open" [.preSearch] = .error (.state "open" o.name o.state) :=
        require_error (by simpa using hpre)
      simp only [Object.open, hreq]
    rw [hsame, ← ho, update_eq_self]
    exact hs
  have hfound := hfound hpre
  have hone := hone hpre
  have hreq : o.require "open" [.preSearch] = .ok () := require_of_mem (by simp [hpre])
  have hnot : ¬ InTemp o := by simp [InTemp, hpre]
  -- what the search makes of the Object
  have hresult : ((o.open s).1.state = .missing ∧ (o.open s).1.name = o.name) ∨
      ∃ v, r.held o.name = some v ∧ (o.open s).1.toStat = v.stat := by
    have haddr : address { o with state := .inSearch }.toStat = ordinary o.name := rfl
    cases hheld : r.held o.name with
    | none =>
      have hload : load s (ordinary o.name) = .error .noEntry := by rw [hfound, hheld, reported]
      exact Or.inl (by simp only [Object.open, hreq, haddr, hload, and_self])
    | some v =>
      have hload : load s (ordinary o.name) = .ok v.stat := by rw [hfound, hheld, reported]
      exact Or.inr ⟨v, rfl, by simp only [Object.open, hreq, haddr, hload]⟩
  have hname : (o.open s).1.name = o.name := by
    rcases hresult with ⟨-, h⟩ | ⟨v, hv, hstat⟩
    · exact h
    · exact (congrArg Stat.name hstat).trans (hs.held _ v hv).1
  have hstate : (o.open s).1.state = .missing ∨ (o.open s).1.state = .active := by
    rcases hresult with ⟨h, -⟩ | ⟨v, hv, hstat⟩
    · exact Or.inl h
    · exact Or.inr ((congrArg Stat.state hstat).trans (hs.held _ v hv).2)
  refine ⟨fun i p hp => ?_, fun i v hv => ?_, hs.held, fun i j p q hp hq ha hb hn => ?_,
    fun i hi => ?_⟩
  · rcases heap_update hp with ⟨rfl, h⟩ | ⟨-, hp⟩
    · obtain rfl := Option.some.inj h
      refine ⟨?_, ?_, ?_, fun hactive => ?_⟩
      · rcases hstate with h | h <;> simp [h]
      · rcases hstate with h | h <;> simp [h]
      · rcases hstate with h | h <;> simp [h]
      · rcases hresult with ⟨h, -⟩ | ⟨v, hv, hstat⟩
        · rw [h] at hactive
          contradiction
        · exact ⟨v, hname ▸ hv, hstat.symm⟩
    · exact hs.drafts i p hp
  · obtain ⟨p, hp, hstat, htemp⟩ := hs.live i v hv
    have hi : i ≠ id := by
      rintro rfl
      obtain rfl := Option.some.inj (ho.symm.trans hp)
      exact hnot htemp
    exact ⟨p, (update_of_ne hi _ _).trans hp, hstat, htemp⟩
  · rcases heap_update hp with ⟨hi, h⟩ | ⟨-, hp'⟩
    · obtain rfl := Option.some.inj h
      rcases heap_update hq with ⟨hj, -⟩ | ⟨-, hq'⟩
      · exact hi.trans hj.symm
      · exact absurd (hn.symm.trans hname) (hone j q hq' hb)
    · rcases heap_update hq with ⟨-, h⟩ | ⟨-, hq'⟩
      · obtain rfl := Option.some.inj h
        exact absurd (hn.trans hname) (hone i p hp' ha)
      · exact hs.one i j p q hp' hq' ha hb hn
  · have hlt := hs.lt_fresh ho
    have hi : c.fresh ≤ i := hi
    exact (update_of_ne (by omega) _ _).trans (hs.fresh i hi)

/-- A version written for an Object that is not, or not yet, the holder. -/
theorem stands_setTemp {c : Core} {r : Record} (hs : Stands c r) {id : ℕ} {o o' : Object}
    (ho : c.heap id = some o) (hstate : o'.state = .inWrite)
    {v : Version} (hstat : v.stat = o'.toStat) (hlen : v.data.length = o'.written) (t : Txn) :
    Stands (c.prepared id o' t) (r.setTemp id (some v)) := by
  refine ⟨fun i p hp => ?_, fun i u hu => ?_, hs.held, fun i j p q hp hq ha hb hn => ?_,
    fun i hi => ?_⟩
  · rcases heap_update hp with ⟨rfl, h⟩ | ⟨hi, hp⟩
    · obtain rfl := Option.some.inj h
      refine ⟨by simp [hstate], fun _ => ⟨v, update_self .., hstat, hlen⟩, by simp [hstate],
        by simp [hstate]⟩
    · have hd := hs.drafts i p hp
      have htemp : (r.setTemp id (some v)).temp i = r.temp i := update_of_ne hi _ _
      exact ⟨by rw [htemp]; exact hd.unwritten, by rw [htemp]; exact hd.draft,
        by rw [htemp]; exact hd.retired, hd.holding⟩
  · by_cases hi : i = id
    · subst hi
      rw [Record.setTemp_self] at hu
      obtain rfl := Option.some.inj hu
      exact ⟨_, update_self .., hstat.symm, Or.inl hstate⟩
    · obtain ⟨p, hp, hpstat, htemp⟩ := hs.live i u ((update_of_ne hi _ _).symm.trans hu)
      exact ⟨p, (update_of_ne hi _ _).trans hp, hpstat, htemp⟩
  · have hold : ∀ k q, (c.prepared id o' t).heap k = some q → q.state = .active →
        c.heap k = some q := by
      intro k q hq hactive
      rcases heap_update hq with ⟨-, h⟩ | ⟨-, hq'⟩
      · obtain rfl := Option.some.inj h
        simp [hstate] at hactive
      · exact hq'
    exact hs.one i j p q (hold i p hp ha) (hold j q hq hb) ha hb hn
  · have hlt := hs.lt_fresh ho
    have hi : c.fresh ≤ i := hi
    exact (update_of_ne (by omega) _ _).trans (hs.fresh i hi)

theorem stands_write {c c' : Core} {r : Record} (hs : Stands c r) {id : ℕ} {o o' : Object}
    {data : Bytes} {ops : List Op} (ho : c.heap id = some o) (h : o.write data = .ok (o', ops))
    (hc : c' = c.prepared id o' ⟨o.name, ops, .write id o'.toStat data⟩) :
    Stands c' (r.apply (.write id o'.toStat data)) := by
  obtain ⟨hstate, rfl, -⟩ := write_ok h
  have hd := hs.drafts id o ho
  subst hc
  refine stands_setTemp hs ho rfl rfl ?_ _
  rcases hstate with hpre | hin
  · obtain ⟨hnone, hzero⟩ := hd.unwritten hpre
    simp [Record.draft, hnone, hzero]
  · obtain ⟨u, hu, -, hlen⟩ := hd.draft hin
    simp [Record.draft, hu, hlen]

/-- A metadata write, of a version being written or of the holder. -/
theorem stands_writeMetadata {c c' : Core} {r : Record} (hs : Stands c r) {id : ℕ}
    {o o₁ o' : Object} {data : Bytes} {ops : List Op} {t : Txn} (ho : c.heap id = some o)
    (hsame : o₁ = o ∨ o.state = .preWrite ∧ o₁ = { o with deleted := true })
    (h : o₁.writeMetadata data = .ok (o', ops)) (hc : c' = c.prepared id o' t) :
    Stands c' (r.apply (.header id o'.toStat data)) := by
  obtain ⟨hstate, rfl, -⟩ := writeMetadata_ok h
  have hd := hs.drafts id o ho
  subst hc
  have hpre : o₁.state = .preWrite → o.state = .preWrite ∧ o₁.written = 0 := by
    intro hpre
    rcases hsame with rfl | ⟨hold, rfl⟩
    · exact ⟨hpre, (hd.unwritten hpre).2⟩
    · exact ⟨hold, (hd.unwritten hold).2⟩
  have hlater : o₁.state ≠ .preWrite → o₁ = o := by
    intro hnot
    rcases hsame with rfl | ⟨hold, rfl⟩
    · rfl
    · exact absurd hold hnot
  rcases hstate with h | h | h
  · obtain ⟨hold, hzero⟩ := hpre h
    obtain ⟨hnone, -⟩ := hd.unwritten hold
    rw [if_pos h]
    refine stands_setTemp hs ho rfl rfl ?_ _
    simp [Record.draft, hnone, hzero]
  · obtain rfl := hlater (by simp [h])
    obtain ⟨u, hu, -, hlen⟩ := hd.draft h
    rw [if_neg (by simp [h])]
    have happly : r.apply (.header id o₁.toStat data) =
        r.setTemp id (some ⟨o₁.toStat, u.data, data⟩) := by
      simp only [Record.apply, Record.draft, hu, Option.getD_some, h, reduceCtorEq, if_false]
    rw [happly]
    exact stands_setTemp (v := ⟨o₁.toStat, u.data, data⟩) hs ho h rfl hlen _
  · obtain rfl := hlater (by simp [h])
    obtain ⟨u, hu, hstat⟩ := hd.holding h
    rw [if_neg (by simp [h])]
    have happly : r.apply (.header id o₁.toStat data) =
        r.setHeld o₁.name (some { u with header := data }) := by
      simp only [Record.apply, h, if_true, hu, Option.map_some]
    rw [happly]
    have hheld : ∀ n v, r.held n = some v →
        ∃ v', (r.setHeld o₁.name (some { u with header := data })).held n = some v' ∧
          v'.stat = v.stat := by
      intro n v hv
      by_cases hn : n = o₁.name
      · subst hn
        obtain rfl := Option.some.inj (hu.symm.trans hv)
        exact ⟨_, update_self .., rfl⟩
      · exact ⟨v, (update_of_ne hn _ _).trans hv, rfl⟩
    -- the Object itself stays as it was, apart from its latest transaction
    have hheap : ∀ i p, (c.prepared id o₁ t).heap i = some p →
        ∃ q, c.heap i = some q ∧ q.toStat = p.toStat ∧ q.written = p.written := by
      intro i p hp
      rcases heap_update hp with ⟨rfl, h⟩ | ⟨-, hp'⟩
      · obtain rfl := Option.some.inj h
        exact ⟨o₁, ho, rfl, rfl⟩
      · exact ⟨p, hp', rfl, rfl⟩
    refine ⟨fun i p hp => ?_, fun i v hv => ?_, fun n v hv => ?_,
      fun i j p q hp hq ha hb hn => ?_, fun i hi => ?_⟩
    · obtain ⟨q, hq, hqstat, hwritten⟩ := hheap i p hp
      have hd := hs.drafts i q hq
      have hstate : q.state = p.state := congrArg Stat.state hqstat
      have hname : q.name = p.name := congrArg Stat.name hqstat
      refine ⟨?_, ?_, ?_, ?_⟩
      · rw [← hstate, ← hwritten]
        exact hd.unwritten
      · rw [← hstate, ← hwritten, ← hqstat]
        exact hd.draft
      · rw [← hstate, ← hqstat]
        exact hd.retired
      · intro hactive
        obtain ⟨v, hv, hvstat⟩ := hd.holding (hstate.trans hactive)
        obtain ⟨v', hv', hsame⟩ := hheld _ v hv
        exact ⟨v', hname ▸ hv', hsame.trans (hvstat.trans hqstat)⟩
    · obtain ⟨p, hp, hpstat, htemp⟩ := hs.live i v hv
      by_cases hi : i = id
      · subst hi
        obtain rfl := Option.some.inj (ho.symm.trans hp)
        exact ⟨_, update_self .., hpstat, htemp⟩
      · exact ⟨p, (update_of_ne hi _ _).trans hp, hpstat, htemp⟩
    · by_cases hn : n = o₁.name
      · subst hn
        rw [Record.setHeld_self] at hv
        obtain rfl := Option.some.inj hv
        exact hs.held _ u hu
      · rw [Record.setHeld_of_ne _ _ hn] at hv
        exact hs.held n v hv
    · obtain ⟨p', hp', hpstat, -⟩ := hheap i p hp
      obtain ⟨q', hq', hqstat, -⟩ := hheap j q hq
      refine hs.one i j p' q' hp' hq' ?_ ?_ ?_
      · exact (congrArg Stat.state hpstat).trans ha
      · exact (congrArg Stat.state hqstat).trans hb
      · exact (congrArg Stat.name hpstat).trans (hn.trans (congrArg Stat.name hqstat).symm)
    · have hlt := hs.lt_fresh ho
      have hi : c.fresh ≤ i := hi
      exact (update_of_ne (by omega) _ _).trans (hs.fresh i hi)

/-- The name passes from the Object that stands for its holder to the next. -/
theorem stands_put {c : Core} {r : Record} (hs : Stands c r) {i j : ℕ} {n p n' p' : Object}
    {ts : Option ℕ} {ops : List Op} (hn : c.heap i = some n) (hp : c.heap j = some p)
    (h : Backend.put 0 n p ts = .ok (n', p', ops)) (hholds : Holds r p) (t : Txn) :
    Stands ({ c with heap := update c.heap j (some p') }.prepared i n' t)
      (r.apply (.put i j n.name (ts.getD n.ts))) := by
  obtain ⟨hin, hstate, hname, -, rfl, rfl, -⟩ := put_ok h
  obtain ⟨v, hv, hstat, -⟩ := (hs.drafts i n hn).draft hin
  have hnot : ¬ InTemp p := by rcases hstate with h | h <;> simp [InTemp, h]
  have hj : r.temp j = none := hs.not_temp hp hnot
  have hij : i ≠ j := by
    rintro rfl
    rw [hj] at hv
    contradiction
  rw [Record.apply_put hv hj]
  let r' := ((r.setTemp j ((r.held n.name).map Version.retired)).setTemp i none).setHeld n.name
    (some (v.placed (ts.getD n.ts)))
  let c' := { c with heap := update c.heap j (some (Backend.retire p)) }.prepared i
    (Backend.settle n (ts.getD n.ts)) t
  have htemp : ∀ k, k ≠ i → k ≠ j → r'.temp k = r.temp k := by
    intro k hki hkj
    simp only [r', Record.setHeld_temp, Record.setTemp_of_ne _ _ hki, Record.setTemp_of_ne _ _ hkj]
  have htempi : r'.temp i = none := by simp only [r', Record.setHeld_temp, Record.setTemp_self]
  have htempj : r'.temp j = (r.held n.name).map Version.retired := by
    simp only [r', Record.setHeld_temp, Record.setTemp_of_ne _ _ hij.symm, Record.setTemp_self]
  have hheld : ∀ m, m ≠ n.name → r'.held m = r.held m := by
    intro m hm
    simp only [r', Record.setHeld_of_ne _ _ hm, Record.setTemp_held]
  have hheldn : r'.held n.name = some (v.placed (ts.getD n.ts)) := by
    simp only [r', Record.setHeld_self]
  have hheap : ∀ k q, c'.heap k = some q →
      (k = i ∧ q.toStat = (Backend.settle n (ts.getD n.ts)).toStat) ∨
      (k = j ∧ q = Backend.retire p) ∨ (k ≠ i ∧ k ≠ j ∧ c.heap k = some q) := by
    intro k q hq
    rcases heap_update hq with ⟨rfl, h⟩ | ⟨hki, hq⟩
    · obtain rfl := Option.some.inj h
      exact Or.inl ⟨rfl, rfl⟩
    · rcases heap_update hq with ⟨rfl, h⟩ | ⟨hkj, hq⟩
      · exact Or.inr (Or.inl ⟨rfl, (Option.some.inj h).symm⟩)
      · exact Or.inr (Or.inr ⟨hki, hkj, hq⟩)
  have hother : ∀ k q, k ≠ j → c.heap k = some q → q.state = .active → q.name ≠ n.name := by
    intro k q hkj hq hactive heq
    obtain ⟨w, hw, -⟩ := (hs.drafts k q hq).holding hactive
    unfold Holds at hholds
    rw [← hname, ← heq, hw] at hholds
    exact hkj (hs.one k j q p hq hp hactive hholds.1 (heq.trans hname))
  have hretired : (Backend.retire p).state ≠ .active := by
    unfold Backend.retire
    split
    · simp
    · rename_i hna
      exact hna
  refine ⟨fun k q hq => ?_, fun k w hw => ?_, fun m w hw => ?_, fun k l q q' hq hq' ha hb hnm => ?_,
    fun k hk => ?_⟩
  · rcases hheap k q hq with ⟨rfl, hqstat⟩ | ⟨rfl, rfl⟩ | ⟨hki, hkj, hq⟩
    · have hqstate : q.state = .active := congrArg Stat.state hqstat
      refine ⟨by simp [hqstate], by simp [hqstate], by simp [hqstate], fun _ => ?_⟩
      have hqname : q.name = n.name := by rw [hqstat]; rfl
      refine ⟨_, hqname ▸ hheldn, ?_⟩
      rw [hqstat]
      simp only [Version.placed, hstat, Backend.settle]
    · rcases hstate with hactive | hmiss
      · have hold : (Backend.retire p).toStat = { p.toStat with state := .old } := by
          simp only [Backend.retire, hactive, if_true]
        have hostate : (Backend.retire p).state = .old := congrArg Stat.state hold
        refine ⟨by simp [hostate], by simp [hostate], fun _ => ?_, by simp [hostate]⟩
        obtain ⟨u, hu, hustat⟩ := (hs.drafts k p hp).holding hactive
        refine ⟨u.retired, ?_, ?_⟩
        · rw [htempj, hname, hu, Option.map_some]
        · rw [hold]
          simp only [Version.retired, hustat]
      · have hsame : Backend.retire p = p := by simp [Backend.retire, hmiss]
        rw [hsame]
        exact ⟨by simp [hmiss], by simp [hmiss], by simp [hmiss], by simp [hmiss]⟩
    · have hd := hs.drafts k q hq
      refine ⟨?_, ?_, ?_, fun hactive => ?_⟩
      · rw [htemp k hki hkj]
        exact hd.unwritten
      · rw [htemp k hki hkj]
        exact hd.draft
      · rw [htemp k hki hkj]
        exact hd.retired
      · rw [hheld _ (hother k q hkj hq hactive)]
        exact hd.holding hactive
  · by_cases hki : k = i
    · subst hki
      rw [htempi] at hw
      contradiction
    by_cases hkj : k = j
    · subst hkj
      rw [htempj] at hw
      obtain ⟨u, hu, rfl⟩ := Option.map_eq_some_iff.mp hw
      rw [hname] at hu
      unfold Holds at hholds
      rw [hu] at hholds
      have hret : Backend.retire p = { p with state := .old } := by
        simp only [Backend.retire, hholds.1, if_true]
      refine ⟨Backend.retire p, (update_of_ne hki _ _).trans (update_self ..), ?_, Or.inr ?_⟩
      · rw [hret]
        simp only [Version.retired, ← hholds.2]
      · rw [hret]
    · rw [htemp k hki hkj] at hw
      obtain ⟨q, hq, hqstat, hqtemp⟩ := hs.live k w hw
      exact ⟨q, (update_of_ne hki _ _).trans ((update_of_ne hkj _ _).trans hq), hqstat, hqtemp⟩
  · by_cases hm : m = n.name
    · subst hm
      rw [hheldn] at hw
      obtain rfl := Option.some.inj hw
      exact ⟨by simp only [Version.placed, hstat], rfl⟩
    · rw [hheld m hm] at hw
      exact hs.held m w hw
  · rcases hheap k q hq with ⟨hk, hqstat⟩ | ⟨-, rfl⟩ | ⟨-, hkj, hq⟩
    · have hqname : q.name = n.name := by rw [hqstat]; rfl
      rcases hheap l q' hq' with ⟨hl, -⟩ | ⟨-, rfl⟩ | ⟨-, hlj, hq'⟩
      · exact hk.trans hl.symm
      · exact absurd hb hretired
      · exact absurd (hnm.symm.trans hqname) (hother l q' hlj hq' hb)
    · exact absurd ha hretired
    · rcases hheap l q' hq' with ⟨-, hqstat⟩ | ⟨-, rfl⟩ | ⟨-, -, hq'⟩
      · have hqname : q'.name = n.name := by rw [hqstat]; rfl
        exact absurd (hnm.trans hqname) (hother k q hkj hq ha)
      · exact absurd hb hretired
      · exact hs.one k l q q' hq hq' ha hb hnm
  · have hlt := hs.lt_fresh hn
    have hlt' := hs.lt_fresh hp
    have hk : c.fresh ≤ k := hk
    exact (update_of_ne (by omega) _ _).trans ((update_of_ne (by omega) _ _).trans (hs.fresh k hk))

/-- An Object that goes takes its version along, unless it is the holder. -/
theorem stands_release {c : Core} {r : Record} (hs : Stands c r) {id : ℕ} {o : Object}
    (ho : c.heap id = some o) :
    Stands (c.release id)
      (match o.release with
        | none => r
        | some _ => r.apply (.remove id)) := by
  have hheap : (c.release id).heap = update c.heap id none := by
    simp only [Core.release, ho]
  have hfresh : (c.release id).fresh = c.fresh := by simp only [Core.release, ho]
  let r' := match o.release with
    | none => r
    | some _ => r.apply (.remove id)
  have htemp : ∀ k, k ≠ id → r'.temp k = r.temp k := by
    intro k hk
    simp only [r']
    split
    · rfl
    · exact Record.setTemp_of_ne _ _ hk
  have hheld : r'.held = r.held := by
    simp only [r']
    split <;> rfl
  have hgone : r'.temp id = none := by
    simp only [r']
    split
    · rename_i hrel
      refine hs.not_temp ho fun hin => ?_
      have hin : o.state = .inWrite ∨ o.state = .old := hin
      unfold Object.release at hrel
      rw [if_pos hin] at hrel
      contradiction
    · exact Record.setTemp_self ..
  have hold : ∀ {k q}, (c.release id).heap k = some q → k ≠ id ∧ c.heap k = some q := by
    intro k q hq
    rw [hheap] at hq
    rcases heap_update hq with ⟨-, h⟩ | h
    · contradiction
    · exact h
  change Stands (c.release id) r'
  refine ⟨fun k q hq => ?_, fun k w hw => ?_, hheld ▸ hs.held, fun k l q q' hq hq' => ?_,
    fun k hk => ?_⟩
  · obtain ⟨hk, hq⟩ := hold hq
    have hd := hs.drafts k q hq
    exact ⟨by rw [htemp k hk]; exact hd.unwritten, by rw [htemp k hk]; exact hd.draft,
      by rw [htemp k hk]; exact hd.retired, by rw [hheld]; exact hd.holding⟩
  · have hk : k ≠ id := by
      rintro rfl
      rw [hgone] at hw
      contradiction
    rw [htemp k hk] at hw
    obtain ⟨q, hq, hqstat, hqtemp⟩ := hs.live k w hw
    rw [hheap]
    exact ⟨q, (update_of_ne hk _ _).trans hq, hqstat, hqtemp⟩
  · exact hs.one k l q q' (hold hq).2 (hold hq').2
  · rw [hfresh] at hk
    rw [hheap]
    by_cases hid : k = id
    · subst hid
      exact update_self ..
    · exact (update_of_ne hid _ _).trans (hs.fresh k hk)

end Swiftacular.LiveObjects
