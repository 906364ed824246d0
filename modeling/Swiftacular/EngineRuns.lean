import Swiftacular.Versions

/-!
The engine as it runs: the live Objects, the clock behind `estimate`, the log
of every transaction prepared so far and how much of it has been handed to the
store. A call that fails changes nothing.
-/
namespace Swiftacular.EngineRuns

open Function EntryStore EngineObjects Versions StepRuns

def opsOf (log : List Txn) : List Op := log.flatMap Txn.ops

@[simp] theorem opsOf_concat (log : List Txn) (t : Txn) : opsOf (log ++ [t]) = opsOf log ++ t.ops := by
  simp [opsOf]

theorem opsOf_append (log more : List Txn) : opsOf (log ++ more) = opsOf log ++ opsOf more :=
  List.flatMap_append

/-- The Objects by number, the next number, the last estimate and the log. -/
structure Core where
  heap : ℕ → Option Object
  fresh : ℕ
  last : UInt64
  log : List Txn

namespace Core

/-- An estimate is taken even where a timestamp is given. -/
def create (c : Core) (name : Name) (ts : Option ℕ) (us : UInt64) : Core :=
  let now := estimate c.last us
  { c with
    heap := update c.heap c.fresh (some (Backend.create 0 name (ts.getD now.toNat)))
    fresh := c.fresh + 1
    last := now }

def find (c : Core) (name : Name) : Core :=
  { c with
    heap := update c.heap c.fresh (some (Backend.find 0 name))
    fresh := c.fresh + 1 }

def «open» (c : Core) (s : Store) (id : ℕ) : Core × Except Error Unit :=
  match c.heap id with
  | none => (c, .ok ())
  | some o => ({ c with heap := update c.heap id (some (o.open s).1) }, (o.open s).2)

/-- `prepare`: the Object's latest transaction is now this one. -/
def prepared (c : Core) (id : ℕ) (o : Object) (t : Txn) : Core :=
  { c with
    heap := update c.heap id (some { o with done := some c.log.length })
    log := c.log ++ [t] }

def write (c : Core) (id : ℕ) (data : Bytes) : Except Error Core :=
  match c.heap id with
  | none => .ok c
  | some o => do
      let (o', ops) ← o.write data
      pure (c.prepared id o' ⟨o.name, ops, .write id o'.toStat data⟩)

def writeMetadata (c : Core) (id : ℕ) (data : Bytes) : Except Error Core :=
  match c.heap id with
  | none => .ok c
  | some o => do
      let (o', ops) ← o.writeMetadata data
      pure (c.prepared id o' ⟨o.name, ops, .header id o'.toStat data⟩)

def tombstone (c : Core) (id : ℕ) (data : Bytes) : Except Error Core :=
  match c.heap id with
  | none => .ok c
  | some o => do
      let (o', ops) ← o.tombstone data
      pure (c.prepared id o' ⟨o.name, ops, .header id o'.toStat data⟩)

def put (c : Core) (next prev : ℕ) (ts : Option ℕ) : Except Error Core :=
  match c.heap next, c.heap prev with
  | some n, some p => do
      let (n', p', ops) ← Backend.put 0 n p ts
      pure ({ c with heap := update c.heap prev (some p') }.prepared next n'
        ⟨n.name, ops, .put next prev n.name (ts.getD n.ts)⟩)
  | _, _ => .ok c

def release (c : Core) (id : ℕ) : Core :=
  match c.heap id with
  | none => c
  | some o =>
      { c with
        heap := update c.heap id none
        log := match o.release with
          | none => c.log
          | some ops => c.log ++ [⟨o.name, ops, .remove id⟩] }

end Core

structure Engine where
  core : Core
  handed : ℕ
  store : Store

def Engine.queue (s : Engine) : List Txn := s.core.log.drop s.handed

def Engine.start (store : Store) (last : UInt64) : Engine :=
  ⟨⟨fun _ => none, 0, last, []⟩, 0, store⟩

inductive Call
  | create (name : Name) (ts : Option ℕ) (us : UInt64)
  | find (name : Name)
  | open (id : ℕ)
  | write (id : ℕ) (data : Bytes)
  | writeMetadata (id : ℕ) (data : Bytes)
  | tombstone (id : ℕ) (data : Bytes)
  | put (next prev : ℕ) (ts : Option ℕ)
  | submit
  | release (id : ℕ)
  deriving DecidableEq

/-- A call that throws leaves the engine as it was. -/
def Engine.attempt (s : Engine) : Except Error Core → Option Engine
  | .ok core => some { s with core }
  | .error _ => some s

/-- One call; `none` is a process the store stopped. -/
def Engine.step (s : Engine) : Call → Option Engine
  | .create name ts us => some { s with core := s.core.create name ts us }
  | .find name => some { s with core := s.core.find name }
  | .open id => some { s with core := (s.core.open s.store id).1 }
  | .write id data => s.attempt (s.core.write id data)
  | .writeMetadata id data => s.attempt (s.core.writeMetadata id data)
  | .tombstone id data => s.attempt (s.core.tombstone id data)
  | .put next prev ts => s.attempt (s.core.put next prev ts)
  | .submit =>
      match applyAll s.store (opsOf s.queue) with
      | none => none
      | some store => some { s with handed := s.core.log.length, store }
  | .release id => some { s with core := s.core.release id }

abbrev Engine.run (s : Engine) (calls : List Call) : Option Engine :=
  StepRuns.run Engine.step s calls

/-- Every call of a run meets a condition in the state it is made in. -/
abbrev Keeps (P : Engine → Call → Prop) (s : Engine) (calls : List Call) : Prop :=
  Along Engine.step P s calls

/-- The Objects of a name that have an entry in the temporary space. -/
def InTemp (o : Object) : Prop := o.state = .inWrite ∨ o.state = .old

/-- The Objects that can still be written. -/
def Writing (o : Object) : Prop := o.state = .preWrite ∨ o.state = .inWrite

instance (o : Object) : Decidable (InTemp o) := inferInstanceAs (Decidable (_ ∨ _))

/-- No two live Objects of a name share a temporary address. -/
def Apart (c : Core) : Prop :=
  ∀ i j o p, c.heap i = some o → c.heap j = some p → InTemp o → InTemp p → o.name = p.name →
    o.ts = p.ts → i = j

/-- An Object stands for what holds its name. -/
def Holds (r : Record) (o : Object) : Prop :=
  match r.held o.name with
  | none => o.state = .missing
  | some v => o.state = .active ∧ o.toStat = v.stat

theorem Holds.same {r r' : Record} {o : Object} (h : Holds r o)
    (hheld : r'.held o.name = r.held o.name) : Holds r' o := by
  unfold Holds at h ⊢
  rwa [hheld]

theorem heap_update {f : ℕ → Option Object} {id i : ℕ} {o : Option Object} {p : Object}
    (h : update f id o i = some p) : i = id ∧ o = some p ∨ i ≠ id ∧ f i = some p := by
  by_cases hi : i = id
  · subst hi
    rw [update_self] at h
    exact Or.inl ⟨rfl, h⟩
  · rw [update_of_ne hi] at h
    exact Or.inr ⟨hi, h⟩

/-- Every Object has a number below the next one. -/
def Numbered (c : Core) : Prop := ∀ id, c.fresh ≤ id → c.heap id = none

/-- The live Objects with their numbers. -/
def Core.objects (c : Core) : List (ℕ × Object) :=
  (List.range c.fresh).filterMap fun id => (c.heap id).map fun o => (id, o)

theorem mem_objects {c : Core} (hc : Numbered c) {id : ℕ} {o : Object} :
    (id, o) ∈ c.objects ↔ c.heap id = some o := by
  simp only [Core.objects, List.mem_filterMap, List.mem_range, Option.map_eq_some_iff,
    Prod.mk.injEq]
  constructor
  · rintro ⟨i, -, o', ho, rfl, rfl⟩
    exact ho
  · intro ho
    refine ⟨id, ?_, o, ho, rfl, rfl⟩
    by_contra hge
    rw [hc id (by omega)] at ho
    contradiction

/-- `Apart`, over the list of the live Objects. -/
def Core.apart (c : Core) : Bool :=
  c.objects.all fun x => c.objects.all fun y =>
    !(InTemp x.2 && InTemp y.2 && x.2.name = y.2.name && x.2.ts = y.2.ts) || x.1 = y.1

theorem apart_iff {c : Core} (hc : Numbered c) : c.apart = true ↔ Apart c := by
  simp only [Core.apart, List.all_eq_true, Prod.forall, mem_objects hc, Bool.or_eq_true,
    Bool.not_eq_true', Bool.and_eq_false_iff, decide_eq_true_eq, decide_eq_false_iff_not]
  constructor
  · intro h i j o p ho hp htemp htemp' hname hts
    simpa [htemp, htemp', hname, hts] using h i o ho j p hp
  · intro h i o ho j p hp
    by_cases htemp : InTemp o ∧ InTemp p ∧ o.name = p.name ∧ o.ts = p.ts
    · exact Or.inr (h i j o p ho hp htemp.1 htemp.2.1 htemp.2.2.1 htemp.2.2.2)
    · left
      tauto

/-! What each call on an Object comes to, for the proofs that never unfold it. -/

theorem write_cases {c c' : Core} {id : ℕ} {data : Bytes} (h : c.write id data = .ok c') :
    c' = c ∨ ∃ o o' ops, c.heap id = some o ∧ o.write data = .ok (o', ops) ∧
      c' = c.prepared id o' ⟨o.name, ops, .write id o'.toStat data⟩ := by
  unfold Core.write at h
  split at h
  · exact Or.inl (Except.ok.inj h).symm
  · rename_i o ho
    obtain ⟨⟨o', ops⟩, hcall, heq⟩ := bind_ok.mp h
    exact Or.inr ⟨o, o', ops, ho, hcall, (Except.ok.inj heq).symm⟩

theorem writeMetadata_cases {c c' : Core} {id : ℕ} {data : Bytes}
    (h : c.writeMetadata id data = .ok c') :
    c' = c ∨ ∃ o o' ops, c.heap id = some o ∧ o.writeMetadata data = .ok (o', ops) ∧
      c' = c.prepared id o' ⟨o.name, ops, .header id o'.toStat data⟩ := by
  unfold Core.writeMetadata at h
  split at h
  · exact Or.inl (Except.ok.inj h).symm
  · rename_i o ho
    obtain ⟨⟨o', ops⟩, hcall, heq⟩ := bind_ok.mp h
    exact Or.inr ⟨o, o', ops, ho, hcall, (Except.ok.inj heq).symm⟩

/-- A tombstone is the metadata write of an Object already marked deleted. -/
theorem tombstone_cases {c c' : Core} {id : ℕ} {data : Bytes} (h : c.tombstone id data = .ok c') :
    c' = c ∨ ∃ o o' ops, c.heap id = some o ∧ o.state = .preWrite ∧
      { o with deleted := true }.writeMetadata data = .ok (o', ops) ∧
      c' = c.prepared id o' ⟨o.name, ops, .header id o'.toStat data⟩ := by
  unfold Core.tombstone at h
  split at h
  · exact Or.inl (Except.ok.inj h).symm
  · rename_i o ho
    obtain ⟨⟨o', ops⟩, hcall, heq⟩ := bind_ok.mp h
    obtain ⟨_, hreq, hmeta⟩ := bind_ok.mp hcall
    have hstate := require_ok hreq
    simp only [List.mem_cons, List.not_mem_nil, or_false] at hstate
    exact Or.inr ⟨o, o', ops, ho, hstate, hmeta, (Except.ok.inj heq).symm⟩

/-- A search, by what its look at the store comes to. -/
theorem open_find (s : Store) (name : Name) :
    (Backend.find 0 name).open s = match load s (ordinary name) with
      | .error .noEntry => ({ Backend.find 0 name with state := .missing }, .ok ())
      | .error .undecodable =>
          ({ Backend.find 0 name with state := .inSearch }, .error (.unreadable "open" name))
      | .ok stored => ({ Backend.find 0 name with toStat := stored }, .ok ()) := rfl

theorem load_held {s : Store} {name : Name} {e : Entry Attrs} {k : Attrs}
    (hs : s (ordinary name) = some e) (hk : e.attrs = some k) :
    load s (ordinary name) = .ok ⟨name, k.ts, k.deleted, .active⟩ := by
  simp only [load, hs, hk]
  rfl

theorem find_held {s : Store} {name : Name} {e : Entry Attrs} {k : Attrs}
    (hs : s (ordinary name) = some e) (hk : e.attrs = some k) :
    (Backend.find 0 name).open s =
      ({ Backend.find 0 name with toStat := ⟨name, k.ts, k.deleted, .active⟩ }, .ok ()) := by
  rw [open_find, load_held hs hk]

/-- A search ends with what holds the name, or with nothing. -/
theorem open_state (s : Store) (o : Object) :
    (o.open s).1 = o ∨ o.state = .preSearch ∧
      ((o.open s).1.state = .inSearch ∨ (o.open s).1.state = .missing ∨
        (o.open s).1.state = .active) := by
  by_cases hpre : o.state = .preSearch
  · have hreq : o.require "open" [.preSearch] = .ok () := require_of_mem (by simp [hpre])
    have haddr : address { o with state := .inSearch }.toStat = ordinary o.name := rfl
    refine Or.inr ⟨hpre, ?_⟩
    cases hload : load s (ordinary o.name) with
    | error e =>
      cases e with
      | noEntry =>
        right
        left
        simp only [Object.open, hreq, haddr, hload]
      | undecodable =>
        left
        simp only [Object.open, hreq, haddr, hload]
    | ok stored =>
      have hstate : stored.state = .active := by
        unfold load at hload
        split at hload
        · contradiction
        · split at hload
          · contradiction
          · rw [← Except.ok.inj hload]
            simp [ordinary]
      right
      right
      simp only [Object.open, hreq, haddr, hload, hstate]
  · have hreq : o.require "open" [.preSearch] = .error (.state "open" o.name o.state) :=
      require_error (by simpa using hpre)
    exact Or.inl (by simp only [Object.open, hreq])

theorem put_cases {c c' : Core} {i j : ℕ} {ts : Option ℕ} (h : c.put i j ts = .ok c') :
    c' = c ∨ ∃ n p n' p' ops, c.heap i = some n ∧ c.heap j = some p ∧
      Backend.put 0 n p ts = .ok (n', p', ops) ∧
      c' = { c with heap := update c.heap j (some p') }.prepared i n'
        ⟨n.name, ops, .put i j n.name (ts.getD n.ts)⟩ := by
  unfold Core.put at h
  split at h
  · rename_i n p hn hp
    obtain ⟨⟨n', p', ops⟩, hcall, heq⟩ := bind_ok.mp h
    exact Or.inr ⟨n, p, n', p', ops, hn, hp, hcall, (Except.ok.inj heq).symm⟩
  · exact Or.inl (Except.ok.inj h).symm

theorem attempt_cases {s t : Engine} {r : Except Error Core} (h : s.attempt r = some t) :
    t = s ∨ ∃ c, r = .ok c ∧ t = { s with core := c } := by
  unfold Engine.attempt at h
  split at h
  · rename_i c
    exact Or.inr ⟨c, rfl, (Option.some.inj h).symm⟩
  · exact Or.inl (Option.some.inj h).symm

/-- A call on a live Object leaves its number below the next one. -/
theorem numbered_update {c : Core} (hc : Numbered c) {id : ℕ} {o : Object}
    (ho : c.heap id = some o) (o' : Option Object) :
    Numbered { c with heap := update c.heap id o' } := by
  intro i hi
  have hne : i ≠ id := by
    rintro rfl
    rw [hc i hi] at ho
    contradiction
  exact (update_of_ne hne _ _).trans (hc i hi)

theorem numbered_step {s t : Engine} {call : Call} (hs : Numbered s.core)
    (h : s.step call = some t) : Numbered t.core := by
  have hnew : ∀ (o : Object) (last : UInt64), Numbered { s.core with
      heap := update s.core.heap s.core.fresh (some o), fresh := s.core.fresh + 1, last } := by
    intro o last i hi
    have hi : s.core.fresh + 1 ≤ i := hi
    exact (update_of_ne (by omega) _ _).trans (hs i (by omega))
  cases call with
  | create name ts us =>
    obtain rfl := Option.some.inj h
    exact hnew _ _
  | find name =>
    obtain rfl := Option.some.inj h
    exact hnew _ _
  | «open» id =>
    obtain rfl := Option.some.inj h
    dsimp only [Core.open]
    split
    · exact hs
    · rename_i o ho
      exact numbered_update hs ho _
  | write id data =>
    rcases attempt_cases h with rfl | ⟨c, hc, rfl⟩
    · exact hs
    rcases write_cases hc with rfl | ⟨o, o', ops, ho, -, rfl⟩
    · exact hs
    · exact numbered_update hs ho _
  | writeMetadata id data =>
    rcases attempt_cases h with rfl | ⟨c, hc, rfl⟩
    · exact hs
    rcases writeMetadata_cases hc with rfl | ⟨o, o', ops, ho, -, rfl⟩
    · exact hs
    · exact numbered_update hs ho _
  | tombstone id data =>
    rcases attempt_cases h with rfl | ⟨c, hc, rfl⟩
    · exact hs
    rcases tombstone_cases hc with rfl | ⟨o, o', ops, ho, -, -, rfl⟩
    · exact hs
    · exact numbered_update hs ho _
  | put next prev ts =>
    rcases attempt_cases h with rfl | ⟨c, hc, rfl⟩
    · exact hs
    rcases put_cases hc with rfl | ⟨n, p, n', p', ops, hn, hp, hput, rfl⟩
    · exact hs
    · have hne : next ≠ prev := by
        rintro rfl
        obtain rfl := Option.some.inj (hn.symm.trans hp)
        obtain ⟨hin, hstate, -⟩ := put_ok hput
        rcases hstate with h | h <;> simp [h] at hin
      exact numbered_update (numbered_update hs hp _) ((update_of_ne hne _ _).trans hn) _
  | submit =>
    unfold Engine.step at h
    dsimp only at h
    split at h
    · contradiction
    · obtain rfl := Option.some.inj h
      exact hs
  | release id =>
    obtain rfl := Option.some.inj h
    dsimp only [Core.release]
    split
    · exact hs
    · rename_i o ho
      exact numbered_update hs ho _

/-- Only a submit can stop the process. -/
theorem step_exists (s : Engine) {call : Call}
    (h : call = .submit → (applyAll s.store (opsOf s.queue)).isSome) : ∃ t, s.step call = some t := by
  have hattempt : ∀ r, ∃ t, s.attempt r = some t := by
    intro r
    unfold Engine.attempt
    split <;> exact ⟨_, rfl⟩
  cases call with
  | submit =>
    obtain ⟨store, hstore⟩ := Option.isSome_iff_exists.mp (h rfl)
    exact ⟨{ s with handed := s.core.log.length, store }, by simp only [Engine.step, hstore]⟩
  | write id data => exact hattempt _
  | writeMetadata id data => exact hattempt _
  | tombstone id data => exact hattempt _
  | put next prev ts => exact hattempt _
  | create name ts us => exact ⟨_, rfl⟩
  | find name => exact ⟨_, rfl⟩
  | «open» id => exact ⟨_, rfl⟩
  | release id => exact ⟨_, rfl⟩

theorem numbered_run {s t : Engine} {calls : List Call} (hs : Numbered s.core)
    (h : s.run calls = some t) : Numbered t.core :=
  run_keeps (I := fun e => Numbered e.core) (fun _ _ _ => numbered_step) hs h

end Swiftacular.EngineRuns
