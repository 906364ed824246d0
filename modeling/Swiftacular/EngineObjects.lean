import Swiftacular.EntryStore
import Swiftacular.StepRuns

/-!
The engine's Objects and the calls on them. A call that changes the store
returns the Object as the call leaves it and the changes of the transaction
it prepares; nothing here hands a transaction over. A call that fails
returns its error before it has changed anything, except a search that meets
an entry it cannot decode, which stays unfinished.
-/
namespace Swiftacular.EngineObjects

open EntryStore
open StepRuns (bind_ok)

abbrev Name := String

inductive State
  | preSearch | inSearch | missing | preWrite | inWrite | active | old
  deriving DecidableEq

def stateName : State → String
  | .preSearch => "PRE_SEARCH"
  | .inSearch => "IN_SEARCH"
  | .missing => "MISSING"
  | .preWrite => "PRE_WRITE"
  | .inWrite => "IN_WRITE"
  | .active => "ACTIVE"
  | .old => "OLD"

structure Stat where
  name : Name
  ts : ℕ
  deleted : Bool
  state : State
  deriving DecidableEq

inductive Error
  | state (op : String) (name : Name) (state : State)
  | changed (op : String) (name : Name) (ts : ℕ)
  | conflict (op : String) (name : Name) (next prev : ℕ)
  | invalidArgument (next prev : Name)
  | unreadable (op : String) (name : Name)
  deriving DecidableEq

/-- The texts of the exceptions; a decoding failure carries Ceph's own text. -/
def Error.what : Error → String
  | .state op name s => op ++ ": " ++ name ++ " is " ++ stateName s
  | .changed op name ts => op ++ ": " ++ name ++ " " ++ toString ts ++ " has changed"
  | .conflict op name next prev =>
      op ++ ": " ++ name ++ " " ++ toString next ++ " is not newer than " ++ toString prev
  | .invalidArgument next prev => "put: " ++ next ++ " cannot replace " ++ prev
  | .unreadable op name => op ++ ": " ++ name

inductive Space
  | temporary | ordinary
  deriving DecidableEq

structure Address where
  space : Space
  name : Name
  generation : ℕ
  deriving DecidableEq

structure Attrs where
  ts : ℕ
  deleted : Bool
  old : Bool
  deriving DecidableEq

abbrev Store := EntryStore.Store Address Attrs
abbrev Op := EntryStore.Op Address Attrs

def temporary (name : Name) (ts : ℕ) : Address := ⟨.temporary, name, ts⟩

def ordinary (name : Name) : Address := ⟨.ordinary, name, 0⟩

def State.temp : State → Bool
  | .preWrite | .inWrite | .old => true
  | _ => false

def address (stat : Stat) : Address :=
  if stat.state.temp then temporary stat.name stat.ts else ordinary stat.name

def save (stat : Stat) : Op :=
  .setattrs (address stat) ⟨stat.ts, stat.deleted, stat.state = .old⟩

inductive LoadError
  | noEntry | undecodable
  deriving DecidableEq

/-- The state is not stored: it follows from the address and the old flag. -/
def load (s : Store) (oid : Address) : Except LoadError Stat :=
  match s oid with
  | none => .error .noEntry
  | some e =>
      match e.attrs with
      | none => .error .undecodable
      | some a => .ok {
          name := oid.name
          ts := a.ts
          deleted := a.deleted
          state := if oid.space = .ordinary then .active
            else if a.old then .old else .inWrite }

/-- `found` is whether the look before this one met an entry. -/
def check (op : String) (s : Store) (oid : Address) (stat : Stat) (found : Bool) :
    Except Error Unit :=
  if found then
    match load s oid with
    | .error .noEntry => .error (.changed op stat.name stat.ts)
    | .error .undecodable => .error (.unreadable op stat.name)
    | .ok stored =>
        if stored.ts ≠ stat.ts then .error (.changed op stat.name stat.ts) else .ok ()
  else .error (.changed op stat.name stat.ts)

/-- `back` is the Backend the Object belongs to, `written` the length of its
data so far and `done` the place in the queue of its latest transaction. -/
structure Object extends Stat where
  back : ℕ
  written : ℕ
  done : Option ℕ
  deriving DecidableEq

namespace Object

def require (op : String) (allowed : List State) (o : Object) : Except Error Unit :=
  if o.state ∈ allowed then .ok () else .error (.state op o.name o.state)

/-- The Object after the call, and whether the call failed. -/
def «open» (s : Store) (o : Object) : Object × Except Error Unit :=
  match o.require "open" [.preSearch] with
  | .error e => (o, .error e)
  | .ok () =>
      let searching := { o with state := .inSearch }
      match load s (address searching.toStat) with
      | .error .noEntry => ({ searching with state := .missing }, .ok ())
      | .error .undecodable => (searching, .error (.unreadable "open" o.name))
      | .ok stored => ({ searching with toStat := stored }, .ok ())

def write (o : Object) (data : Bytes) : Except Error (Object × List Op) := do
  o.require "write" [.preWrite, .inWrite]
  let oid := address o.toStat
  let next := { o with state := .inWrite }
  let start : List Op := if o.state = .preWrite then [.touch oid, save next.toStat] else []
  pure ({ next with written := o.written + data.length },
    start ++ [.write oid o.written data])

def writeMetadata (o : Object) (data : Bytes) : Except Error (Object × List Op) := do
  o.require "write_metadata" [.preWrite, .inWrite, .active]
  let oid := address o.toStat
  let next := if o.state = .preWrite then { o with state := .inWrite } else o
  let start : List Op := if o.state = .preWrite then [.touch oid] else []
  pure (next, start ++ [.setheader oid data, save next.toStat])

def tombstone (o : Object) (data : Bytes) : Except Error (Object × List Op) := do
  o.require "tombstone" [.preWrite]
  { o with deleted := true }.writeMetadata data

/-- The destructor: only what nothing can find again has an entry to remove. -/
def release (o : Object) : Option (List Op) :=
  if o.state = .inWrite ∨ o.state = .old then some [.remove (address o.toStat)] else none

end Object

def ticksPerSecond : UInt64 := 100000

/-- The next estimate, from the last one and the clock in microseconds. -/
def estimate (last us : UInt64) : UInt64 := max (us / (1000000 / ticksPerSecond)) (last + 1)

namespace Backend

def create (p : ℕ) (name : Name) (ts : ℕ) : Object :=
  { name, ts, deleted := false, state := .preWrite, back := p, written := 0, done := none }

def find (p : ℕ) (name : Name) : Object :=
  { name, ts := 0, deleted := false, state := .preSearch, back := p, written := 0, done := none }

/-- What `put` makes of `prev`: the holder is retired, a MISSING Object stays. -/
def retire (prev : Object) : Object :=
  if prev.state = .active then { prev with state := .old } else prev

/-- What `put` makes of `next`. -/
def settle (next : Object) (ts : ℕ) : Object := { next with state := .active, ts }

/-- The transaction of a `put`: the holder moves out before the next moves in. -/
def handOverOps (next prev : Object) (settled : ℕ) : List Op :=
  let retired := retire prev
  let moveOut : List Op :=
    if prev.state = .active then
      [.rename (address prev.toStat) (address retired.toStat), save retired.toStat]
    else []
  let placed := settle next settled
  moveOut ++ [.rename (address next.toStat) (address placed.toStat), save placed.toStat]

/-- `next` and `prev` as the call leaves them, in that order. -/
def put (p : ℕ) (next prev : Object) (ts : Option ℕ) :
    Except Error (Object × Object × List Op) := do
  next.require "put" [.inWrite]
  prev.require "put" [.active, .missing]
  let settled := ts.getD next.ts
  if next.name ≠ prev.name ∨ next.back ≠ p ∨ prev.back ≠ p then
    .error (.invalidArgument next.name prev.name)
  else if settled ≤ prev.ts then .error (.conflict "put" next.name settled prev.ts)
  else .ok (settle next settled, retire prev, handOverOps next prev settled)

end Backend

/-! What each call asks for and does, for the callers that never unfold it. -/

theorem require_ok {op : String} {allowed : List State} {o : Object}
    (h : o.require op allowed = .ok ()) : o.state ∈ allowed := by
  unfold Object.require at h
  split at h
  · assumption
  · contradiction

theorem require_of_mem {op : String} {allowed : List State} {o : Object}
    (h : o.state ∈ allowed) : o.require op allowed = .ok () := by
  simp only [Object.require, h, if_true]

theorem require_error {op : String} {allowed : List State} {o : Object}
    (h : o.state ∉ allowed) : o.require op allowed = .error (.state op o.name o.state) := by
  simp only [Object.require, h, if_false]

theorem write_ok {o o' : Object} {data : Bytes} {ops : List Op}
    (h : o.write data = .ok (o', ops)) :
    (o.state = .preWrite ∨ o.state = .inWrite) ∧
      o' = { o with state := .inWrite, written := o.written + data.length } ∧
      ops = (if o.state = .preWrite then
          [.touch (address o.toStat), save { o with state := .inWrite }.toStat] else []) ++
        [.write (address o.toStat) o.written data] := by
  obtain ⟨_, hreq, heq⟩ := bind_ok.mp h
  have hstate := require_ok hreq
  simp only [List.mem_cons, List.not_mem_nil, or_false] at hstate
  simp only [pure, Except.pure, Except.ok.injEq, Prod.mk.injEq] at heq
  exact ⟨hstate, heq.1.symm, heq.2.symm⟩

theorem writeMetadata_ok {o o' : Object} {data : Bytes} {ops : List Op}
    (h : o.writeMetadata data = .ok (o', ops)) :
    (o.state = .preWrite ∨ o.state = .inWrite ∨ o.state = .active) ∧
      o' = (if o.state = .preWrite then { o with state := .inWrite } else o) ∧
      ops = (if o.state = .preWrite then [.touch (address o.toStat)] else []) ++
        [.setheader (address o.toStat) data, save o'.toStat] := by
  obtain ⟨_, hreq, heq⟩ := bind_ok.mp h
  have hstate := require_ok hreq
  simp only [List.mem_cons, List.not_mem_nil, or_false] at hstate
  simp only [pure, Except.pure, Except.ok.injEq, Prod.mk.injEq] at heq
  obtain ⟨h1, h2⟩ := heq
  subst h1
  exact ⟨hstate, rfl, h2.symm⟩

theorem tombstone_ok {o o' : Object} {data : Bytes} {ops : List Op}
    (h : o.tombstone data = .ok (o', ops)) :
    o.state = .preWrite ∧ o' = { o with state := .inWrite, deleted := true } ∧
      ops = [.touch (address o.toStat), .setheader (address o.toStat) data, save o'.toStat] := by
  obtain ⟨_, hreq, heq⟩ := bind_ok.mp h
  have hstate := require_ok hreq
  simp only [List.mem_cons, List.not_mem_nil, or_false] at hstate
  obtain ⟨-, ho, hops⟩ := writeMetadata_ok heq
  rw [if_pos hstate] at ho hops
  exact ⟨hstate, ho, hops⟩

theorem put_ok {p : ℕ} {next prev next' prev' : Object} {ts : Option ℕ} {ops : List Op}
    (h : Backend.put p next prev ts = .ok (next', prev', ops)) :
    next.state = .inWrite ∧ (prev.state = .active ∨ prev.state = .missing) ∧
      next.name = prev.name ∧ prev.ts < ts.getD next.ts ∧
      next' = Backend.settle next (ts.getD next.ts) ∧ prev' = Backend.retire prev ∧
      ops = Backend.handOverOps next prev (ts.getD next.ts) := by
  obtain ⟨_, hnext, h⟩ := bind_ok.mp h
  obtain ⟨_, hprev, h⟩ := bind_ok.mp h
  have hn := require_ok hnext
  have hp := require_ok hprev
  simp only [List.mem_cons, List.not_mem_nil, or_false] at hn hp
  dsimp only at h
  split at h
  · contradiction
  rename_i hsame
  split at h
  · contradiction
  rename_i hnewer
  simp only [Except.ok.injEq, Prod.mk.injEq] at h
  simp only [not_or, ne_eq, not_not] at hsame
  exact ⟨hn, hp, hsame.1, Nat.lt_of_not_le hnewer, h.1.symm, h.2.1.symm, h.2.2.symm⟩

theorem write_eq {o : Object} (h : o.state = .preWrite ∨ o.state = .inWrite) (data : Bytes) :
    o.write data = .ok ({ o with state := .inWrite, written := o.written + data.length },
      (if o.state = .preWrite then
        [.touch (address o.toStat), save { o with state := .inWrite }.toStat] else []) ++
        [.write (address o.toStat) o.written data]) := by
  have hreq : o.require "write" [.preWrite, .inWrite] = .ok () := require_of_mem (by simpa using h)
  unfold Object.write
  rw [hreq]
  rfl

theorem writeMetadata_eq {o : Object} (h : o.state = .preWrite ∨ o.state = .inWrite)
    (data : Bytes) :
    o.writeMetadata data = .ok ({ o with state := .inWrite },
      (if o.state = .preWrite then [.touch (address o.toStat)] else []) ++
        [.setheader (address o.toStat) data, save { o with state := .inWrite }.toStat]) := by
  have hreq : o.require "write_metadata" [.preWrite, .inWrite, .active] = .ok () :=
    require_of_mem (by rcases h with h | h <;> simp [h])
  unfold Object.writeMetadata
  rw [hreq]
  rcases h with hpre | hin
  · simp only [hpre, if_true]
    rfl
  · have hsame : { o with state := .inWrite } = o := by rw [← hin]
    rw [if_neg (by simp [hin]), hsame]
    simp only [hin]
    rfl

/-- Between Objects of one Backend and one name in the right states, only the
timestamps decide. -/
theorem put_eq {p : ℕ} {next prev : Object} (ts : Option ℕ) (hnext : next.state = .inWrite)
    (hprev : prev.state = .active ∨ prev.state = .missing) (hname : next.name = prev.name)
    (hback : next.back = p) (hback' : prev.back = p) :
    Backend.put p next prev ts =
      if ts.getD next.ts ≤ prev.ts
      then .error (.conflict "put" next.name (ts.getD next.ts) prev.ts)
      else .ok (Backend.settle next (ts.getD next.ts), Backend.retire prev,
        Backend.handOverOps next prev (ts.getD next.ts)) := by
  have hn : next.require "put" [.inWrite] = .ok () := require_of_mem (by simp [hnext])
  have hp : prev.require "put" [.active, .missing] = .ok () :=
    require_of_mem (by simpa using hprev)
  have hsame : ¬ (next.name ≠ prev.name ∨ next.back ≠ p ∨ prev.back ≠ p) := by
    simp [hname, hback, hback']
  unfold Backend.put
  rw [hn, hp]
  change (if _ then _ else _) = _
  rw [if_neg hsame]

end Swiftacular.EngineObjects
