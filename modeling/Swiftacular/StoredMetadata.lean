import Swiftacular.EntryStore
import Swiftacular.MetadataModel

/-!
The metadata rules on whatever bytes are stored. `json.loads` may give any
value, nothing validates it, and each access that does not fit fails with an
exception of its own kind. The order of the accesses is that of the source.
-/
namespace Swiftacular.StoredMetadata

open EntryStore Timestamps
open MetadataModel (belongsToData)

/-- What `json.loads` gives. A float is an IEEE double by its bits, and the
first field under a name counts. -/
inductive Json
  | null
  | bool (b : Bool)
  | int (n : ℤ)
  | float (bits : UInt64)
  | string (s : String)
  | array (elements : List Json)
  | object (fields : List (String × Json))

inductive PyError
  | valueError
  | keyError (key : String)
  | typeError
  | attributeError
  | overflowError
  | recursionError
  deriving DecidableEq

/-- What `except (ValueError, KeyError)` catches. -/
def PyError.caught : PyError → Bool
  | .valueError | .keyError _ => true
  | _ => false

/-- A dictionary; the first pair under a key counts. A key that is not a string
is left out: nothing here looks one up. -/
abbrev Dict := List (String × Json)

namespace Dict

def set (d : Dict) (key : String) (value : Json) : Dict :=
  (key, value) :: d.filter fun entry => entry.1 ≠ key

def pop (d : Dict) (key : String) : Dict := d.filter fun entry => entry.1 ≠ key

def update (d e : Dict) : Dict := e.foldr (fun entry d => set d entry.1 entry.2) d

/-- `d[key]`. -/
def item (d : Dict) (key : String) : Except PyError Json :=
  match d.lookup key with
  | none => .error (.keyError key)
  | some value => .ok value

theorem lookup_filter_ne (d : Dict) (key k : String) :
    (d.filter fun entry => entry.1 ≠ key).lookup k = if k = key then none else d.lookup k := by
  induction d with
  | nil => simp
  | cons entry rest ih =>
    obtain ⟨name, value⟩ := entry
    by_cases hname : name = key
    · subst hname
      rw [List.filter_cons_of_neg (by simp), ih]
      by_cases hk : k = name
      · simp [hk]
      · simp [hk, List.lookup_cons, beq_false_of_ne hk]
    · rw [List.filter_cons_of_pos (by simpa using hname), List.lookup_cons, List.lookup_cons, ih]
      by_cases hk : k = name
      · subst hk
        simp [hname]
      · simp [beq_false_of_ne hk]

@[simp] theorem lookup_set (d : Dict) (key k : String) (value : Json) :
    (d.set key value).lookup k = if k = key then some value else d.lookup k := by
  unfold set
  rw [List.lookup_cons, lookup_filter_ne]
  by_cases hk : k = key
  · simp [hk]
  · simp [hk, beq_false_of_ne hk]

@[simp] theorem lookup_pop (d : Dict) (key k : String) :
    (d.pop key).lookup k = if k = key then none else d.lookup k := lookup_filter_ne d key k

@[simp] theorem lookup_update (d e : Dict) (k : String) :
    (d.update e).lookup k = (e.lookup k).or (d.lookup k) := by
  unfold update
  induction e with
  | nil => simp
  | cons entry rest ih =>
    obtain ⟨name, value⟩ := entry
    rw [List.foldr_cons, lookup_set, ih, List.lookup_cons]
    by_cases hk : k = name
    · simp [hk]
    · simp [hk, beq_false_of_ne hk]

theorem lookup_filter_key (d : Dict) (p : String → Bool) (k : String) :
    (d.filter fun entry => p entry.1).lookup k = if p k then d.lookup k else none := by
  induction d with
  | nil => simp
  | cons entry rest ih =>
    obtain ⟨name, value⟩ := entry
    by_cases hk : k = name
    · subst hk
      by_cases hp : p k
      · simp [hp]
      · simp [hp, ih]
    · by_cases hp : p name
      · simp [hp, List.lookup_cons, beq_false_of_ne hk, ih]
      · simp [hp, List.lookup_cons, beq_false_of_ne hk, ih]

end Dict

/-- `dict(element)`'s view of one element: its key, if that is a string, and
its value. A key has to be hashable, and any other sequence has to have two
elements. -/
def pairOf : Json → Except PyError (Option String × Json)
  | .array [key, value] =>
      match key with
      | .string s => .ok (some s, value)
      | .array _ | .object _ => .error .typeError
      | _ => .ok (none, value)
  | .array _ => .error .valueError
  | .string s =>
      match s.toList with
      | [key, value] => .ok (some (String.singleton key), .string (String.singleton value))
      | _ => .error .valueError
  | .object [(key, _), (value, _)] => .ok (some key, .string value)
  | .object _ => .error .valueError
  | _ => .error .typeError

def dictOfPairs (d : Dict) : List Json → Except PyError Dict
  | [] => .ok d
  | element :: rest =>
      match pairOf element with
      | .error e => .error e
      | .ok (none, _) => dictOfPairs d rest
      | .ok (some key, value) => dictOfPairs (d.set key value) rest

/-- `dict(value)`. -/
def dictOf : Json → Except PyError Dict
  | .object fields => .ok fields
  | .array elements => dictOfPairs [] elements
  | .string s => if s = "" then .ok [] else .error .valueError
  | _ => .error .typeError

/-- `value.get` and `value.items()`. -/
def attributes : Json → Except PyError Dict
  | .object fields => .ok fields
  | _ => .error .attributeError

/-- `value[key]`, with a string for the key. -/
def subscript (value : Json) (key : String) : Except PyError Json :=
  match value with
  | .object fields => Dict.item fields key
  | _ => .error .typeError

def Json.truthy : Json → Bool
  | .null => false
  | .bool b => b
  | .int n => n ≠ 0
  | .float bits => bits ≠ 0 ∧ bits ≠ 9223372036854775808
  | .string s => s ≠ ""
  | .array elements => !elements.isEmpty
  | .object fields => !fields.isEmpty

def Json.isNull : Json → Bool
  | .null => true
  | _ => false

/-- What is used of Python's and Swift's libraries: `json.loads`, `Timestamp`
of a value, `is_sys_meta('object', key)`, `DiskFileDeleted`'s own timestamp of
the metadata it is given, and `>` where one side is `None`. -/
structure Library where
  loads : Bytes → Except PyError Json
  stamp : Json → Except PyError Timestamp
  isSysMeta : String → Bool
  deletedTimestamp : Dict → Except PyError Timestamp
  newerThanNone : Option Timestamp → Option Timestamp → Except PyError Bool

variable (lib : Library)

/-- `Timestamp(metadata.get('Content-Type-Timestamp', 0))`. -/
def ctypeTimestamp (metadata : Json) : Except PyError Timestamp := do
  let d ← attributes metadata
  match d.lookup "Content-Type-Timestamp" with
  | none => pure Timestamp.zero
  | some value => lib.stamp value

def merge (data posted : Json) : Except PyError Dict := do
  let merged ← dictOf posted
  let d ← attributes data
  let merged := Dict.update merged (d.filter fun entry => belongsToData lib.isSysMeta entry.1)
  match d.lookup "Content-Type" with
  | none => pure merged
  | some contentType =>
      let dataTs ← (Dict.item d "X-Timestamp") >>= lib.stamp
      let typeTs ← ctypeTimestamp lib posted
      if dataTs > typeTs then
        pure ((Dict.set merged "Content-Type" contentType).pop "Content-Type-Timestamp")
      else pure merged

/-- `dict(data) if meta is None else merge(data, meta)`. -/
def mergedOf (data posted : Json) : Except PyError Dict :=
  if posted.isNull then dictOf data else merge lib data posted

/-- `time_of(d)`. -/
def timeOf (d : Dict) : Except PyError (Option Timestamp) :=
  match d.lookup "X-Timestamp" with
  | none => .ok none
  | some value => if value.truthy then (lib.stamp value).map some else .ok none

structure Metadata where
  dataSection : Dict
  metaSection : Json
  merged : Dict
  metaTs : Option Timestamp
  dataTs : Option Timestamp
  typeTs : Timestamp

/-- `MetadataModel.get`, from the value on. -/
def getSections (sections : Json) : Except PyError Metadata := do
  let data ← subscript sections "data"
  let fields ← attributes sections
  let posted := (fields.lookup "meta").getD .null
  let merged ← mergedOf lib data posted
  let metaTs ← timeOf lib merged
  let d ← attributes data
  let dataTs ← timeOf lib d
  let fallback ← Dict.item d "X-Timestamp"
  let typeTs ← lib.stamp ((merged.lookup "Content-Type-Timestamp").getD fallback)
  pure ⟨d, posted, merged, metaTs, dataTs, typeTs⟩

/-- `MetadataModel.get`. -/
def get (blob : Bytes) : Except PyError Metadata := lib.loads blob >>= getSections lib

/-- `MetadataModel.put`: what becomes of the previous POST. -/
def put (prev : Option Metadata) (data : Dict) : Except PyError Json := do
  let fresh : Json := .object [("data", .object data)]
  match prev with
  | none => pure fresh
  | some prev =>
      if prev.metaSection.isNull then pure fresh
      else
        let posted ← attributes prev.metaSection
        let newer ← match ← timeOf lib posted, ← timeOf lib data with
          | some ts, some ts' => pure (decide (ts > ts'))
          | ts, ts' => lib.newerThanNone ts ts'
        pure (if newer then .object [("data", .object data), ("meta", prev.metaSection)] else fresh)

end Swiftacular.StoredMetadata
