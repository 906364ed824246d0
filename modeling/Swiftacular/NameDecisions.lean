import Swiftacular.EngineObjects
import Swiftacular.MetadataModel

/-!
What a PUT, a DELETE and a POST decide about a name, given what holds it at
that moment: the steps of `BluestoreDevice.put`, `delete` and `write_metadata`
that follow the read of the previous metadata and reach no other yield. A PUT
or DELETE that the engine finds not newer is dropped.
-/
namespace Swiftacular.NameDecisions

open EngineObjects Timestamps MetadataModel

/-- What holds a name: the engine's timestamp and deleted flag, and the blob. -/
structure Held where
  ts : ℕ
  deleted : Bool
  blob : Blob
  deriving DecidableEq

variable (isSysMeta : String → Bool) (name : Name)

/-- The Object a decision finds in the map for the name. -/
def mapped : Option Held → Object
  | none => { Backend.find 0 name with state := .missing }
  | some h => { Backend.find 0 name with state := .active, ts := h.ts, deleted := h.deleted }

/-- A written Object the name can be handed to. Its own timestamp is the
estimate it was made with, which `put` replaces. -/
def written (deleted : Bool) (estimate : ℕ) : Object :=
  { Backend.create 0 name estimate with state := .inWrite, deleted }

/-- `backend.put`, and the name left alone on a ConflictError. -/
def handOver (held : Option Held) (deleted : Bool) (timestamp : ℕ) (blob : Blob) : Option Held :=
  match Backend.put 0 (written name deleted 0) (mapped name held) (some timestamp) with
  | .error _ => held
  | .ok (placed, _, _) => some ⟨placed.ts, placed.deleted, blob⟩

def devicePut (held : Option Held) (timestamp : ℕ) (metadata : Section) : Option Held :=
  let prev := held.map fun h => get isSysMeta h.blob
  handOver name held false timestamp (put prev metadata)

def deviceDelete (held : Option Held) (timestamp : ℕ) (given : Option Section) : Option Held :=
  let prev := held.map fun h => get isSysMeta h.blob
  handOver name held true timestamp (delete prev timestamp given)

def deviceWriteMetadata (held : Option Held) (posted : Section) : Option Held :=
  match held with
  | none => none
  | some h =>
      match post (some (get isSysMeta h.blob)) posted with
      | .ok (some blob) => some { h with blob := blob }
      | _ => some h

/-- `BluestoreDiskFileWriter.put`. -/
def writerPut (held : Option Held) (metadata : Section) : Option Held :=
  devicePut isSysMeta name held metadata.timestamp.raw metadata

/-- `BluestoreDiskFile.delete`. -/
def diskFileDelete (held : Option Held) (timestamp : Timestamp) : Option Held :=
  deviceDelete isSysMeta name held timestamp.raw (some (Section.stamped timestamp))

/-- A request by what it hands to the Device; a DELETE's section is any. -/
inductive Request
  | put (metadata : Section)
  | delete (metadata : Section)
  | post (metadata : Section)
  deriving DecidableEq

def decideRequest (held : Option Held) : Request → Option Held
  | .put m => writerPut isSysMeta name held m
  | .delete m => deviceDelete isSysMeta name held m.timestamp.raw (some m)
  | .post m => deviceWriteMetadata isSysMeta held m

def run (held : Option Held) (requests : List Request) : Option Held :=
  requests.foldl (decideRequest isSysMeta name) held

variable {isSysMeta name}

def heldTs (held : Option Held) : ℕ := (held.map Held.ts).getD 0

/-- The engine's one opinion about a timestamp: it has to be greater. -/
theorem handOver_eq (held : Option Held) (deleted : Bool) (timestamp : ℕ) (blob : Blob) :
    handOver name held deleted timestamp blob =
      if timestamp ≤ heldTs held then held else some ⟨timestamp, deleted, blob⟩ := by
  have hprev : (mapped name held).state = .active ∨ (mapped name held).state = .missing := by
    cases held with
    | none => exact Or.inr rfl
    | some h => exact Or.inl rfl
  have hname : (written name deleted 0).name = (mapped name held).name := by
    cases held <;> rfl
  have hback : (written name deleted 0).back = 0 := rfl
  have hback' : (mapped name held).back = 0 := by cases held <;> rfl
  have hts : (mapped name held).ts = heldTs held := by cases held <;> rfl
  unfold handOver
  rw [put_eq (some timestamp) rfl hprev hname hback hback', hts, Option.getD_some]
  by_cases hle : timestamp ≤ heldTs held
  · rw [if_pos hle, if_pos hle]
  · rw [if_neg hle, if_neg hle]
    rfl

theorem decideRequest_put (held : Option Held) (m : Section) :
    decideRequest isSysMeta name held (.put m) =
      if m.timestamp.tick ≤ heldTs held then held
      else some ⟨m.timestamp.tick, false, put (held.map fun h => get isSysMeta h.blob) m⟩ :=
  handOver_eq ..

theorem decideRequest_delete (held : Option Held) (m : Section) :
    decideRequest isSysMeta name held (.delete m) =
      if m.timestamp.tick ≤ heldTs held then held
      else some ⟨m.timestamp.tick, true, put (held.map fun h => get isSysMeta h.blob) m⟩ :=
  handOver_eq ..

theorem run_cons (held : Option Held) (r : Request) (rest : List Request) :
    run isSysMeta name held (r :: rest) =
      run isSysMeta name (decideRequest isSysMeta name held r) rest := rfl

theorem run_append (held : Option Held) (left right : List Request) :
    run isSysMeta name held (left ++ right) =
      run isSysMeta name (run isSysMeta name held left) right := List.foldl_append ..

end Swiftacular.NameDecisions
