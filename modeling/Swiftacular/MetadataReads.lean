import Swiftacular.AnchoredObjects
import Swiftacular.RangedReads

/-!
A metadata read of the Device. It takes the Object's metadata version, syncs,
and asks for the blob a chunk at a time; between any two of its steps others
prepare, hand over and commit. A version that has moved starts it again, a
chunk shorter than it asked for ends it.
-/
namespace Swiftacular.MetadataReads

open Function EntryStore EngineObjects Versions EngineRuns LiveObjects PreparedLog HeldEntries
  EngineMoves StepRuns AnchoredObjects RangedReads

/-- Where the read is: before it takes the version, in `obj.sync` (before the
submit lock, with it, past it, with the future), in the Object's
`read_metadata` (with its address, after its first look, over), or done. -/
inductive Phase
  | start
  | entering
  | submitting
  | left
  | waiting (done : Option ℕ)
  | asking
  | addressed (oid : Address)
  | looked (oid : Address) (found : Option Bytes)
  | got (result : Except Error Bytes)
  | returned (data : Bytes)
  | raised (e : Error)
  deriving DecidableEq

/-- `tries` is how often it was started again after a `ChangedError`, `chunks`
how many chunks it asked for. -/
structure Reader where
  version : ℕ
  data : Bytes
  tries : ℕ
  chunks : ℕ
  phase : Phase

def Reader.start : Reader := ⟨0, [], 0, 0, .start⟩

structure World where
  engine : Engine
  committed : ℕ → Bool
  versions : ℕ → ℕ
  reader : Reader

/-- `Object::read_metadata` from its check on, at the second look. -/
def metadataChunk (second : Store) (oid : Address) (o : Object) (found : Option Bytes)
    (offset size : ℕ) : Except Error Bytes :=
  match check "read_metadata" second oid o.toStat found.isSome with
  | .error e => .error e
  | .ok () => .ok (extent (found.getD []) offset size)

/-- A metadata write in place raises the Object's version in the same step. -/
def raises (e : Engine) (versions : ℕ → ℕ) : Move → ℕ → ℕ
  | .call (.writeMetadata i _) =>
      if (e.core.heap i).any (·.state = .active) then update versions i (versions i + 1) else versions
  | _ => versions

namespace World

def enter (w : World) (phase : Phase) : World := { w with reader := { w.reader with phase } }

/-- The version as it is now, and nothing read. -/
def begin (w : World) (id : ℕ) : World :=
  { w with reader := { w.reader with version := w.versions id, data := [], phase := .entering } }

/-- A chunk, or why there is none. -/
def gather (chunkSize id : ℕ) (w : World) : Except Error Bytes → World
  | .error e =>
      if isChanged e && w.reader.tries < durations then
        { w with reader := { w.reader with tries := w.reader.tries + 1, phase := .start } }
      else w.enter (.raised e)
  | .ok chunk =>
      if w.versions id ≠ w.reader.version then w.begin id
      else if chunk.length < chunkSize then w.enter (.returned (w.reader.data ++ chunk))
      else { w with reader := { w.reader with data := w.reader.data ++ chunk, phase := .asking } }

/-- The reader's next step; `busy` is whether another has the submit lock. -/
def turn (chunkSize id : ℕ) (w : World) (busy : Bool) (o : Object) : Option World :=
  match w.reader.phase with
  | .start => some (w.begin id)
  | .entering => some (w.enter (if busy then .left else .submitting))
  | .submitting =>
      if w.engine.queue = [] then some (w.enter .left)
      else (hand w.engine).map fun engine => { w with engine }
  | .left => some (w.enter (.waiting o.done))
  | .waiting done => if done.all w.committed then some (w.enter .asking) else none
  | .asking =>
      let asked := { w with reader := { w.reader with chunks := w.reader.chunks + 1 } }
      match o.require "read_metadata" [.active, .old] with
      | .error e => some (asked.enter (.got (.error e)))
      | .ok () => some (asked.enter (.addressed (address o.toStat)))
  | .addressed oid => some (w.enter (.looked oid ((w.engine.store oid).map Entry.header)))
  | .looked oid found =>
      some (w.enter (.got
        (metadataChunk w.engine.store oid o found w.reader.data.length chunkSize)))
  | .got result => some (w.gather chunkSize id result)
  | .returned _ => none
  | .raised _ => none

end World

/-- A move of the others, a transaction that BlueStore reports durable, or the reader. -/
inductive Action
  | move (m : Move)
  | commit (d : ℕ)
  | turn (busy : Bool)

def step (chunkSize id : ℕ) (w : World) : Action → Option World
  | .move m => (move w.engine m).map fun engine =>
      { w with engine, versions := raises w.engine w.versions m }
  | .commit d =>
      if d < w.engine.handed then some { w with committed := update w.committed d true } else none
  | .turn busy => (w.engine.core.heap id).bind (w.turn chunkSize id busy)

/-- The others keep to the Device's calls, and where the reader looks at the
Object's temporary address there is nothing, or the Object has been brought. -/
def Fits (r : Record) (id : ℕ) (w : World) : Action → Prop
  | .move m => Sparing r id w.engine m
  | .commit _ => True
  | .turn _ => ∀ oid, w.reader.phase = .addressed oid → oid.space = .temporary →
      w.engine.store oid = none ∨ ¬ Retiring w.engine id

variable {r : Record} {s : Store} {chunkSize id : ℕ} {w w' : World}

/-! What the read knows, as long as the version is the one it took. -/

/-- An address the Object has, or had before it was retired. -/
def Sought (o : Object) (oid : Address) : Prop :=
  oid = ordinary o.name ∨ o.state = .old ∧ oid = temporary o.name o.ts

/-- What the read has, with the version at hand. -/
def Known (r : Record) (e : Engine) (chunkSize : ℕ) (o : Object) (v : Version) (data : Bytes) :
    Phase → Prop
  | .waiting done => data = [] ∧ HeaderBy r e o v.header done
  | .asking => data <+: v.header ∧ HeaderBy r e o v.header none
  | .addressed oid => data <+: v.header ∧ HeaderBy r e o v.header none ∧ Sought o oid
  | .looked oid found => data <+: v.header ∧ HeaderBy r e o v.header none ∧
      ∀ blob, found = some blob → blob = v.header ∨
        oid = ordinary o.name ∧ Overtaken r e o.name o.ts
  | .got result => data <+: v.header ∧ HeaderBy r e o v.header none ∧
      ∀ chunk, result = .ok chunk → chunk = extent v.header data.length chunkSize
  | .entering | .submitting | .left => data = []
  | _ => True

/-- No metadata write of the Object and no put that retires it. -/
def Quiet (chunkSize id : ℕ) (w : World) (a : Action) : Prop :=
  ¬ Retiring w.engine id ∧ ∀ w', step chunkSize id w a = some w' →
    w'.versions id = w.versions id ∧ ¬ Retiring w'.engine id

variable {blob : Bytes}

theorem Anchored.unique {e : Engine} {o : Object} {u v : Version} (h : Anchored r e id o u)
    (h' : Anchored r e id o v) : u = v := Option.some.inj (h.own.symm.trans h'.own)

theorem check_own {store : Store} {oid : Address} {o : Object} {x : Entry Attrs} {k : Attrs}
    (hx : store oid = some x) (hk : x.attrs = some k) (hts : k.ts = o.ts) (op : String) :
    check op store oid o.toStat true = .ok () := by
  simp [check, load, hx, hk, hts]

/-- The read waits for BlueStore to report its latest transaction durable. -/
def Waits (w : World) : Prop :=
  ∃ d, w.reader.phase = .waiting (some d) ∧ w.committed d = false

def fresh : Engine := Engine.start (fun _ => none) 0

/-- A name put, and handed over. -/
def stored : List Move :=
  [.call (.create "a/c/o" none 50), .call (.write 0 [1]), .call (.writeMetadata 0 [9, 8, 7]),
    .call .submit, .call (.find "a/c/o"), .call (.open 1), .call (.put 0 1 (some 200)),
    .call .submit]

def held : Engine := (run EngineMoves.move fresh stored).get (by decide +kernel)

def reading (e : Engine) : World := ⟨e, fun _ => false, fun _ => 0, Reader.start⟩

/-- A metadata read in chunks of two bytes. Another blob is written after the
first chunk, handed over by the read's own sync and committed. -/
def posted : List Action :=
  [.turn false, .turn false, .turn false, .turn false, .commit 2, .turn false, .turn false,
    .turn false, .turn false, .turn false, .move (.call (.writeMetadata 0 [6, 5])), .turn false,
    .turn false, .turn false, .turn false, .turn false, .turn false, .turn false, .turn false,
    .commit 3, .turn false, .turn false, .turn false, .turn false, .turn false, .turn false,
    .turn false, .turn false]

def last : World := (run (step 2 0) (reading held) posted).get (by decide +kernel)

example : last.reader.phase = .got (.ok []) ∧ last.reader.data = [6, 5] := by decide +kernel

/-- A name put at 200; a writer at the estimate 200 that goes without a put,
its entry still to be removed; the name put again. -/
def orphaned : List Move :=
  [.call (.create "a/c/o" none 50), .call (.write 0 [1]), .call (.writeMetadata 0 [9]),
    .call .submit, .call (.find "a/c/o"), .call (.open 1), .call (.put 0 1 (some 200)),
    .call .submit, .call (.create "a/c/o" none 2000), .call (.writeMetadata 2 [7]),
    .call .submit, .call (.create "a/c/o" none 2010), .call (.writeMetadata 3 [8]),
    .call (.release 2), .call (.put 3 0 (some 300))]

def retired : Engine := (run EngineMoves.move fresh orphaned).get (by decide +kernel)

/-- The read alone, while another has the submit lock. -/
def alone : List Action :=
  [.turn true, .turn true, .turn true, .commit 2, .turn true, .turn true, .turn true, .turn true]

end Swiftacular.MetadataReads
