import Swiftacular.MetadataReads
import Swiftacular.Sweep

/-!
The command line tool. Each command opens the store for itself and is alone on
it: what it reads is what was left to it, since it reads nothing after it has
prepared its first change. It hands over its transactions in the order it
prepares them, the last of them as its Backend closes, and may be killed
between any two.
-/
namespace Swiftacular.CommandLine

open Function EntryStore EngineObjects Versions EngineRuns MetadataReads RangedReads

def chunk : ℕ := 1048576

/-- What the flags and arguments say; what is not given is empty. -/
structure Options where
  object : Name := ""
  metadata : Bytes := []
  size : Option UInt64 := none
  timestamp : Option UInt64 := none
  input : Bytes := []

/-- `size`: without the flag the greatest there is. -/
def Options.limit (opts : Options) : ℕ := (opts.size.getD 18446744073709551615).toNat

/-- `timestamp`. -/
def Options.ts (opts : Options) : Option ℕ := opts.timestamp.map UInt64.toNat

/-- What a command threw. -/
inductive Failure
  | missing (what : String)
  | engine (e : Error)
  deriving DecidableEq

def Failure.what : Failure → String
  | .missing what => "Missing " ++ what
  | .engine e => e.what

/-- The transactions a command hands over, if it is let to, what it outputs,
and what it threw. -/
structure Outcome where
  transactions : List (List Op)
  output : Bytes
  result : Except Failure Unit

/-- The exit status. -/
def Outcome.exit (out : Outcome) : ℕ :=
  match out.result with
  | .ok () => 0
  | .error _ => 1

/-- The two Objects of `replace`, by number: the one found and the one created. -/
def prev : ℕ := 0
def next : ℕ := 1

/-- A Backend just opened. -/
def opened : Core := ⟨fun _ => none, 0, 0, []⟩

/-- A call that throws leaves the Objects and the queue as they were. -/
def attempt (c : Core) : Except Error Core → Core × Except Error Unit
  | .ok c' => (c', .ok ())
  | .error e => (c, .error e)

/-- What follows a call, unless it threw. -/
def andThen (r : Core × Except Error Unit) (f : Core → Core × Except Error Unit) :
    Core × Except Error Unit :=
  match r.2 with
  | .ok () => f r.1
  | .error e => (r.1, .error e)

/-- The loop of `replace`: a chunk at a time until the limit, or until one is short. -/
def feed (limit : ℕ) (c : Core) (offset : ℕ) (input : Bytes) : Core × Except Error Unit :=
  if offset < limit then
    let want := min chunk (limit - offset)
    let buf := input.take want
    andThen (if buf = [] then (c, .ok ()) else attempt c (c.write next buf)) fun c' =>
      if buf.length < want then (c', .ok ())
      else feed limit c' (offset + buf.length) (input.drop want)
  else (c, .ok ())
termination_by limit - offset
decreasing_by
  have hchunk : 0 < chunk := by decide
  change limit - (offset + buf.length) < limit - offset
  omega

/-- `replace`, until it returns or throws; `us` is the clock it is run at. -/
def replace (deleted : Bool) (opts : Options) (us : UInt64) (s : Store) : Core × Except Error Unit :=
  andThen ((opened.find opts.object).open s prev) fun c =>
    let c := c.create opts.object opts.ts us
    andThen (if deleted then (c, .ok ()) else feed opts.limit c 0 opts.input) fun c =>
      andThen (attempt c (if deleted then c.tombstone next opts.metadata
          else c.writeMetadata next opts.metadata)) fun c =>
        attempt c (c.put next prev opts.ts)

/-- The Objects' destructors, in their order. -/
def closed (c : Core) : Core := (c.release next).release prev

/-- `put` and `remove`. -/
def replaced (deleted : Bool) (opts : Options) (us : UInt64) (s : Store) : Outcome :=
  if opts.object = "" then ⟨[], [], .error (.missing "object")⟩
  else
    let r := replace deleted opts us s
    ⟨(closed r.1).log.map Txn.ops, [], r.2.mapError .engine⟩

def put : Options → UInt64 → Store → Outcome := replaced false

def remove : Options → UInt64 → Store → Outcome := replaced true

/-- `open_existing`, of an Object just found. -/
def openExisting (s : Store) (name : Name) : Except Failure Object :=
  match (Backend.find 0 name).open s with
  | (_, .error e) => .error (.engine e)
  | (o, .ok ()) => if o.state = .missing then .error (.missing name) else .ok o

/-- The loop of `get`: what it writes out, and whether a read threw. -/
def readOut (s : Store) (o : Object) (limit offset : ℕ) : Bytes × Except Error Unit :=
  if offset < limit then
    let want := min chunk (limit - offset)
    match objectRead s s o offset want with
    | .error e => ([], .error e)
    | .ok buf =>
        if buf.length < want then (buf, .ok ())
        else
          let rest := readOut s o limit (offset + buf.length)
          (buf ++ rest.1, rest.2)
  else ([], .ok ())
termination_by limit - offset
decreasing_by
  have hchunk : 0 < chunk := by decide
  omega

def get (opts : Options) (s : Store) : Outcome :=
  if opts.object = "" then ⟨[], [], .error (.missing "object")⟩
  else
    match openExisting s opts.object with
    | .error e => ⟨[], [], .error e⟩
    | .ok o =>
        let out := readOut s o opts.limit 0
        ⟨[], out.1, out.2.mapError .engine⟩

/-- `Object::read_metadata`, where the store stays as it is. -/
def objectReadMetadata (s : Store) (o : Object) (offset size : ℕ) : Except Error Bytes :=
  match o.require "read_metadata" [.active, .old] with
  | .error e => .error e
  | .ok () =>
      metadataChunk s (address o.toStat) o ((s (address o.toStat)).map Entry.header) offset size

/-- The header of the Object's entry. -/
def headerOf (s : Store) (o : Object) : Bytes := ((s (address o.toStat)).map Entry.header).getD []

theorem objectReadMetadata_ok {s : Store} {o : Object} {offset size : ℕ} {buf : Bytes}
    (h : objectReadMetadata s o offset size = .ok buf) : buf = extent (headerOf s o) offset size := by
  unfold objectReadMetadata metadataChunk at h
  split at h
  · contradiction
  split at h
  · contradiction
  · exact (Except.ok.inj h).symm

/-- The loop of `head`, from an offset on. -/
def headOut (s : Store) (o : Object) (offset : ℕ) : Bytes × Except Error Unit :=
  match _hread : objectReadMetadata s o offset chunk with
  | .error e => ([], .error e)
  | .ok buf =>
      if buf.length < chunk then (buf, .ok ())
      else
        let rest := headOut s o (offset + buf.length)
        (buf ++ rest.1, rest.2)
termination_by (headerOf s o).length - offset
decreasing_by
  -- a full chunk lies within the header
  have hchunk : 0 < chunk := by decide
  have hlen := length_extent (headerOf s o) offset chunk
  rw [← objectReadMetadata_ok _hread] at hlen
  omega

def head (opts : Options) (s : Store) : Outcome :=
  if opts.object = "" then ⟨[], [], .error (.missing "object")⟩
  else
    match openExisting s opts.object with
    | .error e => ⟨[], [], .error e⟩
    | .ok o =>
        let out := headOut s o 0
        ⟨[], out.1, out.2.mapError .engine⟩

def post (opts : Options) (s : Store) : Outcome :=
  if opts.object = "" then ⟨[], [], .error (.missing "object")⟩
  else
    match openExisting s opts.object with
    | .error e => ⟨[], [], .error e⟩
    | .ok o =>
        match o.writeMetadata opts.metadata with
        | .error e => ⟨[], [], .error (.engine e)⟩
        | .ok written => ⟨[written.2], [], .ok ()⟩

end Swiftacular.CommandLine
