import Swiftacular.EngineRuns
import Swiftacular.MetadataModel
import Swiftacular.RangedReads
import Swiftacular.Sweep

/-!
The Device as it runs: greenthreads that yield at every call handed to the
pool and whenever they wait, the native calls they wait for, the map of
Objects, and the store, which is shown each transaction's changes one at a
time. A decision and its transactions are one step. A request may end at any
yield; a native call it started goes on and keeps its Object.
-/
namespace Swiftacular.DeviceRuns

open Function EntryStore EngineObjects Versions EngineRuns MetadataModel Sweep
open RangedReads (isChanged durations readSize)

/-- What the Device is made with: its configuration, Swift's rules on
metadata keys, `json.dumps` and `json.loads` of a blob, and the name hash. -/
structure Conf where
  chunkSize : ℕ
  isSysMeta : String → Bool
  dumps : Blob → Bytes
  loads : Bytes → Option Blob
  collection : Name → Collection

/-- What an `open` with metadata is for. A put comes with the Object it hands
the name to. -/
inductive Goal
  | put (own ts : ℕ) (metadata : Section)
  | delete (ts : ℕ) (metadata : Option Section)
  | post (metadata : Section)
  deriving DecidableEq

/-- What a request is told when its write returns; `found` is whether a POST
found something to write to. -/
inductive Answer
  | wrote (ts : ℕ)
  | posted (metadata : Section) (found : Bool)
  deriving DecidableEq

/-- Where a greenthread is. An `open` without a goal is one without metadata,
and a metadata read without one is the DiskFile's own. -/
inductive Frame
  | idle
  | search
  | searching (id : ℕ)
  | opening (goal : Option Goal)
  | waiting (search : ℕ) (goal : Option Goal)
  | starting (id tries : ℕ) (goal : Option Goal)
  | reading (id version : ℕ) (data : Bytes) (tries : ℕ) (goal : Option Goal)
  | writing
  | syncing (id : ℕ) (answer : Answer)
  | asking (id offset : ℕ) (stop : Option ℕ) (tries : ℕ)
  | fetching (id offset : ℕ) (stop : Option ℕ) (tries : ℕ)
  deriving DecidableEq

/-- Where a call of `submit` or `sync` is: at the submit lock, with it, past
it, or with the Object's future to wait for. -/
inductive Stage
  | enter | submitting | left
  | captured (done : Option ℕ)
  deriving DecidableEq

/-- The two calls that read, `read_metadata` and `read`. -/
inductive Part
  | header | data
  deriving DecidableEq

def Part.op : Part → String
  | .header => "read_metadata"
  | .data => "read"

def Part.of : Part → Entry Attrs → Bytes
  | .header => Entry.header
  | .data => Entry.data

/-- How far such a call is: the address it made out, what it found there, and
what the check of the attributes makes of it. -/
inductive Look
  | start
  | at (a : Address)
  | seen (a : Address) (found : Option Bytes)
  | got (result : Except Error Bytes)

/-- A call in the pool. -/
inductive Native
  | open (id : ℕ)
  | submit (stage : Stage)
  | sync (id : ℕ) (stage : Stage)
  | read (part : Part) (id offset size : ℕ) (look : Look)

/-- A request on one name, or a search for it. `held` is the Object its
DiskFile has, `own` the one its writer makes, `loaded` whether its DiskFile is
open; a request that ended has no frame. -/
structure Thread where
  name : Name
  held : Option ℕ
  own : Option ℕ
  loaded : Bool
  frame : Option Frame
  native : Option Native

def Thread.search (name : Name) : Thread := ⟨name, none, none, false, some .search, none⟩

def Thread.request (name : Name) : Thread := ⟨name, none, none, false, some .idle, none⟩

/-- The thread with nothing under way but what its frame says. -/
def Thread.enters (th : Thread) (frame : Frame) : Thread :=
  { th with frame := some frame, native := none }

/-- The thread in a call handed to the pool. -/
def Thread.calls (th : Thread) (frame : Frame) (native : Native) : Thread :=
  { th with frame := some frame, native := some native }

def Goal.own : Goal → Option ℕ
  | .put own _ _ => some own
  | _ => none

def Frame.goal : Frame → Option Goal
  | .opening goal | .waiting _ goal => goal
  | .starting _ _ goal | .reading _ _ _ _ goal => goal
  | _ => none

def Frame.object : Frame → Option ℕ
  | .searching id | .starting id _ _ | .reading id _ _ _ _ | .syncing id _ => some id
  | .asking id _ _ _ | .fetching id _ _ _ => some id
  | _ => none

def Native.object : Native → Option ℕ
  | .open id | .sync id _ | .read _ id _ _ _ => some id
  | .submit _ => none

/-- The Objects a thread is yet to hand its name to. -/
def Thread.owns (th : Thread) (id : ℕ) : Prop :=
  th.own = some id ∨ ((th.frame.bind Frame.goal).bind Goal.own) = some id

/-- The Objects a thread keeps from being released. -/
def Thread.keeps (th : Thread) (id : ℕ) : Prop :=
  th.held = some id ∨ th.owns id ∨ th.frame.bind Frame.object = some id ∨
    th.native.bind Native.object = some id

instance (th : Thread) (id : ℕ) : Decidable (th.owns id) := inferInstanceAs (Decidable (_ ∨ _))

instance (th : Thread) (id : ℕ) : Decidable (th.keeps id) :=
  inferInstanceAs (Decidable (_ ∨ _ ∨ _ ∨ _))

/-- What the map has for a name: a search for it, or the Object found. -/
inductive Slot
  | search (thread : ℕ)
  | object (id : ℕ)
  deriving DecidableEq

/-- A decision: what the map had for the name, the Object decided against, the
metadata read of it, and how long the log was. -/
structure Decision where
  name : Name
  goal : Goal
  slot : Option Slot
  prev : ℕ
  object : Option Object
  read : Option Bytes
  time : ℕ

/-- What happened, for the record: what a search found, a decision, an engine
call that threw, metadata nothing can read, an answer, a chunk handed on. -/
inductive Event
  | searched (object : Object) (time : ℕ)
  | decided (decision : Decision)
  | raised (e : Error)
  | broken (name : Name)
  | answered (name : Name) (answer : Answer)
  | yielded (id offset : ℕ) (chunk : Bytes)

/-- `batch` is how much of the log the submit under way has taken from the
queue, `handed` how much of it the store was handed, and `part` how many
changes of the next transaction can be seen. -/
structure World where
  core : Core
  store : Store
  handed : ℕ
  part : ℕ
  batch : ℕ
  lock : Option ℕ
  durable : Collection → ℕ
  objects : Name → Option Slot
  versions : ℕ → ℕ
  threads : ℕ → Option Thread
  next : ℕ
  events : List Event

/-- A mounted store, swept, and nothing else yet. -/
def World.start (store : Store) (last : UInt64) : World where
  core := ⟨fun _ => none, 0, last, []⟩
  store := store
  handed := 0
  part := 0
  batch := 0
  lock := none
  durable := fun _ => 0
  objects := fun _ => none
  versions := fun _ => 0
  threads := fun _ => none
  next := 0
  events := []

namespace World

def set (w : World) (t : ℕ) (th : Thread) : World :=
  { w with threads := update w.threads t (some th) }

def drop (w : World) (t : ℕ) : World := { w with threads := update w.threads t none }

def note (w : World) (e : Event) : World := { w with events := w.events ++ [e] }

/-- `self.objects.get(name)`: the map keeps nothing alive. -/
def lookup (w : World) (name : Name) : Option Slot :=
  match w.objects name with
  | none => none
  | some (.object id) => (w.core.heap id).map fun _ => .object id
  | some (.search t) => (w.threads t).map fun _ => .search t

/-- An exception that reaches the request. -/
def raise (w : World) (t : ℕ) (th : Thread) (e : Error) : World :=
  (w.note (.raised e)).set t (th.enters .idle)

def answer (w : World) (t : ℕ) (th : Thread) (a : Answer) : World :=
  (w.note (.answered th.name a)).set t (th.enters .idle)

/-- `tpool.execute(obj.sync)`, the last thing a write does. -/
def sync (w : World) (t : ℕ) (th : Thread) (id : ℕ) (a : Answer) : World :=
  w.set t (th.calls (.syncing id a) (.sync id .enter))

/-- `backend.put` and what follows: a ConflictError is an answer. -/
def handOver (w : World) (t : ℕ) (th : Thread) (next prev ts : ℕ) : World :=
  match w.core.put next prev (some ts) with
  | .error (.conflict op name settled ts') =>
      (w.note (.raised (.conflict op name settled ts'))).answer t th (.wrote ts)
  | .error e => w.raise t th e
  | .ok core =>
      World.sync { w with core, objects := update w.objects th.name (some (.object next)) } t th next
        (.wrote ts)

/-- The rest of `put`, `delete` and `write_metadata`, once the previous
Object and its metadata are known. -/
def decide (conf : Conf) (w : World) (t : ℕ) (th : Thread) (goal : Goal) (prev : ℕ)
    (read : Option Bytes) (us : UInt64) : World :=
  let previous := (read.bind conf.loads).map (MetadataModel.get conf.isSysMeta)
  let w := w.note (.decided
    ⟨th.name, goal, w.lookup th.name, prev, w.core.heap prev, read, w.core.log.length⟩)
  match goal with
  | .put own ts metadata =>
      match w.core.writeMetadata own (conf.dumps (MetadataModel.put previous metadata)) with
      | .error e => w.raise t th e
      | .ok core => handOver { w with core } t th own prev ts
  | .delete ts metadata =>
      let tomb := w.core.fresh
      match (w.core.create th.name none us).tombstone tomb
          (conf.dumps (MetadataModel.delete previous ts metadata)) with
      | .error e => w.raise t th e
      | .ok core => handOver { w with core } t th tomb prev ts
  | .post metadata =>
      match MetadataModel.post previous metadata with
      | .error _ => (w.note (.broken th.name)).set t (th.enters .idle)
      | .ok none => w.answer t th (.posted metadata read.isSome)
      | .ok (some blob) =>
          match w.core.writeMetadata prev (conf.dumps blob) with
          | .error e => w.raise t th e
          | .ok core =>
              World.sync { w with core, versions := update w.versions prev (w.versions prev + 1) }
                t th prev (.posted metadata true)

/-- The top of the loop in `open`. -/
def look (conf : Conf) (w : World) (t : ℕ) (th : Thread) (goal : Option Goal) (us : UInt64) :
    World :=
  match w.lookup th.name with
  | none =>
      { (w.set w.next (Thread.search th.name)) with
        next := w.next + 1
        objects := update w.objects th.name (some (.search w.next)) }.set t
        (th.enters (.waiting w.next goal))
  | some (.search s) => w.set t (th.enters (.waiting s goal))
  | some (.object id) =>
      match goal with
      | none => w.set t { th.enters .idle with held := some id, loaded := false }
      | some goal =>
          if (w.core.heap id).any (·.state = .missing) then decide conf w t th goal id none us
          else w.set t (th.enters (.starting id 0 (some goal)))

/-- A metadata read that got to the end: the DiskFile is open, unless it reads
a tombstone, or the request looks once more whether the map still has the Object. -/
def finish (conf : Conf) (w : World) (t : ℕ) (th : Thread) (id : ℕ) (data : Bytes)
    (goal : Option Goal) (us : UInt64) : World :=
  match conf.loads data with
  | none => (w.note (.broken th.name)).set t (th.enters .idle)
  | some _ =>
      match goal with
      | none => w.set t { th.enters .idle with loaded := (w.core.heap id).any fun o => !o.deleted }
      | some goal =>
          if w.lookup th.name = some (.object id) then decide conf w t th goal id (some data) us
          else w.set t (th.enters (.opening (some goal)))

/-- `self.versions.get(obj, 0)` and the sync before the first chunk. -/
def begin (w : World) (t : ℕ) (th : Thread) (id tries : ℕ) (goal : Option Goal) : World :=
  w.set t (th.calls (.reading id (w.versions id) [] tries goal) (.sync id .enter))

/-- A chunk of metadata, or why there is none. -/
def gather (conf : Conf) (w : World) (t : ℕ) (th : Thread) (id version : ℕ) (data : Bytes)
    (tries : ℕ) (goal : Option Goal) (result : Except Error Bytes) (us : UInt64) : World :=
  match result with
  | .error e =>
      if isChanged e && tries < durations then w.set t (th.enters (.starting id (tries + 1) goal))
      else w.set t (th.enters .idle)
  | .ok chunk =>
      if w.versions id ≠ version then w.begin t th id tries goal
      else if chunk.length < conf.chunkSize then
        w.finish conf t th id (data ++ chunk) goal us
      else
        w.set t (th.calls (.reading id version (data ++ chunk) tries goal)
          (.read .header id (data ++ chunk).length conf.chunkSize .start))

/-- A chunk of data, or why there is none. -/
def pass (w : World) (t : ℕ) (th : Thread) (id offset : ℕ) (stop : Option ℕ) (tries size : ℕ)
    (result : Except Error Bytes) : World :=
  match result with
  | .error e =>
      if isChanged e && tries < durations then w.set t (th.enters (.asking id offset stop (tries + 1)))
      else w.set t (th.enters .idle)
  | .ok chunk =>
      if chunk = [] then w.set t (th.enters .idle)
      else
        let w := w.note (.yielded id offset chunk)
        if chunk.length ≠ size then w.set t (th.enters .idle)
        else if stop.all (offset + chunk.length < ·) then
          w.set t (th.enters (.asking id (offset + chunk.length) stop 0))
        else w.set t (th.enters .idle)

/-- `find` of the engine, and its `open` handed to the pool. -/
def search (w : World) (t : ℕ) (th : Thread) : World :=
  { w with core := w.core.find th.name }.set t
    (th.calls (.searching w.core.fresh) (.open w.core.fresh))

/-- The search itself; one that fails is over, and whoever waits for it fails. -/
def load (w : World) (t : ℕ) (th : Thread) (id : ℕ) : World :=
  match w.core.open w.store id with
  | (core, .error e) =>
      ({ w with core }.note (.raised e)).set t { th with frame := none, native := none }
  | (core, .ok ()) =>
      let w := { w with core }.set t { th with native := none }
      match core.heap id with
      | none => w
      | some o => w.note (.searched o core.log.length)

/-- The next change of the next transaction. `none` is a process the store stopped. -/
def hand (w : World) : Option World :=
  match w.core.log[w.handed]? with
  | none => none
  | some txn =>
      match txn.ops[w.part]? with
      | some op => (EntryStore.apply w.store op).map fun store =>
          { w with store, part := w.part + 1 }
      | none => some { w with handed := w.handed + 1, part := 0 }

/-- `submit`, one move of it: try the lock, hand over what was taken from the
queue, take what is there now, and let go once there is nothing. -/
def submit (w : World) (t : ℕ) (th : Thread) (stage : Stage) (call : Stage → Native) :
    Option World :=
  match stage with
  | .enter =>
      match w.lock with
      | none => some ({ w with lock := some t }.set t { th with native := some (call .submitting) })
      | some _ => some (w.set t { th with native := some (call .left) })
  | .submitting =>
      if w.handed < w.batch then w.hand
      else if w.batch < w.core.log.length then some { w with batch := w.core.log.length }
      else some ({ w with lock := none }.set t { th with native := some (call .left) })
  | _ => none

/-- What the Object allows, then where it is, then what is there, then whether
the attributes there are still its own. -/
def read (w : World) (t : ℕ) (th : Thread) (part : Part) (id offset size : ℕ) (look : Look) :
    Option World :=
  let next (w : World) (look : Look) : World :=
    w.set t { th with native := some (.read part id offset size look) }
  match look, w.core.heap id with
  | .start, some o =>
      match o.require part.op [.active, .old] with
      | .error e => some (next (w.note (.raised e)) (.got (.error e)))
      | .ok () =>
          if part = .data ∧ size = 0 then some (next w (.got (.ok [])))
          else some (next w (.at (address o.toStat)))
  | .at a, _ => some (next w (.seen a ((w.store a).map part.of)))
  | .seen a found, some o =>
      match check part.op w.store a o.toStat found.isSome with
      | .error e => some (next (w.note (.raised e)) (.got (.error e)))
      | .ok () => some (next w (.got (.ok (extent (found.getD []) offset size))))
  | _, _ => none

/-- The next move of a call in the pool. -/
def move (w : World) (t : ℕ) (th : Thread) : Option World :=
  match th.native with
  | none => none
  | some (.open id) => some (w.load t th id)
  | some (.submit stage) => w.submit t th stage .submit
  | some (.sync id .left) =>
      some (w.set t { th with native := some (.sync id (.captured ((w.core.heap id).bind Object.done))) })
  | some (.sync id stage) => w.submit t th stage (.sync id)
  | some (.read part id offset size look) => w.read t th part id offset size look

/-- An invalid future is not waited for. -/
def committed (conf : Conf) (w : World) (name : Name) (done : Option ℕ) : Bool :=
  done.all (· < w.durable (conf.collection name))

/-- A call that is over. -/
def ended (conf : Conf) (w : World) (name : Name) : Option Native → Bool
  | none => true
  | some (.open _) => false
  | some (.submit stage) => stage = .left
  | some (.sync _ (.captured done)) => w.committed conf name done
  | some (.sync _ _) => false
  | some (.read _ _ _ _ (.got _)) => true
  | some (.read _ _ _ _ _) => false

/-- A greenthread goes on after a call that is over. -/
def resume (conf : Conf) (w : World) (t : ℕ) (th : Thread) (us : UInt64) : Option World :=
  match th.frame with
  | some (.searching id) =>
      some ({ w with objects := update w.objects th.name (some (.object id)) }.drop t)
  | some .writing => some (w.set t (th.enters .idle))
  | some (.syncing _ a) => some (w.answer t th a)
  | some (.reading id version data tries goal) =>
      match th.native with
      | some (.read _ _ _ _ (.got result)) =>
          some (w.gather conf t th id version data tries goal result us)
      | _ => some (w.set t (th.calls (.reading id version data tries goal)
          (.read .header id data.length conf.chunkSize .start)))
  | some (.fetching id offset stop tries) =>
      match th.native with
      | some (.read _ _ _ size (.got result)) => some (w.pass t th id offset stop tries size result)
      | _ => none
  | _ => none

end World

/-- What a request can ask of the Device next. -/
inductive Ask
  | open
  | info
  | create (us : UInt64)
  | write (data : Bytes)
  | put (ts : ℕ) (metadata : Section)
  | delete (ts : ℕ) (metadata : Option Section)
  | post (metadata : Section)
  | iterate (start : ℕ) (stop : Option ℕ)
  deriving DecidableEq

inductive Action
  | request (name : Name)
  | ask (t : ℕ) (ask : Ask)
  | go (t : ℕ) (us : UInt64)
  | move (t : ℕ)
  | resume (t : ℕ) (us : UInt64)
  | commit (c : Collection) (k : ℕ)
  | kill (t : ℕ)
  | reap (t : ℕ)
  | release (id : ℕ)
  deriving DecidableEq

namespace World

/-- A greenthread goes on without having waited for a call. -/
def go (conf : Conf) (w : World) (t : ℕ) (th : Thread) (us : UInt64) : Option World :=
  match th.frame with
  | some .search => some (w.search t th)
  | some (.opening goal) => some (w.look conf t th goal us)
  | some (.waiting s goal) =>
      match w.threads s with
      | none => some (w.set t (th.enters (.opening goal)))
      | some search => if search.frame = none then some (w.set t (th.enters .idle)) else none
  | some (.starting id tries goal) => some (w.begin t th id tries goal)
  | some (.asking id offset stop tries) =>
      some (w.set t (th.calls (.fetching id offset stop tries)
        (.read .data id offset (readSize conf.chunkSize offset stop) .start)))
  | _ => none

/-- What an idle request asks for. -/
def ask (w : World) (t : ℕ) (th : Thread) : Ask → Option World
  | .open => some (w.set t (th.enters (.opening none)))
  | .info => th.held.bind fun id =>
      if (w.core.heap id).any (·.state = .missing) then none
      else some (w.set t (th.enters (.starting id 0 none)))
  | .create us => th.held.map fun _ =>
      { w with core := w.core.create th.name none us }.set t { th with own := some w.core.fresh }
  | .write data => th.own.map fun id =>
      match w.core.write id data with
      | .error e => w.raise t th e
      | .ok core => { w with core }.set t (th.calls .writing (.submit .enter))
  | .put ts metadata => th.own.map fun id =>
      w.set t { th.enters (.opening (some (.put id ts metadata))) with own := none }
  | .delete ts metadata => th.held.map fun _ =>
      w.set t (th.enters (.opening (some (.delete ts metadata))))
  | .post metadata => th.held.map fun _ => w.set t (th.enters (.opening (some (.post metadata))))
  | .iterate start stop => th.held.bind fun id =>
      if th.loaded && stop.all (start < ·) then some (w.set t (th.enters (.asking id start stop 0)))
      else none

/-- Whether a thread keeps the Object. -/
def kept (w : World) (id : ℕ) : Bool :=
  (List.range w.next).any fun t => (w.threads t).any fun th => th.keeps id

/-- One step; `none` is a step that cannot be taken, or a process the store stopped. -/
def step (conf : Conf) (w : World) : Action → Option World
  | .request name => some { (w.set w.next (Thread.request name)) with next := w.next + 1 }
  | .ask t ask => (w.threads t).bind fun th =>
      if th.frame = some .idle ∧ th.native.isNone then w.ask t th ask else none
  | .go t us => (w.threads t).bind fun th => if th.native.isNone then w.go conf t th us else none
  | .move t => (w.threads t).bind fun th => w.move t th
  | .resume t us => (w.threads t).bind fun th =>
      if w.ended conf th.name th.native then w.resume conf t th us else none
  | .commit c k =>
      if w.durable c ≤ k ∧ k ≤ w.handed then some { w with durable := update w.durable c k }
      else none
  | .kill t => (w.threads t).bind fun th =>
      match th.frame with
      | none | some .search | some (.searching _) => none
      | _ => some (w.set t { th with held := none, own := none, loaded := false, frame := none })
  | .reap t => (w.threads t).bind fun th =>
      if th.frame = none ∧ w.ended conf th.name th.native then some (w.drop t) else none
  | .release id => if w.kept id then none else some { w with core := w.core.release id }

abbrev run (conf : Conf) (w : World) (actions : List Action) : Option World :=
  StepRuns.run (step conf) w actions

end World

end Swiftacular.DeviceRuns
