import Swiftacular.EngineObjects
import Swiftacular.QuarantinedBlobs

/-!
A PUT or DELETE of a name whose stored metadata is anything. The check before
the request treats an unreadable blob as nothing there, but the write path
decodes the blob again to carry a POST over, and there a failure is the
request's own.
-/
namespace Swiftacular.UnreadableNames

open EntryStore Timestamps StoredMetadata QuarantinedBlobs
open EngineObjects (Object Backend.create Backend.put)
open StepRuns (bind_ok)
open MetadataModel (belongsToData)

/-- What the write path uses of the libraries besides: `json.dumps`,
`Timestamp.internal`, and `>=` and `<` with `None` on the left. -/
structure Server extends Library where
  dumps : Json → Bytes
  internal : Timestamp → String
  noneNotOlder : Timestamp → Except PyError Bool
  noneOlder : Timestamp → Except PyError Bool

inductive Failure
  | python (e : PyError)
  | engine (e : EngineObjects.Error)
  | refused

/-- The Object a name resolves to and the metadata stored with it. -/
structure Held where
  object : Object
  blob : Bytes

variable (lib : Server)

def raising {α : Type} : Except PyError α → Except Failure α
  | .error e => .error (.python e)
  | .ok a => .ok a

def calling {α : Type} : Except EngineObjects.Error α → Except Failure α
  | .error e => .error (.engine e)
  | .ok a => .ok a

/-- `BluestoreDiskFile.open` on what the name resolves to. -/
def Held.opens (held : Held) : Opened :=
  diskFileOpen lib.toLibrary
    (if held.object.state = .missing then none else some ⟨held.object.deleted, held.blob⟩)

/-- The metadata of `BluestoreDevice.open(name, with_metadata=True)`. -/
def Held.metadata (held : Held) : Except PyError (Option Metadata) :=
  if held.object.state = .missing then .ok none
  else (StoredMetadata.get lib.toLibrary held.blob).map some

/-- The sections a PUT or DELETE stores. -/
def Held.sections (held : Held) (data : Dict) : Except PyError Json := do
  let prev ← held.metadata lib
  StoredMetadata.put lib.toLibrary prev data

/-- The end of `BluestoreDevice.put` and `delete`: a put that loses is dropped. -/
def Held.handOver (held : Held) (p : ℕ) (next : Object) (blob : Bytes) (ts : ℕ) :
    Except Failure Held :=
  match Backend.put p next held.object (some ts) with
  | .ok (settled, _, _) => .ok ⟨settled, blob⟩
  | .error (.conflict _ _ _ _) => .ok held
  | .error e => .error (.engine e)

/-- `BluestoreDevice.put`. -/
def Held.put (held : Held) (p : ℕ) (obj : Object) (ts : ℕ) (data : Dict) :
    Except Failure Held := do
  let sections ← raising (held.sections lib data)
  let written ← calling (obj.writeMetadata (lib.dumps sections))
  held.handOver p written.1 (lib.dumps sections) ts

/-- `BluestoreDevice.delete`. -/
def Held.delete (held : Held) (p estimate ts : ℕ) (data : Dict) : Except Failure Held := do
  let sections ← raising (held.sections lib data)
  let tomb ← calling ((Backend.create p held.object.name estimate).tombstone (lib.dumps sections))
  held.handOver p tomb.1 (lib.dumps sections) ts

/-- The timestamp the server compares a request with. -/
def origTimestamp : Opened → Except PyError (Option Timestamp)
  | .opened metadata => .ok metadata.dataTs
  | .deleted _ ts => .ok (some ts)
  | .notExist | .quarantined => .ok (some Timestamp.zero)
  | .raised e => .error e

def notOlder (orig : Option Timestamp) (ts : Timestamp) : Except PyError Bool :=
  match orig with
  | some t => .ok (decide (t ≥ ts))
  | none => lib.noneNotOlder ts

def older (orig : Option Timestamp) (ts : Timestamp) : Except PyError Bool :=
  match orig with
  | some t => .ok (decide (t < ts))
  | none => lib.noneOlder ts

/-- `Timestamp(orig_metadata.get('X-Delete-At') or 0)`. -/
def deleteAt : Opened → Except PyError Timestamp
  | .opened metadata =>
      match metadata.merged.lookup "X-Delete-At" with
      | some value => if value.truthy then lib.stamp value else .ok Timestamp.zero
      | none => .ok Timestamp.zero
  | _ => .ok Timestamp.zero

/-- `BluestoreDiskFileWriter.write` of each chunk. -/
def writeChunks (obj : Object) : List Bytes → Except EngineObjects.Error Object
  | [] => .ok obj
  | chunk :: rest =>
      match obj.write chunk with
      | .error e => .error e
      | .ok written => writeChunks written.1 rest

/-- A request without conditions of its own: a PUT has its body's chunks and
the metadata made of its headers. -/
inductive Request
  | put (ts : Timestamp) (chunks : List Bytes) (metadata : Dict)
  | delete (ts : Timestamp)

def Request.timestamp : Request → Timestamp
  | .put ts _ _ => ts
  | .delete ts => ts

def Request.deletes : Request → Bool
  | .put _ _ _ => false
  | .delete _ => true

/-- The metadata the request writes. -/
def Request.data : Request → Dict
  | .put _ _ metadata => metadata
  | .delete ts => [("X-Timestamp", .string (lib.internal ts))]

/-- What the object server checks first, for a PUT in `_pre_create_checks`. -/
def checks (opened : Opened) : Request → Except Failure Unit
  | .put ts _ _ => do
      let orig ← raising (origTimestamp opened)
      let stale ← raising (notOlder lib orig ts)
      if stale then .error .refused else .ok ()
  | .delete ts => do
      let orig ← raising (origTimestamp opened)
      let _ ← raising (deleteAt lib opened)
      let fresh ← raising (older lib orig ts)
      if fresh then .ok () else .error .refused

/-- What it does then through the DiskFile: a PUT's writer writes each chunk
and puts, a DELETE deletes. -/
def perform (held : Held) (p estimate : ℕ) : Request → Except Failure Held
  | .put _ chunks metadata => do
      let obj ← calling (writeChunks (Backend.create p held.object.name estimate) chunks)
      let stamp ← raising (Dict.item metadata "X-Timestamp" >>= lib.stamp)
      held.put lib p obj stamp.tick metadata
  | .delete ts => held.delete lib p estimate ts.tick ((Request.delete ts).data lib)

/-- `PUT` and `DELETE` of the object server. -/
def serve (held : Held) (p estimate : ℕ) (request : Request) : Except Failure Held := do
  checks lib (held.opens lib) request
  perform lib held p estimate request

/-- What an open answers once the request's own metadata is there. -/
def Shows (request : Request) (opened : Opened) : Prop :=
  match request, opened with
  | .put _ _ metadata, .opened found => found.dataSection = metadata
  | .delete ts, .deleted found _ => found = (Request.delete ts).data lib
  | _, _ => False

/-- The request's version holds the name, and an open finds it with the
metadata the request wrote. -/
def TakesOver (request : Request) (result : Except Failure Held) : Prop :=
  ∃ held, result = .ok held ∧ held.object.state = .active ∧
    held.object.ts = request.timestamp.tick ∧ Shows lib request (held.opens lib)

/-- The metadata as the server makes it: its timestamp is the request's, and a
type's timestamp, if it has one, is one. -/
structure Sound (request : Request) : Prop where
  stamped : ∃ value, (request.data lib).lookup "X-Timestamp" = some value ∧
    value.truthy = true ∧ lib.stamp value = .ok request.timestamp
  typed : ∀ value, (request.data lib).lookup "Content-Type-Timestamp" = some value →
    ∃ t, lib.stamp value = .ok t

/-- What the libraries document: a Timestamp compares with `None` as neither
older nor equal, DiskFileDeleted takes its timestamp from `X-Timestamp`, and
neither timestamp's key is one of system metadata. -/
structure Documented : Prop where
  noneNotOlder : ∀ ts, lib.noneNotOlder ts = .ok false
  noneOlder : ∀ ts, lib.noneOlder ts = .ok true
  newerThanNone : ∀ ts, lib.newerThanNone none (some ts) = .ok false
  deletedTimestamp : ∀ d value, d.lookup "X-Timestamp" = some value →
    lib.deletedTimestamp d = lib.stamp value
  timestamp : lib.isSysMeta "X-Timestamp" = false
  typeTimestamp : lib.isSysMeta "Content-Type-Timestamp" = false

/-- What a request needs of the metadata decoded from the blob: what was posted
is a dictionary, and the last write recorded is older. A DELETE also converts
the expiry. -/
structure Replaceable (deleted : Bool) (request : Request) (m : Metadata) : Prop where
  posted : m.metaSection.isNull = true ∨ ∃ d, attributes m.metaSection = .ok d
  tombstone : deleted = true →
    ∃ t, lib.deletedTimestamp m.dataSection = .ok t ∧ t < request.timestamp
  live : deleted = false → ∀ t, m.dataTs = some t → t < request.timestamp
  expiry : deleted = false → ∀ ts, request = .delete ts →
    ∃ t, deleteAt lib (.opened m) = .ok t

variable {lib}

theorem raising_ok {α : Type} {x : Except PyError α} {a : α} : raising x = .ok a ↔ x = .ok a := by
  cases x <;> simp [raising]

theorem writeChunks_ok {obj : Object} (hstate : obj.state = .preWrite ∨ obj.state = .inWrite)
    (chunks : List Bytes) :
    ∃ written, writeChunks obj chunks = .ok written ∧
      (written.state = .preWrite ∨ written.state = .inWrite) ∧ written.name = obj.name ∧
      written.back = obj.back ∧ written.deleted = obj.deleted := by
  induction chunks generalizing obj with
  | nil => exact ⟨obj, rfl, hstate, rfl, rfl, rfl⟩
  | cons chunk rest ih =>
    obtain ⟨written, hrest, hs, hn, hb, hd⟩ :=
      @ih { obj with state := .inWrite, written := obj.written + chunk.length } (Or.inr rfl)
    refine ⟨written, ?_, hs, hn, hb, hd⟩
    rw [writeChunks, EngineObjects.write_eq hstate]
    exact hrest

/-- A put over an older holder of the same name settles. -/
theorem handOver_eq {held : Held} {p ts : ℕ} {next : Object} (blob : Bytes)
    (hactive : held.object.state = .active) (hback : held.object.back = p)
    (hnext : next.state = .inWrite) (hname : next.name = held.object.name) (hnextb : next.back = p)
    (hnewer : held.object.ts < ts) :
    held.handOver p next blob ts = .ok ⟨{ next with state := .active, ts }, blob⟩ := by
  unfold Held.handOver
  rw [EngineObjects.put_eq (some ts) hnext (Or.inl hactive) hname hnextb hback,
    if_neg (by simpa using hnewer)]
  rfl

theorem put_eq {held : Held} {p ts : ℕ} {obj : Object} (data : Dict)
    (hactive : held.object.state = .active) (hback : held.object.back = p)
    (hobj : obj.state = .preWrite ∨ obj.state = .inWrite) (hname : obj.name = held.object.name)
    (hobjb : obj.back = p) (hnewer : held.object.ts < ts) :
    held.put lib p obj ts data = (raising (held.sections lib data) >>= fun sections =>
      .ok ⟨{ obj with state := .active, ts }, lib.dumps sections⟩) := by
  unfold Held.put
  congr 1
  funext sections
  rw [EngineObjects.writeMetadata_eq hobj]
  exact handOver_eq _ hactive hback rfl hname hobjb hnewer

theorem delete_eq {held : Held} {p ts : ℕ} (estimate : ℕ) (data : Dict)
    (hactive : held.object.state = .active) (hback : held.object.back = p)
    (hnewer : held.object.ts < ts) :
    held.delete lib p estimate ts data = (raising (held.sections lib data) >>= fun sections =>
      .ok ⟨{ Backend.create p held.object.name estimate with
        deleted := true, state := .active, ts }, lib.dumps sections⟩) := by
  unfold Held.delete
  congr 1
  funext sections
  exact handOver_eq _ hactive hback rfl rfl rfl hnewer

/-- Past the checks, only the sections can fail. -/
theorem perform_eq {held : Held} (p estimate : ℕ) {request : Request}
    (hactive : held.object.state = .active) (hback : held.object.back = p)
    (hnewer : held.object.ts < request.timestamp.tick) (hsound : Sound lib request) :
    ∃ settled : Object, settled.state = .active ∧ settled.ts = request.timestamp.tick ∧
      settled.deleted = request.deletes ∧
      perform lib held p estimate request =
        (raising (held.sections lib (request.data lib)) >>= fun sections =>
          .ok ⟨settled, lib.dumps sections⟩) := by
  cases request with
  | put ts chunks metadata =>
    obtain ⟨obj, hchunks, hobj, hname, hobjb, hdeleted⟩ :=
      @writeChunks_ok (Backend.create p held.object.name estimate) (Or.inl rfl) chunks
    obtain ⟨value, hvalue, -, hstamp⟩ := hsound.stamped
    have hitem : (Dict.item metadata "X-Timestamp" >>= lib.stamp) = .ok ts := by
      have hvalue : metadata.lookup "X-Timestamp" = some value := hvalue
      rw [Dict.item, hvalue]
      exact hstamp
    refine ⟨{ obj with state := .active, ts := ts.tick }, rfl, rfl, hdeleted, ?_⟩
    unfold perform
    dsimp only
    rw [hchunks, hitem]
    exact put_eq metadata hactive hback hobj hname hobjb hnewer
  | delete ts =>
    exact ⟨{ Backend.create p held.object.name estimate with
      deleted := true, state := .active, ts := ts.tick }, rfl, rfl, rfl,
      delete_eq estimate _ hactive hback hnewer⟩

/-- A request takes over exactly if its checks pass and it has sections to
store; an open reads them back. -/
theorem takesOver_iff_sections {held : Held} (p estimate : ℕ) {request : Request}
    (hactive : held.object.state = .active) (hback : held.object.back = p)
    (hnewer : held.object.ts < request.timestamp.tick) (hsound : Sound lib request) :
    TakesOver lib request (serve lib held p estimate request) ↔
      checks lib (held.opens lib) request = .ok () ∧
        ∃ sections, held.sections lib (request.data lib) = .ok sections ∧
          Shows lib request
            (diskFileOpen lib.toLibrary (some ⟨request.deletes, lib.dumps sections⟩)) := by
  obtain ⟨settled, hstate, hts, hdeleted, heq⟩ := perform_eq p estimate hactive hback hnewer hsound
  have hopens : ∀ blob, Held.opens lib ⟨settled, blob⟩ =
      diskFileOpen lib.toLibrary (some ⟨request.deletes, blob⟩) := by
    intro blob
    rw [Held.opens, if_neg (by simp [hstate]), hdeleted]
  unfold TakesOver serve
  simp only [heq, bind_ok, raising_ok]
  constructor
  · rintro ⟨after, ⟨_, hchecks, sections, hsections, hafter⟩, _, _, hshows⟩
    obtain rfl := Except.ok.inj hafter
    exact ⟨hchecks, sections, hsections, by rwa [hopens] at hshows⟩
  · rintro ⟨hchecks, sections, hsections, hshows⟩
    exact ⟨_, ⟨(), hchecks, sections, hsections, rfl⟩, hstate, hts, by rwa [hopens]⟩

/-- The checks pass exactly on what is older, or has no timestamp. -/
theorem checks_iff (hlib : Documented lib) (opened : Opened) (request : Request) :
    checks lib opened request = .ok () ↔
      ∃ orig, origTimestamp opened = .ok orig ∧ (∀ t, orig = some t → t < request.timestamp) ∧
        ∀ ts, request = .delete ts → ∃ t, deleteAt lib opened = .ok t := by
  cases request with
  | put ts chunks metadata =>
    simp only [checks, bind_ok, raising_ok, Request.timestamp]
    constructor
    · rintro ⟨orig, horig, stale, hstale, h⟩
      refine ⟨orig, horig, fun t ht => ?_, fun ts hts => by contradiction⟩
      subst ht
      obtain rfl := Except.ok.inj hstale
      by_contra hnot
      rw [if_pos (decide_eq_true (not_lt.mp hnot))] at h
      contradiction
    · rintro ⟨orig, horig, holder, -⟩
      refine ⟨orig, horig, false, ?_, rfl⟩
      cases orig with
      | none => exact hlib.noneNotOlder ts
      | some t => exact congrArg Except.ok (decide_eq_false (not_le.mpr (holder t rfl)))
  | delete ts =>
    simp only [checks, bind_ok, raising_ok, Request.timestamp]
    constructor
    · rintro ⟨orig, horig, expiry, hexpiry, fresh, hfresh, h⟩
      refine ⟨orig, horig, fun t ht => ?_, fun _ _ => ⟨expiry, hexpiry⟩⟩
      subst ht
      obtain rfl := Except.ok.inj hfresh
      by_contra hnot
      rw [if_neg (by simpa using hnot)] at h
      contradiction
    · rintro ⟨orig, horig, holder, hexpiry⟩
      obtain ⟨expiry, hexpiry⟩ := hexpiry ts rfl
      refine ⟨orig, horig, expiry, hexpiry, true, ?_, rfl⟩
      cases orig with
      | none => exact hlib.noneOlder ts
      | some t => exact congrArg Except.ok (decide_eq_true (holder t rfl))

/-- What the checks see of a blob that the decoder takes. -/
theorem checks_decoded (hlib : Documented lib) {held : Held} {request : Request} {m : Metadata}
    (hactive : held.object.state = .active)
    (hget : StoredMetadata.get lib.toLibrary held.blob = .ok m) :
    checks lib (held.opens lib) request = .ok () ↔
      (held.object.deleted = true →
        ∃ t, lib.deletedTimestamp m.dataSection = .ok t ∧ t < request.timestamp) ∧
      (held.object.deleted = false → ∀ t, m.dataTs = some t → t < request.timestamp) ∧
      (held.object.deleted = false → ∀ ts, request = .delete ts →
        ∃ t, deleteAt lib (.opened m) = .ok t) := by
  rw [checks_iff hlib]
  unfold Held.opens diskFileOpen
  rw [if_neg (by simp [hactive])]
  dsimp only
  rw [hget]
  cases held.object.deleted with
  | false => simp [origTimestamp]
  | true =>
    cases hts : lib.deletedTimestamp m.dataSection with
    | error e => simp [origTimestamp, hts]
    | ok t => simp [origTimestamp, hts, deleteAt]

/-! What a blob that is read says of its sections, and what makes one read. -/

theorem passes_get {lib : Library} {sections : Json} :
    (∃ m, getSections lib sections = .ok m) ↔
      ∀ access ∈ path lib sections, access.fails lib = none := by
  rw [← List.findSome?_eq_none_iff]
  have htrace := @traces_get lib sections
  cases hget : getSections lib sections with
  | error e =>
    rw [hget] at htrace
    have hfirst : (path lib sections).findSome? (Access.fails lib) = some e := htrace
    simp [hfirst]
  | ok m =>
    rw [hget] at htrace
    simp [htrace.1]

theorem getSections_ok {lib : Library} {sections : Json} {m : Metadata}
    (h : getSections lib sections = .ok m) :
    m.metaSection = postedOf sections ∧ m.dataSection = fieldsOf (dataOf sections) := by
  have htrace := @traces_get lib sections
  rw [h] at htrace
  refine ⟨?_, htrace.2.dataSection⟩
  obtain ⟨data, hdata, h⟩ := bind_ok.mp h
  obtain ⟨fields, hfields, h⟩ := bind_ok.mp h
  obtain ⟨merged, -, h⟩ := bind_ok.mp h
  obtain ⟨metaTs, -, h⟩ := bind_ok.mp h
  obtain ⟨d, -, h⟩ := bind_ok.mp h
  obtain ⟨dataTs, -, h⟩ := bind_ok.mp h
  obtain ⟨fallback, -, h⟩ := bind_ok.mp h
  obtain ⟨typeTs, -, h⟩ := bind_ok.mp h
  obtain rfl := Except.ok.inj h
  rw [postedOf, fieldsOf_eq hfields]

theorem belongs_timestamp (hlib : Documented lib) :
    belongsToData lib.isSysMeta "X-Timestamp" = false := by
  rw [belongsToData, hlib.timestamp]
  decide

theorem belongs_typeTimestamp (hlib : Documented lib) :
    belongsToData lib.isSysMeta "Content-Type-Timestamp" = false := by
  rw [belongsToData, hlib.typeTimestamp]
  decide

/-- A key that is not the data's is the POST's in the overlay. -/
theorem overlaid_lookup {lib : Library} {data : Json} {posted : Dict} {key : String}
    (hkey : belongsToData lib.isSysMeta key = false) :
    (overlaid lib data (.object posted)).lookup key = posted.lookup key := by
  have hentries : entriesOf (.object posted) = posted := rfl
  rw [overlaid, Dict.lookup_update, Dict.lookup_filter_key, if_neg (by simp [hkey]), hentries]
  rfl

theorem convert_ok {lib : Library} {value : Json} :
    (Access.convert value).fails lib = none ↔ ∃ t, lib.stamp value = .ok t := by
  rw [Access.fails]
  cases lib.stamp value <;> simp [QuarantinedBlobs.failure]

theorem converts_timeOf {lib : Library} {d : Dict} :
    (∀ access ∈ convertsTruthy (d.lookup "X-Timestamp"), access.fails lib = none) ↔
      ∃ ts, timeOf lib d = .ok ts := by
  have htrace := @traces_timeOf lib d
  rw [← List.findSome?_eq_none_iff]
  cases htime : timeOf lib d with
  | error e =>
    rw [htime] at htrace
    have hfirst : (convertsTruthy (d.lookup "X-Timestamp")).findSome? (Access.fails lib) = some e :=
      htrace
    simp [hfirst]
  | ok ts =>
    rw [htime] at htrace
    simp [htrace.1]

/-- Both timestamps of a POST are ones the library takes. -/
structure Postable (lib : Library) (posted : Dict) : Prop where
  timestamp : ∃ ts, timeOf lib posted = .ok ts
  typed : ∀ value, posted.lookup "Content-Type-Timestamp" = some value →
    ∃ t, lib.stamp value = .ok t

/-- What was posted is converted whenever a blob is read, whatever the data. -/
theorem postable_of_get (hlib : Documented lib) {sections : Json} {posted : Dict}
    (hget : ∃ m, getSections lib.toLibrary sections = .ok m)
    (hposted : postedOf sections = .object posted) : Postable lib.toLibrary posted := by
  have hpath := passes_get.mp hget
  unfold path at hpath
  rw [hposted] at hpath
  have hnull : (Json.object posted).isNull = false := rfl
  refine ⟨converts_timeOf.mp fun access haccess => hpath access ?_, fun value hvalue => ?_⟩
  · rw [timesPath, shownSource, hnull, if_neg (by simp), overlaid_lookup (belongs_timestamp hlib)]
    simp [haccess]
  · refine convert_ok.mp (hpath _ ?_)
    cases htype : ((fieldsOf (dataOf sections)).lookup "Content-Type").isSome with
    | true =>
      -- the type is compared with the POST's own
      have hfields : fieldsOf (Json.object posted) = posted := rfl
      simp [mergePath, hnull, htype, ctypePath, hfields, hvalue]
    | false =>
      have hown : ownType lib.toLibrary (dataOf sections) (.object posted) = false := by
        simp [ownType, htype]
      simp [timesPath, typeSource, hnull, hown, overlaid_lookup (belongs_typeTimestamp hlib), hvalue]

/-- A blob holds what a request writes, and no POST or one that is converted. -/
structure Written (lib : Server) (request : Request) (sections : Json) : Prop where
  data : StoredMetadata.subscript sections "data" = .ok (.object (request.data lib))
  posted : postedOf sections = .null ∨
    ∃ posted, postedOf sections = .object posted ∧ Postable lib.toLibrary posted

theorem Written.dataOf_eq {request : Request} {sections : Json} (h : Written lib request sections) :
    dataOf sections = .object (request.data lib) := by
  have hdata := h.data
  cases sections with
  | object fields =>
    have hfields : fieldsOf (.object fields) = fields := rfl
    rw [dataOf, hfields, item_ok hdata]
    rfl
  | _ => contradiction

theorem timeOf_sound {request : Request} (hsound : Sound lib request) :
    timeOf lib.toLibrary (request.data lib) = .ok (some request.timestamp) := by
  obtain ⟨value, hvalue, htruthy, hstamp⟩ := hsound.stamped
  rw [timeOf, hvalue]
  simp [htruthy, hstamp, Except.map]

/-- Merging what was posted into a request's own metadata never fails. -/
theorem passes_merge {request : Request} {posted : Json} (hsound : Sound lib request)
    (hposted : posted = .null ∨ ∃ d, posted = .object d ∧ Postable lib.toLibrary d) :
    ∀ access ∈ mergePath (.object (request.data lib)) posted,
      access.fails lib.toLibrary = none := by
  obtain ⟨value, hvalue, -, hstamp⟩ := hsound.stamped
  have hown : timestampOf (fieldsOf (.object (request.data lib))) = value :=
    timestampOf_eq rfl hvalue
  obtain rfl | ⟨d, rfl, hd⟩ := hposted
  · have hpath : mergePath (.object (request.data lib)) .null =
        [.build (.object (request.data lib))] := rfl
    rw [hpath]
    simp [Access.fails, dictOf, QuarantinedBlobs.failure]
  · have hfields : fieldsOf (.object d) = d := rfl
    intro access haccess
    simp only [mergePath, Json.isNull, Bool.false_eq_true, if_false, hown] at haccess
    rw [List.mem_append] at haccess
    rcases haccess with hfirst | htype
    · simp only [List.mem_cons, List.not_mem_nil, or_false] at hfirst
      rcases hfirst with rfl | rfl <;> rfl
    · split at htype
      swap
      · simp at htype
      simp only [ctypePath, hfields, List.mem_append, List.mem_cons, List.not_mem_nil, or_false,
        List.mem_map, Option.mem_toList] at htype
      rcases htype with (rfl | rfl) | rfl | ⟨v, hv, rfl⟩
      · simp [Access.fails, StoredMetadata.subscript, Dict.item, hvalue, QuarantinedBlobs.failure]
      · exact convert_ok.mpr ⟨_, hstamp⟩
      · rfl
      · exact convert_ok.mpr (hd.typed v hv)

/-- Nor does converting the timestamps. -/
theorem passes_times (hlib : Documented lib) {request : Request} {posted : Json}
    (hsound : Sound lib request)
    (hposted : posted = .null ∨ ∃ d, posted = .object d ∧ Postable lib.toLibrary d) :
    ∀ access ∈ timesPath lib.toLibrary (.object (request.data lib)) posted,
      access.fails lib.toLibrary = none := by
  obtain ⟨value, hvalue, -, hstamp⟩ := hsound.stamped
  have hown : timestampOf (request.data lib) = value := by
    rw [timestampOf, hvalue]
    rfl
  have hfields : fieldsOf (.object (request.data lib)) = request.data lib := rfl
  have hshown : ∀ access ∈ convertsTruthy (shownSource lib.toLibrary (.object (request.data lib))
      posted), access.fails lib.toLibrary = none := by
    obtain rfl | ⟨d, rfl, hd⟩ := hposted
    · exact converts_timeOf.mpr ⟨_, timeOf_sound hsound⟩
    · rw [shownSource, if_neg (by simp [Json.isNull]), overlaid_lookup (belongs_timestamp hlib)]
      exact converts_timeOf.mpr hd.timestamp
  have htyped : ∃ t, lib.stamp (typeSource lib.toLibrary (.object (request.data lib)) posted) =
      .ok t := by
    obtain rfl | ⟨d, rfl, hd⟩ := hposted
    · simp only [typeSource, Json.isNull, if_true, hfields, hown]
      cases htype : (request.data lib).lookup "Content-Type-Timestamp" with
      | none => exact ⟨_, hstamp⟩
      | some v => exact hsound.typed v htype
    · simp only [typeSource, Json.isNull, Bool.false_eq_true, if_false, hfields, hown,
        overlaid_lookup (belongs_typeTimestamp hlib)]
      split
      · exact ⟨_, hstamp⟩
      · cases htype : d.lookup "Content-Type-Timestamp" with
        | none => exact ⟨_, hstamp⟩
        | some v => exact hd.typed v htype
  intro access haccess
  simp only [timesPath, List.mem_append, List.mem_cons, List.not_mem_nil, or_false,
    hfields] at haccess
  rcases haccess with ((h | rfl) | h) | rfl | rfl
  · exact hshown access h
  · rfl
  · exact converts_timeOf.mpr ⟨_, timeOf_sound hsound⟩ access h
  · simp [Access.fails, StoredMetadata.subscript, Dict.item, hvalue, QuarantinedBlobs.failure]
  · exact convert_ok.mpr htyped

/-- What a request writes is read back. -/
theorem shows_written (hlib : Documented lib) {request : Request} {sections : Json}
    (hsound : Sound lib request) (hwritten : Written lib request sections) {blob : Bytes}
    (hblob : lib.loads blob = .ok sections) :
    Shows lib request (diskFileOpen lib.toLibrary (some ⟨request.deletes, blob⟩)) := by
  have hpath : ∀ access ∈ path lib.toLibrary sections, access.fails lib.toLibrary = none := by
    intro access haccess
    simp only [path, hwritten.dataOf_eq, List.mem_append, List.mem_singleton] at haccess
    rcases haccess with (rfl | h) | h
    · rw [Access.fails, hwritten.data]
      rfl
    · exact passes_merge hsound hwritten.posted access h
    · exact passes_times hlib hsound hwritten.posted access h
  obtain ⟨m, hm⟩ := passes_get.mpr hpath
  have hdata : m.dataSection = request.data lib := by
    rw [(getSections_ok hm).2, hwritten.dataOf_eq]
    rfl
  have hget : StoredMetadata.get lib.toLibrary blob = .ok m := by
    rw [StoredMetadata.get, hblob]
    exact hm
  unfold diskFileOpen
  dsimp only
  rw [hget]
  cases request with
  | put ts chunks metadata => exact hdata
  | delete ts =>
    obtain ⟨value, hvalue, -, hstamp⟩ := hsound.stamped
    have hts : lib.deletedTimestamp m.dataSection = .ok ts := by
      rw [hdata, hlib.deletedTimestamp _ value hvalue]
      exact hstamp
    simp only [Request.deletes, if_true, hts]
    exact hdata

theorem metadata_eq {held : Held} (hactive : held.object.state = .active) :
    held.metadata lib = (StoredMetadata.get lib.toLibrary held.blob).map some := by
  rw [Held.metadata, if_neg (by simp [hactive])]

/-- Carrying a POST over needs a dictionary, and compares its timestamp. -/
theorem put_some (hlib : Documented lib) {request : Request} {m : Metadata} {posted : Dict}
    (hsound : Sound lib request) (hposted : m.metaSection = .object posted)
    (hpostable : Postable lib.toLibrary posted) :
    ∃ sections, StoredMetadata.put lib.toLibrary (some m) (request.data lib) = .ok sections ∧
      Written lib request sections := by
  have hfresh : Written lib request (.object [("data", .object (request.data lib))]) :=
    ⟨rfl, Or.inl rfl⟩
  have hkept : Written lib request
      (.object [("data", .object (request.data lib)), ("meta", .object posted)]) :=
    ⟨rfl, Or.inr ⟨posted, rfl, hpostable⟩⟩
  obtain ⟨postedTs, hts⟩ := hpostable.timestamp
  unfold StoredMetadata.put
  simp only [hposted, Json.isNull, Bool.false_eq_true, if_false, attributes, timeOf_sound hsound]
  cases postedTs with
  | none =>
    refine ⟨_, ?_, hfresh⟩
    simp [hts, hlib.newerThanNone, bind, Except.bind, pure, Except.pure]
  | some t =>
    by_cases hnewer : t > request.timestamp
    · refine ⟨_, ?_, hkept⟩
      simp [hts, hnewer, bind, Except.bind, pure, Except.pure]
    · refine ⟨_, ?_, hfresh⟩
      simp [hts, hnewer, bind, Except.bind, pure, Except.pure]

/-- The decoder took the blob of a name that was given sections to store, and
what was posted is a dictionary. -/
theorem decoded_of_sections {held : Held} {data : Dict} {sections : Json}
    (hactive : held.object.state = .active) (h : held.sections lib data = .ok sections) :
    ∃ m, StoredMetadata.get lib.toLibrary held.blob = .ok m ∧
      (m.metaSection.isNull = true ∨ ∃ d, attributes m.metaSection = .ok d) := by
  unfold Held.sections at h
  rw [metadata_eq hactive] at h
  obtain ⟨prev, hprev, h⟩ := bind_ok.mp h
  cases hget : StoredMetadata.get lib.toLibrary held.blob with
  | error e =>
    rw [hget] at hprev
    contradiction
  | ok m =>
    rw [hget] at hprev
    obtain rfl := Except.ok.inj hprev
    refine ⟨m, rfl, ?_⟩
    cases hnull : m.metaSection.isNull with
    | true => exact Or.inl rfl
    | false =>
      right
      simp only [StoredMetadata.put, hnull, Bool.false_eq_true, if_false] at h
      obtain ⟨d, hd, -⟩ := bind_ok.mp h
      exact ⟨d, hd⟩

theorem sections_of_decoded (hlib : Documented lib) {held : Held} {request : Request}
    {m : Metadata} (hactive : held.object.state = .active) (hsound : Sound lib request)
    (hget : StoredMetadata.get lib.toLibrary held.blob = .ok m)
    (hposted : m.metaSection.isNull = true ∨ ∃ d, attributes m.metaSection = .ok d) :
    ∃ sections, held.sections lib (request.data lib) = .ok sections ∧
      Written lib request sections := by
  unfold Held.sections
  rw [metadata_eq hactive, hget]
  rcases hposted with hnull | ⟨d, hd⟩
  · refine ⟨.object [("data", .object (request.data lib))], ?_, rfl, Or.inl rfl⟩
    change StoredMetadata.put lib.toLibrary (some m) (request.data lib) = _
    simp only [StoredMetadata.put, hnull, if_true]
    rfl
  · have hobject := attributes_ok hd
    obtain ⟨sections, -, hm⟩ := bind_ok.mp hget
    have hmeta : postedOf sections = .object d := by rw [← (getSections_ok hm).1, hobject]
    exact put_some hlib hsound hobject (postable_of_get hlib ⟨m, hm⟩ hmeta)

/-- A PUT or DELETE newer than the Object takes the name over exactly if the
decoder takes the stored blob, what was posted is a dictionary and the last
write the blob records is older. -/
theorem takes_over_iff (hlib : Documented lib) {held : Held} {p : ℕ} (estimate : ℕ)
    {request : Request} (hactive : held.object.state = .active) (hback : held.object.back = p)
    (hnewer : held.object.ts < request.timestamp.tick) (hsound : Sound lib request)
    (hround : ∀ sections, held.sections lib (request.data lib) = .ok sections →
      lib.loads (lib.dumps sections) = .ok sections) :
    TakesOver lib request (serve lib held p estimate request) ↔
      ∃ m, StoredMetadata.get lib.toLibrary held.blob = .ok m ∧
        Replaceable lib held.object.deleted request m := by
  rw [takesOver_iff_sections p estimate hactive hback hnewer hsound]
  constructor
  · rintro ⟨hchecks, sections, hsections, -⟩
    obtain ⟨m, hget, hposted⟩ := decoded_of_sections hactive hsections
    obtain ⟨htombstone, hlive, hexpiry⟩ := (checks_decoded hlib hactive hget).mp hchecks
    exact ⟨m, hget, hposted, htombstone, hlive, hexpiry⟩
  · rintro ⟨m, hget, hrep⟩
    obtain ⟨sections, hsections, hwritten⟩ :=
      sections_of_decoded hlib hactive hsound hget hrep.posted
    exact ⟨(checks_decoded hlib hactive hget).mpr ⟨hrep.tombstone, hrep.live, hrep.expiry⟩,
      sections, hsections, shows_written hlib hsound hwritten (hround sections hsections)⟩

/-- The sections of an object written at a second. -/
def writtenAt (internal : String) : Json :=
  .object [("data", .object [("X-Timestamp", .string internal)])]

def stampOf : Json → Except PyError Timestamp
  | .string "0000000001.00000" => .ok ⟨100000, 0⟩
  | .string "0000000002.00000" => .ok ⟨200000, 0⟩
  | .string _ => .error .valueError
  | _ => .error .typeError

/-- The libraries on two blobs, here of a byte each. -/
def twoBlobs : Server where
  loads := fun blob =>
    if blob = [49] then .ok (writtenAt "0000000001.00000")
    else if blob = [50] then .ok (writtenAt "0000000002.00000")
    else .error .valueError
  stamp := stampOf
  isSysMeta := fun _ => false
  deletedTimestamp := fun d =>
    match d.lookup "X-Timestamp" with
    | some value => stampOf value
    | none => .ok Timestamp.zero
  newerThanNone := fun ts other => .ok (ts.isSome && other.isNone)
  dumps := fun _ => [50]
  internal := fun _ => "0000000002.00000"
  noneNotOlder := fun _ => .ok false
  noneOlder := fun _ => .ok true

/-- An Object put at 100000, with a blob. -/
def heldWith (blob : Bytes) : Held where
  object :=
    { name := "a/c/o", ts := 100000, deleted := false, state := .active, back := 0, written := 0
      done := none }
  blob := blob

theorem documented_twoBlobs : Documented twoBlobs where
  noneNotOlder := fun _ => rfl
  noneOlder := fun _ => rfl
  newerThanNone := fun _ => rfl
  deletedTimestamp := fun d value h => by
    change (match d.lookup "X-Timestamp" with
      | some value => stampOf value
      | none => .ok Timestamp.zero) = stampOf value
    rw [h]
  timestamp := rfl
  typeTimestamp := rfl

theorem takes_over_iff_replaced :
    TakesOver twoBlobs (.delete ⟨200000, 0⟩)
      (serve twoBlobs (heldWith [49]) 0 150000 (.delete ⟨200000, 0⟩)) := by
  have hsound : Sound twoBlobs (.delete ⟨200000, 0⟩) :=
    ⟨⟨_, rfl, rfl, rfl⟩, fun value h => by contradiction⟩
  refine (takes_over_iff documented_twoBlobs 150000 rfl rfl (by decide) hsound
    fun sections h => ?_).mpr ⟨_, rfl, Or.inl rfl, fun h => by contradiction,
      fun _ t ht => ?_, fun _ _ _ => ⟨_, rfl⟩⟩
  · obtain rfl := Except.ok.inj h
    rfl
  · obtain rfl := Option.some.inj ht
    decide

/-- A PUT and a DELETE of a name whose blob is not JSON. -/
theorem unreadable_stays :
    ¬ TakesOver twoBlobs (.put ⟨200000, 0⟩ [] [("X-Timestamp", .string "0000000002.00000")])
        (serve twoBlobs (heldWith [91]) 0 150000
          (.put ⟨200000, 0⟩ [] [("X-Timestamp", .string "0000000002.00000")])) ∧
      ¬ TakesOver twoBlobs (.delete ⟨200000, 0⟩)
        (serve twoBlobs (heldWith [91]) 0 150000 (.delete ⟨200000, 0⟩)) := by
  constructor
  · rintro ⟨held, h, -⟩
    contradiction
  · rintro ⟨held, h, -⟩
    contradiction

end Swiftacular.UnreadableNames
