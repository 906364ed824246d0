import Swiftacular.StoredMetadata

/-!
Opening a DiskFile on whatever is stored. The decoder goes through the stored
value access by access, and the DiskFile answers for two kinds of failure
only; so what counts is the first access that fails.
-/
namespace Swiftacular.QuarantinedBlobs

open EntryStore Timestamps StoredMetadata
open MetadataModel (belongsToData)

variable (lib : Library)

/-- What holds a name: whether it is a tombstone, and its metadata. -/
structure Holder where
  deleted : Bool
  blob : Bytes

/-- How `BluestoreDiskFile.open` ends. -/
inductive Opened
  | opened (metadata : Metadata)
  | notExist
  | deleted (metadata : Dict) (timestamp : Timestamp)
  | quarantined
  | raised (e : PyError)

/-- `BluestoreDiskFile.open`, of a name nothing holds or of its holder. -/
def diskFileOpen : Option Holder → Opened
  | none => .notExist
  | some holder =>
      match get lib holder.blob with
      | .error e => if e.caught then .quarantined else .raised e
      | .ok metadata =>
          if holder.deleted then
            match lib.deletedTimestamp metadata.dataSection with
            | .error e => .raised e
            | .ok ts => .deleted metadata.dataSection ts
          else .opened metadata

/-- The answers an open may give: where it succeeds, `timestamp` and
`data_timestamp` are defined; the merged metadata and the type's timestamp
always are. -/
def Answers : Opened → Prop
  | .opened metadata => metadata.metaTs.isSome ∧ metadata.dataTs.isSome
  | .notExist | .deleted _ _ | .quarantined => True
  | .raised _ => False

/-! The accesses the decoder makes, in order. -/

inductive Access
  | subscript (value : Json) (key : String)
  | attribute (value : Json)
  | build (value : Json)
  | convert (value : Json)

def failure {α : Type} : Except PyError α → Option PyError
  | .error e => some e
  | .ok _ => none

/-- What an access fails with. -/
def Access.fails : Access → Option PyError
  | .subscript value key => failure (StoredMetadata.subscript value key)
  | .attribute value => failure (attributes value)
  | .build value => failure (dictOf value)
  | .convert value => failure (lib.stamp value)

/-- A timestamp that is only converted where there is something to convert. -/
def convertsTruthy : Option Json → List Access
  | some value => if value.truthy then [.convert value] else []
  | none => []

/-- The fields of a value that is an object. -/
def fieldsOf (value : Json) : Dict := (attributes value).toOption.getD []

/-- The entries of the dictionary made of a value. -/
def entriesOf (value : Json) : Dict := (dictOf value).toOption.getD []

def timestampOf (d : Dict) : Json := (d.lookup "X-Timestamp").getD .null

/-- The POST's entries with what it can never change laid over them. -/
def overlaid (data posted : Json) : Dict :=
  Dict.update (entriesOf posted)
    ((fieldsOf data).filter fun entry => belongsToData lib.isSysMeta entry.1)

/-- Whether the data has a type of its own, newer than the POST's. -/
def ownType (data posted : Json) : Bool :=
  ((fieldsOf data).lookup "Content-Type").isSome &&
    match lib.stamp (timestampOf (fieldsOf data)), ctypeTimestamp lib posted with
    | .ok dataTs, .ok typeTs => dataTs > typeTs
    | _, _ => false

/-- What the type's timestamp is made from. -/
def typeSource (data posted : Json) : Json :=
  let own := timestampOf (fieldsOf data)
  if posted.isNull then ((fieldsOf data).lookup "Content-Type-Timestamp").getD own
  else if ownType lib data posted then own
  else ((overlaid lib data posted).lookup "Content-Type-Timestamp").getD own

/-- What the newest timestamp is made from. -/
def shownSource (data posted : Json) : Option Json :=
  if posted.isNull then (entriesOf data).lookup "X-Timestamp"
  else (overlaid lib data posted).lookup "X-Timestamp"

/-- The POST's own type. -/
def ctypePath (posted : Json) : List Access :=
  [.attribute posted] ++
    ((fieldsOf posted).lookup "Content-Type-Timestamp").toList.map Access.convert

/-- Building the merged metadata. -/
def mergePath (data posted : Json) : List Access :=
  if posted.isNull then [.build data]
  else [.build posted, .attribute data] ++
    if ((fieldsOf data).lookup "Content-Type").isSome then
      [.subscript data "X-Timestamp", .convert (timestampOf (fieldsOf data))] ++ ctypePath posted
    else []

/-- The timestamps after that. -/
def timesPath (data posted : Json) : List Access :=
  convertsTruthy (shownSource lib data posted) ++ [.attribute data] ++
    convertsTruthy ((fieldsOf data).lookup "X-Timestamp") ++
    [.subscript data "X-Timestamp", .convert (typeSource lib data posted)]

def postedOf (sections : Json) : Json := ((fieldsOf sections).lookup "meta").getD .null

def dataOf (sections : Json) : Json := ((fieldsOf sections).lookup "data").getD .null

def path (sections : Json) : List Access :=
  [.subscript sections "data"] ++ mergePath (dataOf sections) (postedOf sections) ++
    timesPath lib (dataOf sections) (postedOf sections)

/-- The first access that fails, if any does, fails as a ValueError or a
KeyError; if none does, a deleted Object's data is one DiskFileDeleted takes,
and a live one's two timestamps are there to convert. -/
def Tame (deleted : Bool) (blob : Bytes) : Prop :=
  match lib.loads blob with
  | .error e => e.caught
  | .ok sections =>
      match (path lib sections).findSome? (Access.fails lib) with
      | some e => e.caught
      | none =>
          if deleted then failure (lib.deletedTimestamp (fieldsOf (dataOf sections))) = none
          else (shownSource lib (dataOf sections) (postedOf sections)).any Json.truthy ∧
            ((fieldsOf (dataOf sections)).lookup "X-Timestamp").any Json.truthy

/-- A computation fails as the accesses do, and else ends with what is said. -/
def Traces {α : Type} (accesses : List Access) (x : Except PyError α) (P : α → Prop) : Prop :=
  match x with
  | .error e => accesses.findSome? (Access.fails lib) = some e
  | .ok a => accesses.findSome? (Access.fails lib) = none ∧ P a

variable {lib}

theorem traces_pure {α : Type} {a : α} {P : α → Prop} (h : P a) :
    Traces lib [] (pure a : Except PyError α) P := ⟨rfl, h⟩

theorem Traces.bind {α β : Type} {accesses more : List Access} {x : Except PyError α}
    {f : α → Except PyError β} {P : α → Prop} {Q : β → Prop} (hx : Traces lib accesses x P)
    (hf : ∀ a, x = .ok a → P a → Traces lib more (f a) Q) :
    Traces lib (accesses ++ more) (x >>= f) Q := by
  cases x with
  | error e =>
    have hx : accesses.findSome? (Access.fails lib) = some e := hx
    change (accesses ++ more).findSome? (Access.fails lib) = some e
    rw [List.findSome?_append, hx]
    rfl
  | ok a =>
    obtain ⟨hnone, hP⟩ := hx
    have hmore := hf a rfl hP
    have hskip : (accesses ++ more).findSome? (Access.fails lib) =
        more.findSome? (Access.fails lib) := by
      rw [List.findSome?_append, hnone]
      rfl
    change Traces lib (accesses ++ more) (f a) Q
    unfold Traces at hmore ⊢
    rw [hskip]
    exact hmore

theorem Traces.imp {α : Type} {accesses : List Access} {x : Except PyError α} {P Q : α → Prop}
    (h : Traces lib accesses x P) (hpq : ∀ a, P a → Q a) : Traces lib accesses x Q := by
  cases x with
  | error e => exact h
  | ok a => exact ⟨h.1, hpq a h.2⟩

/-- One access. -/
theorem traces_access {α : Type} {access : Access} {x : Except PyError α}
    (h : access.fails lib = failure x) : Traces lib [access] x fun a => x = .ok a := by
  cases x with
  | error e =>
    have h : access.fails lib = some e := h
    simp only [Traces, List.findSome?_cons, h]
  | ok a =>
    have h : access.fails lib = none := h
    simp only [Traces, List.findSome?_cons, List.findSome?_nil, h, and_self]

theorem fieldsOf_eq {value : Json} {d : Dict} (h : attributes value = .ok d) : fieldsOf value = d := by
  rw [fieldsOf, h]
  rfl

theorem attributes_ok {value : Json} {d : Dict} (h : attributes value = .ok d) :
    value = .object d := by
  cases value with
  | object fields => rw [Except.ok.inj h]
  | _ => contradiction

theorem item_ok {d : Dict} {key : String} {value : Json} (h : Dict.item d key = .ok value) :
    d.lookup key = some value := by
  unfold Dict.item at h
  split at h
  · contradiction
  · rename_i found hfound
    rw [hfound, Except.ok.inj h]

/-- A timestamp that is there only if there is something to convert. -/
theorem traces_timeOf (d : Dict) :
    Traces lib (convertsTruthy (d.lookup "X-Timestamp")) (timeOf lib d) fun ts =>
      ts.isSome = (d.lookup "X-Timestamp").any Json.truthy := by
  unfold timeOf convertsTruthy
  cases d.lookup "X-Timestamp" with
  | none => exact ⟨rfl, rfl⟩
  | some value =>
    dsimp only
    cases htruthy : value.truthy with
    | false =>
      refine ⟨rfl, ?_⟩
      simp [htruthy]
    | true =>
      simp only [if_true]
      cases hstamp : lib.stamp value with
      | error e => simp [Traces, Except.map, Access.fails, failure, hstamp]
      | ok ts => simp [Traces, Except.map, Access.fails, failure, hstamp, htruthy]

theorem traces_ctype (posted : Json) :
    Traces lib (ctypePath posted) (ctypeTimestamp lib posted) fun ts =>
      ctypeTimestamp lib posted = .ok ts := by
  have htrace : Traces lib (ctypePath posted) (ctypeTimestamp lib posted) fun _ => True := by
    refine Traces.bind (traces_access rfl) fun d hd _ => ?_
    rw [fieldsOf_eq hd]
    cases d.lookup "Content-Type-Timestamp" with
    | none => exact traces_pure trivial
    | some value => exact (traces_access rfl).imp fun _ _ => trivial
  cases hts : ctypeTimestamp lib posted with
  | error e =>
    rw [hts] at htrace
    exact htrace
  | ok ts =>
    rw [hts] at htrace
    exact ⟨htrace.1, rfl⟩

/-- What is said of the merged dictionary: where the timestamps come from. -/
def Sourced (lib : Library) (data posted : Json) (merged : Dict) : Prop :=
  merged.lookup "X-Timestamp" = shownSource lib data posted ∧
    ∀ d own, attributes data = .ok d → d.lookup "X-Timestamp" = some own →
      (merged.lookup "Content-Type-Timestamp").getD own = typeSource lib data posted

theorem timestampOf_eq {data own : Json} {d : Dict} (hd : attributes data = .ok d)
    (hown : d.lookup "X-Timestamp" = some own) : timestampOf (fieldsOf data) = own := by
  rw [fieldsOf_eq hd, timestampOf, hown]
  rfl

/-- The overlay is what is merged unless the data's own type takes over. -/
theorem sourced_overlaid {data posted : Json} (hnull : posted.isNull = false)
    (hown : ownType lib data posted = false) : Sourced lib data posted (overlaid lib data posted) := by
  refine ⟨by simp [shownSource, hnull], fun d own hd hlookup => ?_⟩
  simp [typeSource, hnull, hown, timestampOf_eq hd hlookup]

theorem sourced_own {data posted contentType : Json} (hnull : posted.isNull = false)
    (hown : ownType lib data posted = true) :
    Sourced lib data posted (Dict.pop (Dict.set (overlaid lib data posted) "Content-Type" contentType)
      "Content-Type-Timestamp") := by
  refine ⟨by simp [shownSource, hnull], fun d own hd hlookup => ?_⟩
  simp [typeSource, hnull, hown, timestampOf_eq hd hlookup]

theorem traces_merge {data posted : Json} (hnull : posted.isNull = false) :
    Traces lib (mergePath data posted) (merge lib data posted) (Sourced lib data posted) := by
  unfold mergePath
  simp only [hnull, Bool.false_eq_true, if_false]
  refine @Traces.bind lib _ _ [.build posted] _ _ _ _ _ (traces_access rfl) fun start hstart _ => ?_
  refine @Traces.bind lib _ _ [.attribute data] _ _ _ _ _ (traces_access rfl) fun d hd _ => ?_
  have hstart' : entriesOf posted = start := by rw [entriesOf, hstart]; rfl
  have hover : Dict.update start (d.filter fun entry => belongsToData lib.isSysMeta entry.1) =
      overlaid lib data posted := by rw [overlaid, hstart', fieldsOf_eq hd]
  rw [fieldsOf_eq hd]
  dsimp only
  rw [hover]
  cases htype : d.lookup "Content-Type" with
  | none =>
    have hown : ownType lib data posted = false := by simp [ownType, fieldsOf_eq hd, htype]
    exact traces_pure (sourced_overlaid hnull hown)
  | some contentType =>
    simp only [Option.isSome_some, if_true, bind_assoc]
    have hdata := attributes_ok hd
    refine @Traces.bind lib _ _ [.subscript data "X-Timestamp"] _ _ _ _ _
      (traces_access (by rw [Access.fails, hdata]; rfl)) fun own hown _ => ?_
    have hown' : timestampOf d = own := by
      rw [timestampOf, item_ok hown]
      rfl
    rw [hown']
    refine @Traces.bind lib _ _ [.convert own] _ _ _ _ _ (traces_access rfl) fun dataTs hts _ => ?_
    rw [← List.append_nil (ctypePath posted)]
    refine (traces_ctype posted).bind fun typeTs htypeTs _ => ?_
    have hcompare : ownType lib data posted = decide (dataTs > typeTs) := by
      simp [ownType, fieldsOf_eq hd, htype, hown', hts, htypeTs]
    split
    · rename_i hnewer
      exact traces_pure (sourced_own hnull (by rw [hcompare]; exact decide_eq_true hnewer))
    · rename_i hnot
      exact traces_pure (sourced_overlaid hnull (by rw [hcompare]; exact decide_eq_false hnot))

/-- What a blob that is read has: the data as stored, and the two timestamps
where there is something to convert. -/
structure ReadFrom (lib : Library) (data posted : Json) (m : Metadata) : Prop where
  dataSection : m.dataSection = fieldsOf data
  metaTs : m.metaTs.isSome = (shownSource lib data posted).any Json.truthy
  dataTs : m.dataTs.isSome = ((fieldsOf data).lookup "X-Timestamp").any Json.truthy

theorem traces_merged (data posted : Json) :
    Traces lib (mergePath data posted) (mergedOf lib data posted) (Sourced lib data posted) := by
  unfold mergedOf
  cases hnull : posted.isNull with
  | false =>
    simp only [Bool.false_eq_true, if_false]
    exact traces_merge hnull
  | true =>
    simp only [mergePath, hnull, if_true]
    refine (traces_access rfl).imp fun merged hmerged => ⟨?_, fun d own hd hown => ?_⟩
    · simp [shownSource, hnull, entriesOf, hmerged, Except.toOption]
    · rw [attributes_ok hd] at hmerged
      obtain rfl := Except.ok.inj hmerged
      have hsource := timestampOf_eq hd hown
      rw [fieldsOf_eq hd] at hsource
      simp [typeSource, hnull, hsource, fieldsOf_eq hd]

theorem traces_get (sections : Json) :
    Traces lib (path lib sections) (getSections lib sections)
      (ReadFrom lib (dataOf sections) (postedOf sections)) := by
  unfold path getSections
  rw [List.append_assoc]
  refine (traces_access rfl).bind fun data hdata _ => ?_
  cases sections with
  | object fields =>
    have hfields : fieldsOf (.object fields) = fields := rfl
    have hsection : dataOf (.object fields) = data := by
      rw [dataOf, hfields, item_ok hdata]
      rfl
    have hposted : postedOf (.object fields) = (fields.lookup "meta").getD .null := rfl
    rw [hsection, hposted]
    refine (traces_merged data _).bind fun merged _ hsourced => ?_
    unfold timesPath
    rw [List.append_assoc, List.append_assoc, ← hsourced.1]
    refine (traces_timeOf merged).bind fun metaTs _ hmetaTs => ?_
    refine (traces_access rfl).bind fun d hd _ => ?_
    rw [fieldsOf_eq hd]
    refine (traces_timeOf d).bind fun dataTs _ hdataTs => ?_
    refine @Traces.bind lib _ _ [.subscript data "X-Timestamp"] _ _ _ _ _
      (traces_access (by rw [Access.fails, attributes_ok hd]; rfl)) fun own hown _ => ?_
    rw [← hsourced.2 d own hd (item_ok hown)]
    refine @Traces.bind lib _ _ [.convert _] [] _ _ _ _ (traces_access rfl) fun typeTs _ _ => ?_
    refine traces_pure ⟨(fieldsOf_eq hd).symm, ?_, ?_⟩
    · rw [hmetaTs, hsourced.1]
    · rw [hdataTs, fieldsOf_eq hd]
  | _ => contradiction

/-- An open of a DiskFile answers exactly for the blobs that are tame. -/
theorem answers_iff (lib : Library) (deleted : Bool) (blob : Bytes) :
    Answers (diskFileOpen lib (some ⟨deleted, blob⟩)) ↔ Tame lib deleted blob := by
  unfold diskFileOpen Tame StoredMetadata.get
  dsimp only
  cases lib.loads blob with
  | error e =>
    change Answers (if e.caught then _ else _) ↔ _
    cases hcaught : e.caught <;> simp [Answers, hcaught]
  | ok sections =>
    change Answers (match getSections lib sections with
      | .error e => _
      | .ok m => _) ↔ _
    have htrace := @traces_get lib sections
    cases hget : getSections lib sections with
    | error e =>
      rw [hget] at htrace
      have hfirst : (path lib sections).findSome? (Access.fails lib) = some e := htrace
      simp only [hfirst]
      cases hcaught : e.caught <;> simp [Answers]
    | ok m =>
      rw [hget] at htrace
      obtain ⟨hnone, hread⟩ := htrace
      simp only [hnone, hread.dataSection]
      cases deleted with
      | true =>
        simp only [if_true]
        cases lib.deletedTimestamp (fieldsOf (dataOf sections)) <;> simp [Answers, failure]
      | false =>
        simp only [Bool.false_eq_true, if_false, Answers, hread.metaTs, hread.dataTs]

/-- `json.loads` of two blobs, an empty list and an empty object. -/
def brackets : Library where
  loads := fun blob =>
    if blob = [91, 93] then .ok (.array [])
    else if blob = [123, 125] then .ok (.object [])
    else .error .valueError
  stamp := fun _ => .error .valueError
  isSysMeta := fun _ => false
  deletedTimestamp := fun _ => .ok Timestamp.zero
  newerThanNone := fun _ _ => .ok false

/-- A list gets past the decoder, where an object without sections does not. -/
theorem list_escapes : ¬ Answers (diskFileOpen brackets (some ⟨false, [91, 93]⟩)) := by
  have hraised : diskFileOpen brackets (some ⟨false, [91, 93]⟩) = .raised .typeError := rfl
  rw [hraised]
  exact fun h => h

example : diskFileOpen brackets (some ⟨false, [123, 125]⟩) = .quarantined := rfl

end Swiftacular.QuarantinedBlobs
