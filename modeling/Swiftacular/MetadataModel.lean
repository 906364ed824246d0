import Swiftacular.Timestamps
import Mathlib.Data.List.Basic

/-!
Swift's metadata rules: what a read sees of a name's blob and what the next
PUT, DELETE or POST makes of it. A section is a dictionary; the three keys
the rules read by name are fields here and the other keys stay a dictionary.
`isSysMeta` stands for Swift's `is_sys_meta('object', key)`.
-/
namespace Swiftacular.MetadataModel

open Timestamps

abbrev Dict := Std.ExtTreeMap String String

@[ext] structure Section where
  timestamp : Timestamp
  contentType : Option String
  contentTypeTimestamp : Option Timestamp
  rest : Dict
  deriving DecidableEq

/-- `{'X-Timestamp': t.internal}`. -/
def Section.stamped (t : Timestamp) : Section := ⟨t, none, none, ∅⟩

/-- The blob, as JSON keeps it. -/
structure Blob where
  dataSection : Section
  metaSection : Option Section
  deriving DecidableEq

structure Metadata where
  dataSection : Section
  metaSection : Option Section
  merged : Section
  metaTs : Timestamp
  dataTs : Timestamp
  typeTs : Timestamp
  deriving DecidableEq

inductive PyError
  | keyError (key : String)
  deriving DecidableEq

def reservedDatafileMeta : List String := ["content-length", "deleted", "etag"]

def datafileSystemMeta : List String := ["x-static-large-object"]

def lower (key : String) : List Char := key.toList.map Char.toLower

def ctypeTimestamp (metadata : Section) : Timestamp :=
  metadata.contentTypeTimestamp.getD Timestamp.zero

variable (isSysMeta : String → Bool)

/-- The keys a POST can never change. -/
def belongsToData (key : String) : Bool :=
  lower key ∈ (reservedDatafileMeta ++ datafileSystemMeta).map String.toList || isSysMeta key

def merge (data posted : Section) : Section :=
  let merged := { posted with
    rest := posted.rest ∪ data.rest.filter fun key _ => belongsToData isSysMeta key }
  if data.contentType.isSome ∧ data.timestamp > ctypeTimestamp posted then
    { merged with contentType := data.contentType, contentTypeTimestamp := none }
  else merged

def get (blob : Blob) : Metadata :=
  let merged := match blob.metaSection with
    | none => blob.dataSection
    | some posted => merge isSysMeta blob.dataSection posted
  { dataSection := blob.dataSection
    metaSection := blob.metaSection
    merged := merged
    metaTs := merged.timestamp
    dataTs := blob.dataSection.timestamp
    typeTs := merged.contentTypeTimestamp.getD blob.dataSection.timestamp }

def put (prev : Option Metadata) (data : Section) : Blob :=
  match prev.bind Metadata.metaSection with
  | some posted =>
      if posted.timestamp > data.timestamp then ⟨data, some posted⟩ else ⟨data, none⟩
  | none => ⟨data, none⟩

def delete (prev : Option Metadata) (timestamp : ℕ) (given : Option Section) : Blob :=
  put prev (given.getD (Section.stamped ⟨timestamp, 0⟩))

/-- The newer of a POST and the one stored, and the older, if there is one. -/
def newerOlder (stored : Option Section) (posted : Section) : Section × Option Section :=
  match stored with
  | none => (posted, none)
  | some m => if posted.timestamp > m.timestamp then (posted, some m) else (m, some posted)

/-- The newer section with the older one's content type, where that is newer. -/
def overlay (newer : Section) (older : Option Section) : Except PyError Section :=
  match older with
  | none => .ok newer
  | some older =>
      if ctypeTimestamp older > ctypeTimestamp newer then
        match older.contentType with
        | none => .error (.keyError "Content-Type")
        | some contentType => .ok { newer with
            contentType := some contentType
            contentTypeTimestamp := older.contentTypeTimestamp }
      else .ok newer

/-- The next blob, or nothing where the POST changes nothing. -/
def post (prev : Option Metadata) (posted : Section) : Except PyError (Option Blob) :=
  match prev with
  | none => .ok none
  | some prev =>
      if posted.timestamp ≤ prev.dataTs then .ok none
      else
        let (newer, older) := newerOlder prev.metaSection posted
        match overlay newer older with
        | .error e => .error e
        | .ok merged =>
            if prev.metaSection = some merged then .ok none
            else .ok (some ⟨prev.dataSection, some merged⟩)

variable {isSysMeta}

@[simp] theorem get_dataSection (blob : Blob) :
    (get isSysMeta blob).dataSection = blob.dataSection := rfl

@[simp] theorem get_metaSection (blob : Blob) :
    (get isSysMeta blob).metaSection = blob.metaSection := rfl

@[simp] theorem get_dataTs (blob : Blob) :
    (get isSysMeta blob).dataTs = blob.dataSection.timestamp := rfl

@[simp] theorem put_dataSection (prev : Option Metadata) (data : Section) :
    (put prev data).dataSection = data := by
  unfold put
  split
  · split <;> rfl
  · rfl

/-- A POST is carried over exactly when it is newer than the new data. -/
theorem put_metaSection (prev : Option Metadata) (data : Section) (m : Section) :
    (put prev data).metaSection = some m ↔
      prev.bind Metadata.metaSection = some m ∧ m.timestamp > data.timestamp := by
  unfold put
  cases hm : prev.bind Metadata.metaSection with
  | none => simp
  | some posted =>
    by_cases hlt : posted.timestamp > data.timestamp
    · simp only [hlt, if_true, Option.some.injEq]
      constructor
      · rintro rfl
        exact ⟨rfl, hlt⟩
      · exact fun h => h.1
    · simp only [hlt, if_false, Option.some.injEq]
      constructor
      · intro h
        contradiction
      · rintro ⟨rfl, h⟩
        exact absurd h hlt

/-- A POST never touches what the PUT or DELETE wrote. -/
theorem post_dataSection {blob next : Blob} {posted : Section}
    (h : post (some (get isSysMeta blob)) posted = .ok (some next)) :
    next.dataSection = blob.dataSection := by
  simp only [post] at h
  split at h
  · simp at h
  split at h
  · contradiction
  · split at h
    · simp at h
    · obtain rfl := Option.some.inj (Except.ok.inj h)
      rfl

/-- What is merged is the newer section with the type of one of the two. -/
theorem overlay_cases {newer merged : Section} {older : Option Section}
    (h : overlay newer older = .ok merged) :
    ∃ typed, (typed = newer ∨ older = some typed) ∧ merged = { newer with
        contentType := typed.contentType
        contentTypeTimestamp := typed.contentTypeTimestamp } ∧
      ∀ q, q = newer ∨ older = some q → ctypeTimestamp q ≤ ctypeTimestamp typed := by
  unfold overlay at h
  cases older with
  | none =>
    obtain rfl := Except.ok.inj h
    refine ⟨newer, Or.inl rfl, rfl, fun q hq => ?_⟩
    rcases hq with rfl | hq
    · exact le_refl _
    · contradiction
  | some older =>
    dsimp only at h
    by_cases hgt : ctypeTimestamp older > ctypeTimestamp newer
    · rw [if_pos hgt] at h
      cases htype : older.contentType with
      | none => simp [htype] at h
      | some contentType =>
        rw [htype] at h
        obtain rfl := Except.ok.inj h
        refine ⟨older, Or.inr rfl, by rw [htype], fun q hq => ?_⟩
        rcases hq with rfl | hq
        · exact hgt.le
        · exact (Option.some.inj hq) ▸ le_refl _
    · rw [if_neg hgt] at h
      obtain rfl := Except.ok.inj h
      refine ⟨newer, Or.inl rfl, rfl, fun q hq => ?_⟩
      rcases hq with rfl | hq
      · exact le_refl _
      · exact (Option.some.inj hq) ▸ not_lt.mp hgt

/-- A POST that is not dropped leaves the newest of it and the one before, with
the newest of their types. -/
theorem post_cases {blob : Blob} {p : Section} {result : Option Blob}
    (h : post (some (get isSysMeta blob)) p = .ok result) :
    p.timestamp ≤ blob.dataSection.timestamp ∧ result = none ∨
      ∃ newer typed, (newer = p ∨ blob.metaSection = some newer) ∧
        (typed = p ∨ blob.metaSection = some typed) ∧
        (∀ q, q = p ∨ blob.metaSection = some q →
          q.timestamp ≤ newer.timestamp ∧ ctypeTimestamp q ≤ ctypeTimestamp typed) ∧
        result.getD blob = ⟨blob.dataSection, some { newer with
          contentType := typed.contentType
          contentTypeTimestamp := typed.contentTypeTimestamp }⟩ := by
  unfold post at h
  dsimp only at h
  split at h
  · rename_i hle
    exact Or.inl ⟨hle, (Except.ok.inj h).symm⟩
  right
  rw [get_metaSection, get_dataSection] at h
  -- the newer and the older of the two are the POST and what is stored
  obtain ⟨newer, older, hsplit, hnewer, holder, hlatest⟩ : ∃ newer older,
      newerOlder blob.metaSection p = (newer, older) ∧ (newer = p ∨ blob.metaSection = some newer) ∧
      (∀ q, older = some q → q = p ∨ blob.metaSection = some q) ∧
      ∀ q, q = p ∨ blob.metaSection = some q →
        (q = newer ∨ older = some q) ∧ q.timestamp ≤ newer.timestamp := by
    cases hm : blob.metaSection with
    | none =>
      refine ⟨p, none, rfl, Or.inl rfl, fun q hq => by contradiction, fun q hq => ?_⟩
      rcases hq with rfl | hq
      · exact ⟨Or.inl rfl, le_refl _⟩
      · contradiction
    | some m =>
      unfold newerOlder
      by_cases hgt : p.timestamp > m.timestamp
      · refine ⟨p, some m, if_pos hgt, Or.inl rfl, fun q hq => Or.inr hq, fun q hq => ?_⟩
        rcases hq with rfl | hq
        · exact ⟨Or.inl rfl, le_refl _⟩
        · obtain rfl := Option.some.inj hq
          exact ⟨Or.inr rfl, hgt.le⟩
      · refine ⟨m, some p, if_neg hgt, Or.inr rfl, fun q hq => ?_, fun q hq => ?_⟩
        · exact Or.inl (Option.some.inj hq).symm
        · rcases hq with rfl | hq
          · exact ⟨Or.inr rfl, not_lt.mp hgt⟩
          · obtain rfl := Option.some.inj hq
            exact ⟨Or.inl rfl, le_refl _⟩
  rw [hsplit] at h
  dsimp only at h
  cases hover : overlay newer older with
  | error e => simp [hover] at h
  | ok merged =>
    rw [hover] at h
    obtain ⟨typed, htyped, hmerged, hctype⟩ := overlay_cases hover
    refine ⟨newer, typed, hnewer, htyped.elim (fun heq => heq ▸ hnewer) (holder typed),
      fun q hq => ⟨(hlatest q hq).2, hctype q (hlatest q hq).1⟩, ?_⟩
    rw [← hmerged]
    dsimp only at h
    split at h
    · rename_i hsame
      obtain rfl := Except.ok.inj h
      rw [Option.getD_none, ← hsame]
    · obtain rfl := Except.ok.inj h
      rfl

theorem merge_timestamp (data posted : Section) :
    (merge isSysMeta data posted).timestamp = posted.timestamp := by
  unfold merge
  dsimp only
  split <;> rfl

theorem merge_rest (data posted : Section) :
    (merge isSysMeta data posted).rest =
      posted.rest ∪ data.rest.filter fun key _ => belongsToData isSysMeta key := by
  unfold merge
  dsimp only
  split <;> rfl

end Swiftacular.MetadataModel
