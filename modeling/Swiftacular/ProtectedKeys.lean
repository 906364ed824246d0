import Swiftacular.StepRuns
import Swiftacular.StoredMetadata

/-!
The keys a POST can never change. The merge starts from the POST's own
dictionary and lays over it what the data has of these keys, so what the data
has is as it was; a key of this kind that only the POST has stays.
-/
namespace Swiftacular.ProtectedKeys

open Timestamps StoredMetadata
open StepRuns (bind_ok)
open MetadataModel (belongsToData)

variable {lib : Library}

/-- The two have the same entries under the keys a POST can never change. -/
def SameProtected (lib : Library) (data merged : Dict) : Prop :=
  ∀ key value, belongsToData lib.isSysMeta key = true →
    (merged.lookup key = some value ↔ data.lookup key = some value)

/-- A key that the overlay does not set or drop for the type's sake has the
data's value where it is the data's, and else the POST's. -/
theorem merge_lookup {data posted merged : Dict}
    (h : merge lib (.object data) (.object posted) = .ok merged) {key : String}
    (hkey : key ≠ "Content-Type-Timestamp") :
    merged.lookup key =
      if belongsToData lib.isSysMeta key then (data.lookup key).or (posted.lookup key)
      else merged.lookup key := by
  split
  swap
  · rfl
  rename_i hprotected
  have hover : (Dict.update posted
      (data.filter fun entry => belongsToData lib.isSysMeta entry.1)).lookup key =
        (data.lookup key).or (posted.lookup key) := by
    rw [Dict.lookup_update, Dict.lookup_filter_key, if_pos hprotected]
  obtain ⟨start, hstart, h⟩ := bind_ok.mp h
  obtain rfl := Except.ok.inj hstart
  obtain ⟨d, hd, h⟩ := bind_ok.mp h
  obtain rfl := Except.ok.inj hd
  dsimp only at h
  cases htype : data.lookup "Content-Type" with
  | none =>
    rw [htype] at h
    rw [← Except.ok.inj h, hover]
  | some contentType =>
    rw [htype] at h
    obtain ⟨dataTs, -, h⟩ := bind_ok.mp h
    obtain ⟨typeTs, -, h⟩ := bind_ok.mp h
    split at h
    · -- the data's own type, where it is newer
      rw [← Except.ok.inj h, Dict.lookup_pop, if_neg hkey, Dict.lookup_set]
      by_cases hk : key = "Content-Type"
      · subst hk
        rw [if_pos rfl, htype]
        rfl
      · rw [if_neg hk, hover]
    · rw [← Except.ok.inj h, hover]

/-- The entries under these keys are the data's exactly if every one of them
that the POST has, the data has too. -/
theorem protected_iff (hsys : belongsToData lib.isSysMeta "Content-Type-Timestamp" = false)
    {fields data posted : Dict} (hdata : fields.lookup "data" = some (.object data))
    (hmeta : fields.lookup "meta" = some (.object posted)) {m : Metadata}
    (hget : getSections lib (.object fields) = .ok m) :
    SameProtected lib data m.merged ↔
      ∀ key, belongsToData lib.isSysMeta key = true → (posted.lookup key).isSome →
        (data.lookup key).isSome := by
  obtain ⟨found, hfound, hget⟩ := bind_ok.mp hget
  rw [subscript, Dict.item, hdata] at hfound
  obtain rfl := Except.ok.inj hfound
  obtain ⟨given, hgiven, hget⟩ := bind_ok.mp hget
  obtain rfl := Except.ok.inj hgiven
  simp only [hmeta, Option.getD_some, mergedOf, Json.isNull, Bool.false_eq_true, if_false] at hget
  obtain ⟨merged, hmerge, hget⟩ := bind_ok.mp hget
  obtain ⟨metaTs, -, hget⟩ := bind_ok.mp hget
  obtain ⟨d, hd, hget⟩ := bind_ok.mp hget
  obtain ⟨dataTs, -, hget⟩ := bind_ok.mp hget
  obtain ⟨fallback, -, hget⟩ := bind_ok.mp hget
  obtain ⟨typeTs, -, hget⟩ := bind_ok.mp hget
  obtain rfl := Except.ok.inj hget
  have hlookup : ∀ key, belongsToData lib.isSysMeta key = true →
      merged.lookup key = (data.lookup key).or (posted.lookup key) := by
    intro key hkey
    have hne : key ≠ "Content-Type-Timestamp" := by
      intro heq
      rw [heq, hsys] at hkey
      contradiction
    rw [merge_lookup hmerge hne, if_pos hkey]
  constructor
  · intro hsame key hkey hposted
    by_contra hnone
    obtain ⟨value, hvalue⟩ := Option.isSome_iff_exists.mp hposted
    have hdatakey : data.lookup key = none := Option.not_isSome_iff_eq_none.mp hnone
    have hmergedkey : merged.lookup key = some value := by
      rw [hlookup key hkey, hdatakey, hvalue]
      rfl
    have hback := (hsame key value hkey).mp hmergedkey
    rw [hdatakey] at hback
    contradiction
  · intro hboth key value hkey
    rw [hlookup key hkey]
    cases hdatakey : data.lookup key with
    | some v => rfl
    | none =>
      have hposted : posted.lookup key = none := by
        cases hp : posted.lookup key with
        | none => rfl
        | some v =>
          have hsome := hboth key hkey (by rw [hp]; rfl)
          rw [hdatakey] at hsome
          contradiction
      rw [hposted]
      rfl

/-- Swift's rules, as far as the sections below use them. -/
def plain : Library where
  loads := fun _ => .error .valueError
  stamp := fun value =>
    match value with
    | .string "0000000001.00000" => .ok ⟨100000, 0⟩
    | .string "0000000002.00000" => .ok ⟨200000, 0⟩
    | .string _ => .error .valueError
    | _ => .error .typeError
  isSysMeta := fun key => (MetadataModel.lower key).take 17 = "x-object-sysmeta-".toList
  deletedTimestamp := fun _ => .ok Timestamp.zero
  newerThanNone := fun _ _ => .ok false

def stored (entries : List (String × String)) : Dict :=
  entries.map fun entry => (entry.1, .string entry.2)

def smallObject : Dict := stored [("X-Timestamp", "0000000001.00000"), ("ETag", "etag")]

/-- The blob of an object posted to. -/
def postedTo (posted : Dict) : Dict := [("data", .object smallObject), ("meta", .object posted)]

theorem protected_iff_forged :
    ∃ m, getSections plain (.object (postedTo (stored
        [("X-Timestamp", "0000000002.00000"), ("ETag", "forged")]))) = .ok m ∧
      SameProtected plain smallObject m.merged := by
  have hget : ∃ m, getSections plain (.object (postedTo (stored
      [("X-Timestamp", "0000000002.00000"), ("ETag", "forged")]))) = .ok m := ⟨_, rfl⟩
  obtain ⟨m, hm⟩ := hget
  refine ⟨m, hm, (protected_iff (by decide) rfl rfl hm).mpr fun key hkey hposted => ?_⟩
  by_cases htag : key = "ETag"
  · subst htag
    decide
  · by_cases hts : key = "X-Timestamp"
    · subst hts
      decide
    · simp [stored, List.lookup_cons, beq_false_of_ne hts, beq_false_of_ne htag] at hposted

/-- A POST of the manifest flag on an object that has none. -/
theorem manifest_added :
    ∃ m, getSections plain (.object (postedTo (stored
        [("X-Timestamp", "0000000002.00000"), ("X-Static-Large-Object", "True")]))) = .ok m ∧
      ¬ SameProtected plain smallObject m.merged := by
  refine ⟨_, rfl, fun hsame => ?_⟩
  have hadded := (hsame "X-Static-Large-Object" (.string "True") (by decide)).mp rfl
  contradiction

end Swiftacular.ProtectedKeys
