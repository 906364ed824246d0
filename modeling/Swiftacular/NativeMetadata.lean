import Swiftacular.EntryStore
import Swiftacular.NativeStrings
import Swiftacular.OrderedDicts

/-!
The texts of an object's metadata before it is pickled and after: encoded to
bytes on the way in, and back to native strings on the way out, in one of two
ways that the pickle decides. What comes out is what went in, as native
strings, under a condition on the texts.
-/
namespace Swiftacular.NativeMetadata

open EntryStore NativeStrings OrderedDicts

/-- A key or a value; of what is neither text nor bytes only which it is matters. -/
inductive Item (α : Type)
  | str (s : NativeString)
  | bytes (b : Bytes)
  | other (x : α)
  deriving DecidableEq

variable {α : Type}

abbrev Dict (α : Type) := List (Item α × Item α)

def encodeStr : Item α → Option (Item α)
  | .str s => (encode s).map .bytes
  | item => some item

def encodeItem (kv : Item α × Item α) : Option (Item α × Item α) :=
  match encodeStr kv.1, encodeStr kv.2 with
  | some k, some v => some (k, v)
  | _, _ => none

/-- `_encode_metadata`; `none` is a text that cannot be encoded. -/
def encodeMetadata [DecidableEq α] (metadata : Dict α) : Option (Dict α) :=
  (metadata.mapM encodeItem).map dictOf

def toStr (writtenByPy3 isName : Bool) : Item α → Item α
  | .bytes b => if !writtenByPy3 && !isName then .str (latin1 b) else .str (decode b)
  | item => item

def ascii (s : String) : Bytes := s.toList.map fun c => UInt8.ofNat c.toNat

/-- `_decode_metadata`. -/
def decodeMetadata [DecidableEq α] (writtenByPy3 : Bool) (metadata : Dict α) : Dict α :=
  dictOf (metadata.map fun kv =>
    (toStr writtenByPy3 false kv.1, toStr writtenByPy3 (kv.1 = .bytes (ascii "name")) kv.2))

/-! The native strings of a dictionary, and which texts keep through both. -/

def nativeItem : Item α → Item α
  | .bytes b => .str (decode b)
  | item => item

/-- Metadata as native strings. -/
def native [DecidableEq α] (metadata : Dict α) : Dict α :=
  dictOf (metadata.map (Prod.map nativeItem nativeItem))

/-- Text that some bytes are decoded to: no surrogates in it escape bytes that
would together be a character. -/
def Decoded : Item α → Prop
  | .str s => ∃ bytes, decode bytes = s
  | _ => True

def Ascii : Item α → Prop
  | .str s => AsciiText s
  | _ => True

def nameKey : Item α := .str ("name".toList.map .scalar)

/-- Texts that come back from their encoding: all of them where the pickle is
marked, and else such as are ASCII, but for the value of the name. -/
def Keeps [DecidableEq α] (writtenByPy3 : Bool) (metadata : Dict α) : Prop :=
  ∀ kv ∈ native metadata, Decoded kv.1 ∧ Decoded kv.2 ∧
    (writtenByPy3 = true ∨ Ascii kv.1 ∧ (kv.1 = nameKey ∨ Ascii kv.2))

/-- An item has an encoding, which is not text. -/
theorem encodeStr_cases {i j : Item α} (h : encodeStr i = some j) :
    (∃ s b, i = .str s ∧ encode s = some b ∧ j = .bytes b) ∨
      (∃ b, i = .bytes b ∧ j = .bytes b) ∨ ∃ x, i = .other x ∧ j = .other x := by
  cases i with
  | str s =>
    obtain ⟨b, hb, rfl⟩ := Option.map_eq_some_iff.mp h
    exact Or.inl ⟨s, b, rfl, hb, rfl⟩
  | bytes b => exact Or.inr (Or.inl ⟨b, rfl, (Option.some.inj h).symm⟩)
  | other x => exact Or.inr (Or.inr ⟨x, rfl, (Option.some.inj h).symm⟩)

theorem encodeStr_encoded {i j : Item α} (h : encodeStr i = some j) : encodeStr j = some j := by
  rcases encodeStr_cases h with ⟨s, b, rfl, hb, rfl⟩ | ⟨b, rfl, rfl⟩ | ⟨x, rfl, rfl⟩ <;> rfl

/-- As a native string an item is encoded to the same. -/
theorem encodeStr_native {i j : Item α} (h : encodeStr i = some j) :
    encodeStr (nativeItem i) = some j := by
  rcases encodeStr_cases h with ⟨s, b, rfl, hb, rfl⟩ | ⟨b, rfl, rfl⟩ | ⟨x, rfl, rfl⟩
  · exact h
  · simp only [nativeItem, encodeStr, encode_decode, Option.map_some]
  · rfl

theorem native_decoded {i j : Item α} (h : encodeStr i = some j) : Decoded (nativeItem j) := by
  rcases encodeStr_cases h with ⟨s, b, rfl, hb, rfl⟩ | ⟨b, rfl, rfl⟩ | ⟨x, rfl, rfl⟩
  · exact ⟨b, rfl⟩
  · exact ⟨b, rfl⟩
  · trivial

theorem decoded_iff {i j : Item α} (h : encodeStr i = some j) :
    Decoded (nativeItem i) ↔ nativeItem j = nativeItem i := by
  rcases encodeStr_cases h with ⟨s, b, rfl, hb, rfl⟩ | ⟨b, rfl, rfl⟩ | ⟨x, rfl, rfl⟩
  · constructor
    · rintro ⟨bytes, rfl⟩
      rw [encode_decode] at hb
      obtain rfl := Option.some.inj hb
      rfl
    · intro hsame
      exact ⟨b, Item.str.inj hsame⟩
  · exact iff_of_true ⟨b, rfl⟩ rfl
  · exact iff_of_true trivial rfl

theorem native_injective {i j : Item α} (hi : encodeStr i = some i) (hj : encodeStr j = some j)
    (h : nativeItem i = nativeItem j) : i = j := by
  have hencode := encodeStr_native hi
  rw [h, encodeStr_native hj] at hencode
  exact (Option.some.inj hencode).symm

/-! What is pickled, item by item. -/

/-- The encoding of an item that has one. -/
def enc (i : Item α) : Item α := (encodeStr i).getD i

theorem encodeItem_some {kv kv' : Item α × Item α} (h : encodeItem kv = some kv') :
    kv' = (enc kv.1, enc kv.2) ∧ encodeStr kv.1 = some (enc kv.1) ∧
      encodeStr kv.2 = some (enc kv.2) := by
  unfold encodeItem at h
  split at h
  · rename_i k v hk hv
    obtain rfl := Option.some.inj h
    simp only [enc, hk, hv, Option.getD_some, and_self]
  · contradiction

/-- Every item of a dictionary has an encoding. -/
def Encodable (metadata : Dict α) : Prop :=
  ∀ kv ∈ metadata, encodeStr kv.1 = some (enc kv.1) ∧ encodeStr kv.2 = some (enc kv.2)

theorem mapM_encodeItem {metadata items : Dict α} (h : metadata.mapM encodeItem = some items) :
    Encodable metadata ∧ items = metadata.map (Prod.map enc enc) := by
  induction metadata generalizing items with
  | nil =>
    obtain rfl := Option.some.inj h
    exact ⟨fun kv hmem => absurd hmem List.not_mem_nil, rfl⟩
  | cons kv rest ih =>
    rw [List.mapM_cons] at h
    obtain ⟨kv', hkv, htail⟩ := Option.bind_eq_some_iff.mp h
    obtain ⟨items', hrest, heq⟩ := Option.bind_eq_some_iff.mp htail
    obtain rfl := Option.some.inj heq
    obtain ⟨rfl, hkey, hvalue⟩ := encodeItem_some hkv
    obtain ⟨hall, rfl⟩ := ih hrest
    refine ⟨fun a hmem => ?_, rfl⟩
    rcases List.mem_cons.mp hmem with rfl | hmem
    · exact ⟨hkey, hvalue⟩
    · exact hall a hmem

variable [DecidableEq α]

theorem encodeMetadata_some {metadata encoded : Dict α} (h : encodeMetadata metadata = some encoded) :
    Encodable metadata ∧ encoded = dictOf (metadata.map (Prod.map enc enc)) := by
  obtain ⟨items, hitems, rfl⟩ := Option.map_eq_some_iff.mp h
  obtain ⟨hall, rfl⟩ := mapM_encodeItem hitems
  exact ⟨hall, rfl⟩

/-- The items of a dictionary that is pickled are encoded. -/
def Encoded (d : Dict α) : Prop :=
  (d.map Prod.fst).Nodup ∧ ∀ kv ∈ d, encodeStr kv.1 = some kv.1 ∧ encodeStr kv.2 = some kv.2

theorem encoded_dictOf {metadata : Dict α} (h : Encodable metadata) :
    Encoded (dictOf (metadata.map (Prod.map enc enc))) := by
  refine ⟨nodup_dictOf _, fun kv hmem => ?_⟩
  obtain ⟨a, ha, heq⟩ := List.mem_map.mp (last_eq_some_mem (mem_dictOf.mp hmem))
  obtain rfl : Prod.map enc enc a = kv := heq
  exact ⟨encodeStr_encoded (h a ha).1, encodeStr_encoded (h a ha).2⟩

theorem mem_native {metadata : Dict α} {k v : Item α} (h : (k, v) ∈ native metadata) :
    ∃ a ∈ metadata, nativeItem a.1 = k ∧ nativeItem a.2 = v := by
  obtain ⟨a, ha, heq⟩ := List.mem_map.mp (last_eq_some_mem (mem_dictOf.mp h))
  exact ⟨a, ha, Prod.mk.inj heq⟩

/-- Where the keys keep, the dictionary that is pickled and the one of native
strings have the items of the same places under corresponding keys. -/
theorem corresponding {metadata : Dict α} (h : Encodable metadata)
    (hkeys : ∀ a ∈ metadata, Decoded (nativeItem a.1)) {j : Item α} (hj : encodeStr j = some j) :
    (∀ v, (nativeItem j, v) ∈ native metadata → ∃ a ∈ metadata, v = nativeItem a.2 ∧
      (j, enc a.2) ∈ dictOf (metadata.map (Prod.map enc enc))) ∧
    (∀ w, (j, w) ∈ dictOf (metadata.map (Prod.map enc enc)) → ∃ a ∈ metadata, w = enc a.2 ∧
      (nativeItem j, nativeItem a.2) ∈ native metadata) := by
  have hmatch : ∀ a ∈ metadata, (Prod.map nativeItem nativeItem a).1 = nativeItem j ↔
      (Prod.map enc enc a).1 = j := by
    intro a ha
    constructor
    · intro heq
      have hencode := encodeStr_native (h a ha).1
      rw [show nativeItem a.1 = nativeItem j from heq, encodeStr_native hj] at hencode
      exact (Option.some.inj hencode).symm
    · intro heq
      obtain rfl : enc a.1 = j := heq
      exact ((decoded_iff (h a ha).1).mp (hkeys a ha)).symm
  unfold native
  simp only [mem_dictOf]
  rcases last_pair hmatch with ⟨hnone, hnone'⟩ | ⟨a, ha, -, hlast, hlast'⟩
  · rw [hnone, hnone']
    exact ⟨fun _ hv => absurd hv (by simp), fun _ hw => absurd hw (by simp)⟩
  · rw [hlast, hlast']
    exact ⟨fun v hv => ⟨a, ha, (Option.some.inj hv).symm, rfl⟩,
      fun w hw => ⟨a, ha, (Option.some.inj hw).symm, rfl⟩⟩

/-! Both ways back. -/

def latinItem : Item α → Item α
  | .bytes b => .str (latin1 b)
  | item => item

omit [DecidableEq α] in
theorem toStr_native (isName : Bool) (i : Item α) : toStr true isName i = nativeItem i := by
  cases i <;> rfl

omit [DecidableEq α] in
theorem toStr_latin (isName : Bool) (i : Item α) :
    toStr false isName i = if isName then nativeItem i else latinItem i := by
  cases isName <;> cases i <;> rfl

omit [DecidableEq α] in
theorem latin_iff {i j : Item α} (h : encodeStr i = some j) :
    latinItem j = nativeItem i ↔ Ascii (nativeItem i) := by
  rcases encodeStr_cases h with ⟨s, b, rfl, hb, rfl⟩ | ⟨b, rfl, rfl⟩ | ⟨x, rfl, rfl⟩
  · exact Item.str.injEq .. ▸ latin1_eq_iff hb
  · exact Item.str.injEq .. ▸ latin1_eq_iff (encode_decode b)
  · exact iff_of_true rfl trivial

omit [DecidableEq α] in
theorem encoded_cases {j : Item α} (h : encodeStr j = some j) :
    (∃ b, j = .bytes b) ∨ ∃ x, j = .other x := by
  rcases encodeStr_cases h with ⟨s, b, -, -, hb⟩ | ⟨b, hb, -⟩ | ⟨x, hx, -⟩
  · exact Or.inl ⟨b, hb⟩
  · exact Or.inl ⟨b, hb⟩
  · exact Or.inr ⟨x, hx⟩

omit [DecidableEq α] in
theorem latin_injective {i j : Item α} (hi : encodeStr i = some i) (hj : encodeStr j = some j)
    (h : latinItem i = latinItem j) : i = j := by
  rcases encoded_cases hi with ⟨b, rfl⟩ | ⟨x, rfl⟩ <;>
    rcases encoded_cases hj with ⟨b', rfl⟩ | ⟨x', rfl⟩
  · rw [latin1_injective (Item.str.inj h)]
  · contradiction
  · contradiction
  · exact h

omit [DecidableEq α] in
/-- What `latin1` makes ASCII text of, both decodings make that text of. -/
theorem latin_eq_native {j : Item α} (hj : encodeStr j = some j) (h : Ascii (latinItem j)) :
    latinItem j = nativeItem j := by
  rcases encoded_cases hj with ⟨b, rfl⟩ | ⟨x, rfl⟩
  · exact congrArg Item.str (decode_ascii (asciiText_latin1.mp h)).symm
  · rfl

/-- No two keys of a pickled dictionary are decoded to one. -/
theorem decodeMetadata_eq {d : Dict α} (hd : Encoded d) (writtenByPy3 : Bool) :
    decodeMetadata writtenByPy3 d = d.map fun kv =>
      (toStr writtenByPy3 false kv.1, toStr writtenByPy3 (kv.1 = .bytes (ascii "name")) kv.2) := by
  refine dictOf_nodup ?_
  rw [List.map_map]
  have hnodup := hd.1
  rw [List.nodup_map_iff_inj_on (List.Nodup.of_map _ hnodup)]
  intro a ha b hb heq
  have hkey : a.1 = b.1 := by
    cases writtenByPy3 with
    | true =>
      simp only [Function.comp_apply, toStr_native] at heq
      exact native_injective (hd.2 a ha).1 (hd.2 b hb).1 heq
    | false =>
      simp only [Function.comp_apply, toStr_latin, Bool.false_eq_true, if_false] at heq
      exact latin_injective (hd.2 a ha).1 (hd.2 b hb).1 heq
  exact List.inj_on_of_nodup_map hnodup ha hb hkey

theorem mem_decodeMetadata {d : Dict α} (hd : Encoded d) {k v : Item α} :
    (k, v) ∈ decodeMetadata true d ↔ ∃ kv ∈ d, nativeItem kv.1 = k ∧ nativeItem kv.2 = v := by
  rw [decodeMetadata_eq hd]
  simp only [toStr_native, List.mem_map, Prod.mk.injEq]

theorem mem_decodeMetadata_unmarked {d : Dict α} (hd : Encoded d) {k v : Item α} :
    (k, v) ∈ decodeMetadata false d ↔ ∃ kv ∈ d, latinItem kv.1 = k ∧
      (if kv.1 = .bytes (ascii "name") then nativeItem kv.2 else latinItem kv.2) = v := by
  rw [decodeMetadata_eq hd]
  simp only [toStr_latin, List.mem_map, Prod.mk.injEq, Bool.false_eq_true, if_false,
    decide_eq_true_eq]

/-! What comes back. -/

theorem native_key {metadata : Dict α} {a : Item α × Item α} (ha : a ∈ metadata) :
    ∃ v, (nativeItem a.1, v) ∈ native metadata := by
  obtain ⟨v, hv⟩ := last_isSome (List.mem_map.mpr ⟨a, ha, rfl⟩ :
    Prod.map nativeItem nativeItem a ∈ metadata.map (Prod.map nativeItem nativeItem))
  exact ⟨v, mem_dictOf.mpr hv⟩

theorem same_decoded (writtenByPy3 : Bool) (encoded metadata : Dict α) :
    Same (decodeMetadata writtenByPy3 encoded) (native metadata) ↔
      ∀ k v, (k, v) ∈ decodeMetadata writtenByPy3 encoded ↔ (k, v) ∈ native metadata :=
  same_iff_mem (nodup_dictOf _) (nodup_dictOf _)

/-- From a marked pickle comes what went in, if and only if every text of it
is one that bytes are decoded to. -/
theorem same_marked {metadata encoded : Dict α} (h : encodeMetadata metadata = some encoded) :
    Same (decodeMetadata true encoded) (native metadata) ↔
      ∀ kv ∈ native metadata, Decoded kv.1 ∧ Decoded kv.2 := by
  obtain ⟨hall, rfl⟩ := encodeMetadata_some h
  have hd := encoded_dictOf hall
  rw [same_decoded]
  constructor
  · intro hsame kv hmem
    obtain ⟨jw, hjw, hk, hv⟩ := (mem_decodeMetadata hd).mp ((hsame kv.1 kv.2).mpr hmem)
    rw [← hk, ← hv]
    exact ⟨native_decoded (hd.2 jw hjw).1, native_decoded (hd.2 jw hjw).2⟩
  · intro hkeep k v
    have hkeys : ∀ a ∈ metadata, Decoded (nativeItem a.1) := by
      intro a ha
      obtain ⟨v, hv⟩ := native_key ha
      exact (hkeep _ hv).1
    rw [mem_decodeMetadata hd]
    constructor
    · rintro ⟨jw, hjw, rfl, rfl⟩
      obtain ⟨a, ha, hw, hmem⟩ := (corresponding hall hkeys (hd.2 jw hjw).1).2 jw.2 hjw
      rwa [hw, (decoded_iff (hall a ha).2).mp (hkeep _ hmem).2]
    · intro hmem
      obtain ⟨b, hb, rfl, rfl⟩ := mem_native hmem
      have hkey := (decoded_iff (hall b hb).1).mp (hkeys b hb)
      rw [← hkey] at hmem
      obtain ⟨a, ha, hv, hmem'⟩ :=
        (corresponding hall hkeys (encodeStr_encoded (hall b hb).1)).1 _ hmem
      refine ⟨(enc b.1, enc a.2), hmem', hkey, ?_⟩
      rw [hv]
      exact (decoded_iff (hall a ha).2).mp (hv ▸ (hkeep _ hmem).2)

omit [DecidableEq α] in
theorem ascii_decoded {i : Item α} (h : Ascii i) : Decoded i := by
  cases i with
  | str s =>
    obtain ⟨bytes, hbytes, -⟩ := encode_ascii h
    refine ⟨bytes, decode_encode (fun point hmem => ?_) hbytes⟩
    obtain ⟨c, hc, -⟩ := h point hmem
    exact ⟨c, hc⟩
  | bytes b => trivial
  | other x => trivial

omit [DecidableEq α] in
theorem native_name : nativeItem (.bytes (ascii "name") : Item α) = nameKey := by
  have hname : decode (ascii "name") = "name".toList.map .scalar := by
    rw [decode_ascii (by decide +kernel)]
    decide +kernel
  rw [nativeItem, hname, nameKey]

/-- How long a key is. -/
def keyLength : Item α → ℕ
  | .bytes b => b.length
  | _ => 0

/-- A dictionary that comes back from an unmarked pickle has no key with a byte
of 128 or more: the text `latin1` makes of one would be encoded to a longer. -/
theorem unmarked_keys {metadata : Dict α} (hall : Encodable metadata)
    (hsame : Same (decodeMetadata false (dictOf (metadata.map (Prod.map enc enc)))) (native metadata))
    {b : Bytes} {w : Item α} (hmem : (.bytes b, w) ∈ dictOf (metadata.map (Prod.map enc enc))) :
    AsciiBytes b := by
  have hd := encoded_dictOf hall
  rw [same_decoded] at hsame
  by_contra hb
  have hgrow : ∀ n, ∃ b w, (.bytes b, w) ∈ dictOf (metadata.map (Prod.map enc enc)) ∧
      ¬ AsciiBytes b ∧ n ≤ b.length := by
    intro n
    induction n with
    | zero => exact ⟨b, w, hmem, hb, Nat.zero_le _⟩
    | succ n ih =>
      obtain ⟨b, w, hmem, hb, hn⟩ := ih
      have hlatin := (mem_decodeMetadata_unmarked hd).mpr ⟨_, hmem, rfl, rfl⟩
      obtain ⟨a, ha, hkey, -⟩ := mem_native ((hsame _ _).mp hlatin)
      have hencode := encodeStr_native (hall a ha).1
      rw [hkey] at hencode
      obtain ⟨out, hout, heq⟩ := Option.map_eq_some_iff.mp hencode
      obtain ⟨w', hw'⟩ := last_isSome (List.mem_map.mpr ⟨a, ha, rfl⟩ :
        Prod.map enc enc a ∈ metadata.map (Prod.map enc enc))
      obtain ⟨hlen, hout'⟩ := encode_latin1_grows hout hb
      refine ⟨out, w', ?_, hout', by omega⟩
      rw [heq]
      exact mem_dictOf.mpr hw'
  let lengths := (dictOf (metadata.map (Prod.map enc enc))).map fun kv => keyLength kv.1
  obtain ⟨b, w, hmem, -, hn⟩ := hgrow (lengths.max?.getD 0 + 1)
  have hle : b.length ≤ lengths.max?.getD 0 :=
    List.le_max?_getD_of_mem (List.mem_map.mpr ⟨_, hmem, rfl⟩)
  omega

/-- From an unmarked pickle it comes if and only if besides all of it is ASCII,
but for the value of the name. -/
theorem same_unmarked {metadata encoded : Dict α} (h : encodeMetadata metadata = some encoded) :
    Same (decodeMetadata false encoded) (native metadata) ↔
      ∀ kv ∈ native metadata, Decoded kv.1 ∧ Decoded kv.2 ∧ Ascii kv.1 ∧
        (kv.1 = nameKey ∨ Ascii kv.2) := by
  have hmarked := same_marked h
  obtain ⟨hall, rfl⟩ := encodeMetadata_some h
  have hd := encoded_dictOf hall
  constructor
  · intro hsame
    have hlatin : ∀ jw ∈ dictOf (metadata.map (Prod.map enc enc)),
        Ascii (latinItem jw.1) ∧ latinItem jw.1 = nativeItem jw.1 := by
      rintro ⟨j, w⟩ hmem
      have hascii : Ascii (latinItem j) := by
        rcases encoded_cases (hd.2 _ hmem).1 with ⟨b, rfl⟩ | ⟨x, rfl⟩
        · exact asciiText_latin1.mpr (unmarked_keys hall hsame hmem)
        · trivial
      exact ⟨hascii, latin_eq_native (hd.2 _ hmem).1 hascii⟩
    rw [same_decoded] at hsame
    have hkey : ∀ kv ∈ native metadata, ∃ jw ∈ dictOf (metadata.map (Prod.map enc enc)),
        nativeItem jw.1 = kv.1 ∧ Ascii kv.1 ∧
        (if jw.1 = .bytes (ascii "name") then nativeItem jw.2 else latinItem jw.2) = kv.2 := by
      intro kv hmem
      obtain ⟨jw, hjw, hk, hv⟩ := (mem_decodeMetadata_unmarked hd).mp ((hsame kv.1 kv.2).mpr hmem)
      exact ⟨jw, hjw, (hlatin jw hjw).2 ▸ hk, hk ▸ (hlatin jw hjw).1, hv⟩
    have hkeys : ∀ a ∈ metadata, Decoded (nativeItem a.1) := by
      intro a ha
      obtain ⟨v, hv⟩ := native_key ha
      obtain ⟨jw, -, -, hascii, -⟩ := hkey _ hv
      exact ascii_decoded hascii
    rintro ⟨k, v⟩ hmem
    obtain ⟨⟨j, w⟩, hjw, rfl, hascii, rfl⟩ := hkey _ hmem
    obtain ⟨a, ha, rfl, hmem'⟩ := (corresponding hall hkeys (hd.2 _ hjw).1).2 w hjw
    have hvalue := Option.some.inj
      (((lookup_eq_some_iff_mem (nodup_dictOf _)).mpr hmem).symm.trans
        ((lookup_eq_some_iff_mem (nodup_dictOf _)).mpr hmem'))
    dsimp only at hascii hvalue hmem ⊢
    refine ⟨ascii_decoded hascii, ?_, hascii, ?_⟩
    · split
      · exact native_decoded (hall a ha).2
      · rename_i hname
        rw [if_neg hname] at hvalue
        rw [hvalue]
        exact ascii_decoded ((latin_iff (hall a ha).2).mp hvalue)
    · by_cases hname : j = .bytes (ascii "name")
      · rw [hname, native_name]
        exact Or.inl rfl
      · rw [if_neg hname] at hvalue ⊢
        rw [hvalue]
        exact Or.inr ((latin_iff (hall a ha).2).mp hvalue)
  · intro hkeep
    have hsame := hmarked.mpr fun kv hkv => ⟨(hkeep kv hkv).1, (hkeep kv hkv).2.1⟩
    have heq : decodeMetadata false (dictOf (metadata.map (Prod.map enc enc))) =
        decodeMetadata true (dictOf (metadata.map (Prod.map enc enc))) := by
      rw [decodeMetadata_eq hd, decodeMetadata_eq hd]
      refine List.map_congr_left fun jw hjw => ?_
      obtain ⟨-, -, hkey, hvalue⟩ :=
        hkeep _ (((same_decoded ..).mp hsame _ _).mp ((mem_decodeMetadata hd).mpr ⟨jw, hjw, rfl, rfl⟩))
      simp only [toStr_latin, toStr_native, Bool.false_eq_true, if_false]
      rw [(latin_iff (hd.2 jw hjw).1).mpr hkey]
      by_cases hname : jw.1 = .bytes (ascii "name")
      · rw [decide_eq_true hname, if_pos rfl]
      · rw [decide_eq_false hname, if_neg Bool.false_ne_true]
        have hascii := hvalue.resolve_left fun h =>
          hname (native_injective (hd.2 jw hjw).1 rfl (h.trans native_name.symm))
        rw [(latin_iff (hd.2 jw hjw).2).mpr hascii]
    rwa [heq]

theorem same_iff_keeps {metadata encoded : Dict α} (h : encodeMetadata metadata = some encoded)
    (writtenByPy3 : Bool) : Same (decodeMetadata writtenByPy3 encoded) (native metadata) ↔
      Keeps writtenByPy3 metadata := by
  unfold Keeps
  cases writtenByPy3 with
  | true => simpa only [true_or, and_true] using same_marked h
  | false => simpa only [Bool.false_eq_true, false_or] using same_unmarked h

end Swiftacular.NativeMetadata
