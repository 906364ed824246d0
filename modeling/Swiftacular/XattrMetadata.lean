import Mathlib.Data.List.Infix
import Swiftacular.NativeMetadata
import Swiftacular.Piles
import Swiftacular.StepRuns

/-!
Object metadata in the extended attributes of a file, as the patched diskfile
keeps it with `bs_xattr`: a pickle cut into chunks under numbered keys, and
its checksum under a key of its own. How many chunks there are is not
recorded; a reader takes them until one is missing. The tool, the pickle and
the checksum are parameters.
-/
namespace Swiftacular.XattrMetadata

open EntryStore NativeMetadata OrderedDicts Piles StepRuns

inductive Errno
  | enodata | enotsup | eopnotsupp | enoent | enospc | edquot | other (n : ℕ)
  deriving DecidableEq

/-- `_bs_xattr_get` and `_bs_xattr_set`: a path, a key, and an `OSError` where they raise. -/
structure Tool (S : Type) where
  get : S → String → String → Except Errno Bytes
  set : S → String → String → Bytes → S × Except Errno Unit

/-- What was set last under each path and key. -/
abbrev Xattrs := String → String → Option Bytes

def setXattr (x : Xattrs) (path key : String) (value : Bytes) : Xattrs := fun p k =>
  if p = path ∧ k = key then some value else x p k

/-- The tool over such a table: it reports `ENODATA` for a key that was never set. -/
def table : Tool Xattrs where
  get x path key :=
    match x path key with
    | some value => .ok value
    | none => .error .enodata
  set x path key value := (setXattr x path key value, .ok ())

variable {α : Type} [DecidableEq α] {S : Type}

/-- `pickle.dumps` with protocol 2, `pickle.loads` and the digest of `md5`. -/
structure Library (α : Type) where
  dumps : Dict α → Bytes
  loads : Bytes → Option (Dict α)
  md5 : Bytes → Bytes

/-- `METADATA_KEY`, with the number of the chunk but for the first. -/
def metadataKey (key : ℕ) : String := "user.swift.metadata" ++ if key = 0 then "" else toString key

def checksumKey : String := "user.swift.metadata_checksum"

inductive ReadError
  | xattrNotSupported (e : Errno)
  | notExist
  | badChecksum (path : String) (stored computed : Bytes)
  | os (e : Errno)
  | unpickling
  deriving DecidableEq

inductive WriteError
  | encode
  | xattrNotSupported (e : Errno)
  | noSpace
  | os (e : Errno)
  deriving DecidableEq

/-- The loop of `read_metadata`, for as many rounds as there is fuel. -/
def readChunks (tool : Tool S) (s : S) (path : String) (metadata : Bytes) (key : ℕ) :
    ℕ → Option (Except ReadError Bytes)
  | 0 => none
  | fuel + 1 =>
      match tool.get s path (metadataKey key) with
      | .ok chunk => readChunks tool s path (metadata ++ chunk) (key + 1) fuel
      | .error .enodata => some (.ok metadata)
      | .error .enotsup => some (.error (.xattrNotSupported .enotsup))
      | .error .eopnotsupp => some (.error (.xattrNotSupported .eopnotsupp))
      | .error .enoent => some (.error .notExist)
      | .error e => some (.error (.os e))

/-- The stored checksum, if any; where there is none it may be added, and that
it cannot be is only logged. -/
def readChecksum (tool : Tool S) (lib : Library α) (s : S) (path : String)
    (addMissingChecksum : Bool) (metadata : Bytes) : S × Except ReadError (Option Bytes) :=
  match tool.get s path checksumKey with
  | .ok checksum => (s, .ok (some checksum))
  | .error .enodata =>
      if addMissingChecksum then
        ((tool.set s path checksumKey (lib.md5 metadata)).1, .ok none)
      else (s, .ok none)
  | .error e => (s, .error (.os e))

/-- Whether the pickle shows early on that Python 3 wrote it. -/
def writtenByPy3 (metadata : Bytes) : Bool := ascii "_codecs\nencode" <:+: metadata.take 32

/-- `read_metadata`, once the chunks are read. -/
def readPickle (tool : Tool S) (lib : Library α) (s : S) (path : String)
    (addMissingChecksum : Bool) (metadata : Bytes) : S × Except ReadError (Dict α) :=
  if metadata = [] then (s, .error .notExist)
  else
    match readChecksum tool lib s path addMissingChecksum metadata with
    | (s, .error e) => (s, .error e)
    | (s, .ok checksum) =>
        let stored := checksum.getD []
        if stored ≠ [] ∧ stored ≠ lib.md5 metadata then
          (s, .error (.badChecksum path stored (lib.md5 metadata)))
        else
          match lib.loads metadata with
          | none => (s, .error .unpickling)
          | some d => (s, .ok (decodeMetadata (writtenByPy3 metadata) d))

def readMetadata (tool : Tool S) (lib : Library α) (s : S) (path : String)
    (addMissingChecksum : Bool) (fuel : ℕ) : Option (S × Except ReadError (Dict α)) :=
  (readChunks tool s path [] 0 fuel).map fun
    | .error e => (s, .error e)
    | .ok metadata => readPickle tool lib s path addMissingChecksum metadata

/-- The loop of `write_metadata`; with a size of 0 nothing is ever taken off,
and `none` is that it does not return. -/
def writeChunks (tool : Tool S) (path : String) (size : ℕ) (s : S) (key : ℕ) (metastr : Bytes) :
    Option (S × Except Errno Unit) :=
  if metastr = [] then some (s, .ok ())
  else if size = 0 then none
  else
    match tool.set s path (metadataKey key) (metastr.take size) with
    | (s, .error e) => some (s, .error e)
    | (s, .ok ()) => writeChunks tool path size s (key + 1) (metastr.drop size)
termination_by metastr.length
decreasing_by
  rename_i hne hsize
  have hpos := List.length_pos_iff.mpr hne
  rw [List.length_drop]
  omega

def writeError : Errno → WriteError
  | .enotsup => .xattrNotSupported .enotsup
  | .eopnotsupp => .xattrNotSupported .eopnotsupp
  | .enospc => .noSpace
  | .edquot => .noSpace
  | e => .os e

/-- `write_metadata`. -/
def writeMetadata (tool : Tool S) (lib : Library α) (s : S) (path : String) (metadata : Dict α)
    (xattrSize : ℕ) : Option (S × Except WriteError Unit) :=
  match encodeMetadata metadata with
  | none => some (s, .error .encode)
  | some encoded =>
      let metastr := lib.dumps encoded
      match writeChunks tool path xattrSize s 0 metastr with
      | none => none
      | some (s, .error e) => some (s, .error (writeError e))
      | some (s, .ok ()) =>
          match tool.set s path checksumKey (lib.md5 metastr) with
          | (s, .error e) => some (s, .error (writeError e))
          | (s, .ok ()) => some (s, .ok ())

/-! The keys. -/

theorem toList_metadataKey (key : ℕ) : (metadataKey key).toList =
    "user.swift.metadata".toList ++ if key = 0 then [] else Nat.toDigits 10 key := by
  unfold metadataKey
  rw [String.toList_append]
  split
  · rfl
  · rw [← Nat.toList_repr]
    rfl

theorem metadataKey_injective {i j : ℕ} (h : metadataKey i = metadataKey j) : i = j := by
  have hlist := congrArg String.toList h
  rw [toList_metadataKey, toList_metadataKey, List.append_cancel_left_eq] at hlist
  by_cases hi : i = 0
  · by_cases hj : j = 0
    · rw [hi, hj]
    · rw [if_pos hi, if_neg hj] at hlist
      exact absurd hlist.symm Nat.toDigits_ne_nil
  · by_cases hj : j = 0
    · rw [if_neg hi, if_pos hj] at hlist
      exact absurd hlist Nat.toDigits_ne_nil
    · rw [if_neg hi, if_neg hj] at hlist
      have hvalue := congrArg (fun digits => Nat.ofDigitChars 10 digits 0) hlist
      simpa only [Nat.ofDigitChars_toDigits (by decide : 1 < 10) (by decide : 10 ≤ 10)] using hvalue

/-- No chunk is under the key of the checksum: a number has no underscore. -/
theorem metadataKey_ne_checksum (key : ℕ) : metadataKey key ≠ checksumKey := by
  intro h
  have hlist := congrArg String.toList h
  have hsum : checksumKey.toList = "user.swift.metadata".toList ++ "_checksum".toList := by decide
  rw [toList_metadataKey, hsum, List.append_cancel_left_eq] at hlist
  have hunder : '_' ∈ "_checksum".toList := by decide
  rw [← hlist] at hunder
  split at hunder
  · contradiction
  · exact Nat.underscore_not_in_toDigits hunder

/-! The chunks of a pickle. -/

/-- The chunks a pickle is cut into. -/
def chunksOf (size : ℕ) (metastr : Bytes) : List Bytes :=
  if metastr = [] ∨ size = 0 then []
  else metastr.take size :: chunksOf size (metastr.drop size)
termination_by metastr.length
decreasing_by
  rename_i h
  have hpos := List.length_pos_iff.mpr (not_or.mp h).1
  have hsize := (not_or.mp h).2
  rw [List.length_drop]
  omega

/-- How many there are. -/
def chunkCount (size : ℕ) (metastr : Bytes) : ℕ := (metastr.length + size - 1) / size

theorem chunksOf_step {size : ℕ} {metastr : Bytes} (hne : metastr ≠ []) (hsize : size ≠ 0) :
    chunksOf size metastr = metastr.take size :: chunksOf size (metastr.drop size) := by
  rw [chunksOf, if_neg (not_or.mpr ⟨hne, hsize⟩)]

theorem chunksOf_nil (size : ℕ) : chunksOf size [] = [] := by
  rw [chunksOf, if_pos (Or.inl rfl)]

theorem chunkCount_step {size : ℕ} {metastr : Bytes} (hne : metastr ≠ []) (hsize : 0 < size) :
    chunkCount size metastr = chunkCount size (metastr.drop size) + 1 := by
  have hpos := List.length_pos_iff.mpr hne
  unfold chunkCount
  rw [List.length_drop]
  by_cases hle : metastr.length ≤ size
  · have hlast : (metastr.length - size + size - 1) / size = 0 :=
      Nat.div_eq_of_lt (by omega)
    have hsum : metastr.length + size - 1 = metastr.length - 1 + size := by omega
    rw [hlast, hsum, Nat.add_div_right _ hsize, Nat.div_eq_of_lt (by omega)]
  · have hsum : metastr.length + size - 1 = metastr.length - size + size - 1 + size := by omega
    rw [hsum, Nat.add_div_right _ hsize]

theorem length_chunksOf (size : ℕ) (metastr : Bytes) :
    (chunksOf size metastr).length = chunkCount size metastr := by
  fun_induction chunksOf size metastr with
  | case1 metastr h =>
    unfold chunkCount
    by_cases hsize : size = 0
    · rw [hsize, Nat.div_zero, List.length_nil]
    · rw [h.resolve_right hsize]
      simp only [List.length_nil]
      exact (Nat.div_eq_of_lt (by omega)).symm
  | case2 metastr h ih =>
    obtain ⟨hne, hsize⟩ := not_or.mp h
    rw [List.length_cons, ih, ← chunkCount_step hne (by omega)]

theorem flatten_chunksOf {size : ℕ} (hsize : 0 < size) (metastr : Bytes) :
    (chunksOf size metastr).flatten = metastr := by
  fun_induction chunksOf size metastr with
  | case1 metastr h =>
    obtain rfl := h.resolve_right (by omega)
    rfl
  | case2 metastr h ih => rw [List.flatten_cons, ih, List.take_append_drop]

theorem chunksOf_ne_nil {size : ℕ} {metastr : Bytes} :
    ∀ chunk ∈ chunksOf size metastr, chunk ≠ [] := by
  fun_induction chunksOf size metastr with
  | case1 metastr h =>
    intro chunk hmem
    contradiction
  | case2 metastr h ih =>
    intro chunk hmem
    obtain ⟨hne, hsize⟩ := not_or.mp h
    rcases List.mem_cons.mp hmem with rfl | hmem
    · have hpos := List.length_pos_iff.mpr hne
      refine List.length_pos_iff.mp ?_
      rw [List.length_take]
      omega
    · exact ih chunk hmem

/-! What a write leaves. -/

/-- Chunks set under consecutive numbers. -/
def setChunks (path : String) (x : Xattrs) (key : ℕ) : List Bytes → Xattrs
  | [] => x
  | chunk :: rest => setChunks path (setXattr x path (metadataKey key) chunk) (key + 1) rest

theorem writeChunks_table {path : String} {size : ℕ} (hsize : 0 < size) (x : Xattrs) (key : ℕ)
    (metastr : Bytes) : writeChunks table path size x key metastr =
      some (setChunks path x key (chunksOf size metastr), .ok ()) := by
  fun_induction chunksOf size metastr generalizing x key with
  | case1 metastr h =>
    obtain rfl := h.resolve_right (by omega)
    rw [writeChunks, if_pos rfl, setChunks]
  | case2 metastr h ih =>
    obtain ⟨hne, hzero⟩ := not_or.mp h
    rw [writeChunks, if_neg hne, if_neg hzero]
    exact ih (setXattr x path (metadataKey key) (metastr.take size)) (key + 1)

/-- A write that ends has the chunks make up the pickle; with a size of 0 there
is none of what is not empty. -/
theorem writeChunks_ends {path : String} {size : ℕ} {x x' : Xattrs} {key : ℕ} {metastr : Bytes}
    {r : Except Errno Unit} (h : writeChunks table path size x key metastr = some (x', r)) :
    (chunksOf size metastr).flatten = metastr ∧
      x' = setChunks path x key (chunksOf size metastr) := by
  by_cases hsize : 0 < size
  · rw [writeChunks_table hsize] at h
    exact ⟨flatten_chunksOf hsize metastr, (Prod.mk.inj (Option.some.inj h)).1.symm⟩
  · obtain rfl : size = 0 := by omega
    rw [writeChunks] at h
    split at h
    · rename_i hempty
      rw [hempty, chunksOf_nil]
      exact ⟨rfl, (Prod.mk.inj (Option.some.inj h)).1.symm⟩
    · rw [if_pos rfl] at h
      contradiction

theorem setChunks_other {path p k : String} {x : Xattrs} {key : ℕ} {chunks : List Bytes}
    (hother : p ≠ path ∨ ∀ i, k ≠ metadataKey (key + i)) :
    setChunks path x key chunks p k = x p k := by
  induction chunks generalizing x key with
  | nil => rfl
  | cons chunk rest ih =>
    have hrest : p ≠ path ∨ ∀ i, k ≠ metadataKey (key + 1 + i) :=
      hother.imp_right fun h i => by rw [Nat.add_assoc]; exact h (1 + i)
    rw [setChunks, ih hrest, setXattr, if_neg]
    rintro ⟨hp, hk⟩
    rcases hother with hne | hall
    · exact hne hp
    · exact hall 0 hk

/-- A chunk is under its number, and above the last one what was there. -/
theorem setChunks_key {path : String} {x : Xattrs} {key : ℕ} {chunks : List Bytes} (i : ℕ) :
    setChunks path x key chunks path (metadataKey (key + i)) =
      chunks[i]?.or (x path (metadataKey (key + i))) := by
  induction chunks generalizing x key i with
  | nil => rfl
  | cons chunk rest ih =>
    cases i with
    | zero =>
      have hbelow : ∀ i, metadataKey (key + 0) ≠ metadataKey (key + 1 + i) := by
        intro i h
        have heq := metadataKey_injective h
        omega
      rw [setChunks, setChunks_other (Or.inr hbelow), setXattr, if_pos ⟨rfl, rfl⟩]
      rfl
    | succ i =>
      have hsucc : key + (i + 1) = key + 1 + i := by omega
      have hne : metadataKey (key + 1 + i) ≠ metadataKey key := by
        intro h
        have heq := metadataKey_injective h
        omega
      rw [setChunks, hsucc, ih, setXattr, if_neg fun h => hne h.2, List.getElem?_cons_succ]

theorem writeMetadata_ok {lib : Library α} {x x' : Xattrs} {path : String} {metadata : Dict α}
    {size : ℕ} (h : writeMetadata table lib x path metadata size = some (x', .ok ())) :
    ∃ encoded, encodeMetadata metadata = some encoded ∧
      (chunksOf size (lib.dumps encoded)).flatten = lib.dumps encoded ∧
      x' = setXattr (setChunks path x 0 (chunksOf size (lib.dumps encoded))) path checksumKey
        (lib.md5 (lib.dumps encoded)) := by
  unfold writeMetadata at h
  split at h
  · simp at h
  · rename_i encoded hencode
    dsimp only at h
    split at h
    · contradiction
    · simp at h
    · rename_i s hchunks
      obtain ⟨hwhole, rfl⟩ := writeChunks_ends hchunks
      exact ⟨encoded, hencode, hwhole, (Prod.mk.inj (Option.some.inj h)).1.symm⟩

/-- The chunks that are under the numbered keys of a path. -/
def Holds (x : Xattrs) (path : String) (chunks : List Bytes) : Prop :=
  ∀ key, x path (metadataKey key) = chunks[key]?

theorem holds_write {x : Xattrs} {path : String} {chunks left : List Bytes} {checksum : Bytes}
    (h : Holds x path left) :
    Holds (setXattr (setChunks path x 0 chunks) path checksumKey checksum) path
      (laid chunks left) := by
  intro key
  have hset := @setChunks_key path x 0 chunks key
  rw [Nat.zero_add] at hset
  rw [setXattr, if_neg fun heq => metadataKey_ne_checksum key heq.2, hset, h key, getElem?_laid]

/-! Calls, one after the other. -/

structure Call (α : Type) where
  path : String
  metadata : Dict α
  xattrSize : ℕ

/-- A call that succeeds. -/
def step (lib : Library α) (x : Xattrs) (call : Call α) : Option Xattrs :=
  match writeMetadata table lib x call.path call.metadata call.xattrSize with
  | some (x', .ok ()) => some x'
  | _ => none

def chunks (lib : Library α) (call : Call α) : List Bytes :=
  match encodeMetadata call.metadata with
  | some encoded => chunksOf call.xattrSize (lib.dumps encoded)
  | none => []

/-- The chunks that a path is left with, where each call lays its own over them. -/
def chunksLeft (lib : Library α) (path : String) (calls : List (Call α)) : List Bytes :=
  piled ((calls.filter fun call => call.path = path).map (chunks lib))

theorem step_some {lib : Library α} {x x' : Xattrs} {call : Call α} (h : step lib x call = some x') :
    ∃ encoded, encodeMetadata call.metadata = some encoded ∧
      (chunks lib call).flatten = lib.dumps encoded ∧
      x' = setXattr (setChunks call.path x 0 (chunks lib call)) call.path checksumKey
        (lib.md5 (lib.dumps encoded)) := by
  unfold step at h
  split at h
  · rename_i hwrite
    obtain rfl := Option.some.inj h
    obtain ⟨encoded, hencode, hwhole, heq⟩ := writeMetadata_ok hwrite
    refine ⟨encoded, hencode, ?_⟩
    unfold chunks
    rw [hencode]
    exact ⟨hwhole, heq⟩
  · contradiction

theorem chunks_ne_nil {lib : Library α} {call : Call α} : ∀ chunk ∈ chunks lib call, chunk ≠ [] := by
  unfold chunks
  split
  · exact chunksOf_ne_nil
  · intro chunk hmem
    contradiction

theorem holds_other {lib : Library α} {x x' : Xattrs} {call : Call α} {path : String}
    {left : List Bytes} (hpath : path ≠ call.path) (h : Holds x path left)
    (hstep : step lib x call = some x') : Holds x' path left := by
  obtain ⟨encoded, -, -, rfl⟩ := step_some hstep
  intro key
  rw [setXattr, if_neg fun heq => hpath heq.1, setChunks_other (Or.inl hpath), h key]

theorem chunksLeft_concat (lib : Library α) (path : String) (calls : List (Call α)) (call : Call α) :
    chunksLeft lib path (calls ++ [call]) =
      if call.path = path then laid (chunks lib call) (chunksLeft lib path calls)
      else chunksLeft lib path calls := by
  unfold chunksLeft
  rw [List.filter_append, List.map_append]
  by_cases hpath : call.path = path
  · rw [if_pos hpath, List.filter_cons_of_pos (by simpa using hpath), List.filter_nil,
      List.map_singleton, piled_concat]
  · rw [if_neg hpath, List.filter_cons_of_neg (by simpa using hpath), List.filter_nil, List.map_nil,
      List.append_nil]

/-- After a run each path has the chunks of all its calls, laid over one another. -/
theorem holds_run {lib : Library α} {x₀ x : Xattrs} {path : String} {calls : List (Call α)}
    (hnew : ∀ key, x₀ path key = none) (hrun : run (step lib) x₀ calls = some x) :
    Holds x path (chunksLeft lib path calls) := by
  induction calls using List.reverseRecOn generalizing x with
  | nil =>
    obtain rfl := Option.some.inj hrun
    exact fun key => hnew _
  | append_singleton calls call ih =>
    obtain ⟨u, hu, hlast⟩ := run_concat_some hrun
    rw [chunksLeft_concat]
    by_cases hpath : call.path = path
    · obtain ⟨encoded, -, -, rfl⟩ := step_some hlast
      subst hpath
      rw [if_pos rfl]
      exact holds_write (ih hu)
    · rw [if_neg hpath]
      exact holds_other (Ne.symm hpath) (ih hu) hlast

/-! What is read. -/

/-- With enough fuel a reader gets this, and no other fuel changes it. -/
def Returns {β : Type} (read : ℕ → Option β) (result : β) : Prop :=
  ∃ enough, ∀ fuel, enough ≤ fuel → read fuel = some result

theorem Returns.unique {β : Type} {read : ℕ → Option β} {r r' : β} (h : Returns read r)
    (h' : Returns read r') : r = r' := by
  obtain ⟨n, hn⟩ := h
  obtain ⟨n', hn'⟩ := h'
  exact Option.some.inj ((hn (max n n') (Nat.le_max_left ..)).symm.trans
    (hn' (max n n') (Nat.le_max_right ..)))

theorem table_get (x : Xattrs) (path key : String) : table.get x path key =
    match x path key with
    | some value => .ok value
    | none => .error .enodata := rfl

/-- A reader takes the chunks from a number on, and stops where there is none. -/
theorem readChunks_table {x : Xattrs} {path : String} {chunks : List Bytes} (h : Holds x path chunks)
    {fuel key : ℕ} (hfuel : chunks.length - key < fuel) (metadata : Bytes) :
    readChunks table x path metadata key fuel =
      some (.ok (metadata ++ (chunks.drop key).flatten)) := by
  induction fuel generalizing key metadata with
  | zero => omega
  | succ fuel ih =>
    rw [readChunks]
    rw [table_get, h key]
    by_cases hkey : key < chunks.length
    · rw [List.getElem?_eq_getElem hkey]
      dsimp only
      rw [ih (by omega), List.drop_eq_getElem_cons hkey, List.flatten_cons, List.append_assoc]
    · rw [List.getElem?_eq_none (by omega), List.drop_eq_nil_of_le (by omega), List.flatten_nil,
        List.append_nil]

/-- What a path that was written reads as: the pickle its chunks make up, if
the checksum that was written last is the one of it. -/
theorem readMetadata_table {lib : Library α} {x : Xattrs} {path : String} {chunks : List Bytes}
    {metadata checksum : Bytes} {encoded : Dict α} (addMissingChecksum : Bool)
    (h : Holds x path chunks) (hflat : chunks.flatten = metadata)
    (hchecksum : x path checksumKey = some checksum) (hsome : checksum ≠ [])
    (hne : metadata ≠ []) (hloads : lib.loads metadata = some encoded) :
    Returns (readMetadata table lib x path addMissingChecksum) (x,
      if checksum = lib.md5 metadata then .ok (decodeMetadata (writtenByPy3 metadata) encoded)
      else .error (.badChecksum path checksum (lib.md5 metadata))) := by
  refine ⟨chunks.length + 1, fun fuel hfuel => ?_⟩
  have hread : readChunks table x path [] 0 fuel = some (.ok metadata) :=
    hflat ▸ readChunks_table h (by omega) []
  have hget : table.get x path checksumKey = .ok checksum := by
    rw [table_get, hchecksum]
  unfold readMetadata
  rw [hread, Option.map_some]
  dsimp only
  unfold readPickle readChecksum
  rw [if_neg hne, hget]
  dsimp only
  rw [Option.getD_some]
  by_cases hsame : checksum = lib.md5 metadata
  · rw [if_neg fun h => h.2 hsame, if_pos hsame, hloads]
  · rw [if_pos ⟨hsome, hsame⟩, if_neg hsame]

/-- How many chunks a call takes. -/
def count (lib : Library α) (call : Call α) : ℕ :=
  match encodeMetadata call.metadata with
  | some encoded => chunkCount call.xattrSize (lib.dumps encoded)
  | none => 0

theorem length_chunks (lib : Library α) (call : Call α) :
    (chunks lib call).length = count lib call := by
  unfold chunks count
  split
  · exact length_chunksOf _ _
  · rfl

/-- What is under the numbered keys of a path, one after the other. -/
def pickleLeft (lib : Library α) (path : String) (calls : List (Call α)) : Bytes :=
  (chunksLeft lib path calls).flatten

theorem length_chunksLeft_le (lib : Library α) (path : String) (calls : List (Call α)) (n : ℕ) :
    (chunksLeft lib path calls).length ≤ n ↔
      ∀ call ∈ calls, call.path = path → count lib call ≤ n := by
  unfold chunksLeft
  rw [length_piled_le]
  simp only [List.forall_mem_map, List.mem_filter, decide_eq_true_eq, and_imp, length_chunks]

theorem chunksLeft_ne_nil {lib : Library α} {path : String} {calls : List (Call α)} :
    ∀ chunk ∈ chunksLeft lib path calls, chunk ≠ [] := by
  intro chunk hmem
  obtain ⟨l, hl, hchunk⟩ := mem_piled hmem
  obtain ⟨call, -, rfl⟩ := List.mem_map.mp hl
  exact chunks_ne_nil chunk hchunk

/-- After the last call comes what chunks of earlier ones it did not reach. -/
theorem pickleLeft_concat (lib : Library α) (calls : List (Call α)) (call : Call α) :
    pickleLeft lib call.path (calls ++ [call]) = (chunks lib call).flatten ++
      ((chunksLeft lib call.path calls).drop (count lib call)).flatten := by
  unfold pickleLeft
  rw [chunksLeft_concat, if_pos rfl, laid, List.flatten_append, length_chunks]

theorem pickleLeft_eq_iff (lib : Library α) (calls : List (Call α)) (call : Call α) :
    pickleLeft lib call.path (calls ++ [call]) = (chunks lib call).flatten ↔
      ∀ earlier ∈ calls, earlier.path = call.path → count lib earlier ≤ count lib call := by
  rw [pickleLeft_concat, List.append_right_eq_self, ← length_chunksLeft_le, ← List.drop_eq_nil_iff]
  constructor
  · intro h
    refine List.eq_nil_iff_forall_not_mem.mpr fun chunk hmem => ?_
    exact chunksLeft_ne_nil chunk (List.mem_of_mem_drop hmem) (List.flatten_eq_nil_iff.mp h chunk hmem)
  · intro h
    rw [h, List.flatten_nil]

/-- A call with a size and with texts that can be encoded succeeds. -/
theorem step_succeeds {lib : Library α} {call : Call α} (x : Xattrs) (hsize : 0 < call.xattrSize)
    (hencode : (encodeMetadata call.metadata).isSome) : ∃ x', step lib x call = some x' := by
  obtain ⟨encoded, hencode⟩ := Option.isSome_iff_exists.mp hencode
  unfold step writeMetadata
  rw [hencode]
  dsimp only
  rw [writeChunks_table hsize]
  exact ⟨_, rfl⟩

theorem run_succeeds {lib : Library α} {calls : List (Call α)} (x : Xattrs)
    (h : ∀ call ∈ calls, 0 < call.xattrSize ∧ (encodeMetadata call.metadata).isSome) :
    ∃ x', run (step lib) x calls = some x' := by
  induction calls generalizing x with
  | nil => exact ⟨x, rfl⟩
  | cons call rest ih =>
    obtain ⟨hsize, hencode⟩ := h call (List.mem_cons_self ..)
    obtain ⟨u, hu⟩ := step_succeeds x hsize hencode
    obtain ⟨x', hx'⟩ := ih u fun c hc => h c (List.mem_cons_of_mem _ hc)
    exact ⟨x', Option.bind_eq_some_iff.mpr ⟨u, hu, hx'⟩⟩

/-- After a call that succeeds the checksum is the one of its own pickle, and
`read_metadata` takes it against everything that is under the keys. -/
theorem read_after {lib : Library α} {x₀ x : Xattrs} {calls : List (Call α)} {call : Call α}
    {encoded : Dict α} (addMissingChecksum : Bool) (hnew : ∀ key, x₀ call.path key = none)
    (hrun : run (step lib) x₀ (calls ++ [call]) = some x)
    (hencode : encodeMetadata call.metadata = some encoded)
    (hloads : ∀ tail, lib.loads (lib.dumps encoded ++ tail) = some encoded)
    (hdumps : lib.dumps encoded ≠ []) (hmd5 : lib.md5 (lib.dumps encoded) ≠ []) :
    (chunks lib call).flatten = lib.dumps encoded ∧
    Returns (readMetadata table lib x call.path addMissingChecksum) (x,
      if lib.md5 (lib.dumps encoded) = lib.md5 (pickleLeft lib call.path (calls ++ [call])) then
        .ok (decodeMetadata (writtenByPy3 (pickleLeft lib call.path (calls ++ [call]))) encoded)
      else .error (.badChecksum call.path (lib.md5 (lib.dumps encoded))
        (lib.md5 (pickleLeft lib call.path (calls ++ [call]))))) := by
  have hholds := holds_run hnew hrun
  obtain ⟨u, -, hlast⟩ := run_concat_some hrun
  obtain ⟨encoded', hencode', hwhole, hx⟩ := step_some hlast
  obtain rfl := Option.some.inj (hencode.symm.trans hencode')
  have hchecksum : x call.path checksumKey = some (lib.md5 (lib.dumps encoded)) := by
    rw [hx, setXattr, if_pos ⟨rfl, rfl⟩]
  have hpickle := pickleLeft_concat lib calls call
  rw [hwhole] at hpickle
  have hne : pickleLeft lib call.path (calls ++ [call]) ≠ [] := by
    rw [hpickle]
    exact fun h => hdumps (List.append_eq_nil_iff.mp h).1
  have hloaded : lib.loads (pickleLeft lib call.path (calls ++ [call])) = some encoded :=
    hpickle ▸ hloads _
  have hflat : (chunksLeft lib call.path (calls ++ [call])).flatten =
      pickleLeft lib call.path (calls ++ [call]) := rfl
  exact ⟨hwhole, readMetadata_table addMissingChecksum hholds hflat hchecksum hmd5 hne hloaded⟩

/-- After a call that succeeds `read_metadata` returns its metadata, as native
strings, if and only if no earlier call on the path took more chunks than it,
or the checksum does not tell, and the texts of it keep. -/
theorem read_back {lib : Library α} {x₀ x : Xattrs} {calls : List (Call α)} {call : Call α}
    {encoded : Dict α} (addMissingChecksum : Bool) (hnew : ∀ key, x₀ call.path key = none)
    (hrun : run (step lib) x₀ (calls ++ [call]) = some x)
    (hencode : encodeMetadata call.metadata = some encoded)
    (hloads : ∀ tail, lib.loads (lib.dumps encoded ++ tail) = some encoded)
    (hdumps : lib.dumps encoded ≠ []) (hmd5 : lib.md5 (lib.dumps encoded) ≠ []) :
    (∃ d, Returns (readMetadata table lib x call.path addMissingChecksum) (x, .ok d) ∧
      Same d (native call.metadata)) ↔
    ((∀ earlier ∈ calls, earlier.path = call.path → count lib earlier ≤ count lib call) ∨
      lib.md5 (pickleLeft lib call.path (calls ++ [call])) = lib.md5 (lib.dumps encoded)) ∧
    Keeps (writtenByPy3 (pickleLeft lib call.path (calls ++ [call]))) call.metadata := by
  obtain ⟨hwhole, hreturns⟩ := read_after addMissingChecksum hnew hrun hencode hloads hdumps hmd5
  have htells : ((∀ earlier ∈ calls, earlier.path = call.path →
      count lib earlier ≤ count lib call) ∨
      lib.md5 (pickleLeft lib call.path (calls ++ [call])) = lib.md5 (lib.dumps encoded)) ↔
      lib.md5 (lib.dumps encoded) = lib.md5 (pickleLeft lib call.path (calls ++ [call])) := by
    rw [← pickleLeft_eq_iff, hwhole]
    constructor
    · rintro (h | h)
      · rw [h]
      · exact h.symm
    · exact fun h => Or.inr h.symm
  rw [htells, ← same_iff_keeps hencode]
  constructor
  · rintro ⟨d, hd, hsame⟩
    have heq := (Prod.mk.inj (hd.unique hreturns)).2
    split at heq
    · rename_i hmd5
      obtain rfl := Except.ok.inj heq
      exact ⟨hmd5, hsame⟩
    · contradiction
  · rintro ⟨hmd5, hsame⟩
    rw [if_pos hmd5] at hreturns
    exact ⟨_, hreturns, hsame⟩

/-- `{'a': 'b'}`, and what is pickled of it. -/
def sampleMetadata : Dict Empty := [(.str [.scalar 'a'], .str [.scalar 'b'])]

def sampleEncoded : Dict Empty := [(.bytes (ascii "a"), .bytes (ascii "b"))]

def samplePickle : Bytes :=
  [128, 2, 125, 113, 0, 99, 95, 99, 111, 100, 101, 99, 115, 10, 101, 110, 99, 111, 100, 101, 10,
    113, 1, 88, 1, 0, 0, 0, 97, 113, 2, 88, 6, 0, 0, 0, 108, 97, 116, 105, 110, 49, 113, 3, 134,
    113, 4, 82, 113, 5, 104, 1, 88, 1, 0, 0, 0, 98, 113, 6, 104, 3, 134, 113, 7, 82, 113, 8, 115, 46]

/-- The library on this pickle, and on it with its end from byte 16 on after it. -/
def sampleLibrary : Library Empty where
  dumps _ := samplePickle
  loads metadata := if samplePickle <+: metadata then some sampleEncoded else none
  md5 metadata :=
    if metadata = samplePickle then ascii "f6468239d582efb8ff8ce7f3d528b21a"
    else ascii "df7ae3c3ea940e94cfb189910c89eebd"

theorem sample_loads (tail : Bytes) :
    sampleLibrary.loads (sampleLibrary.dumps sampleEncoded ++ tail) = some sampleEncoded := by
  unfold sampleLibrary
  dsimp only
  rw [if_pos (List.prefix_append samplePickle tail)]

def sampleCall (size : ℕ) : Call Empty := ⟨"o", sampleMetadata, size⟩

theorem sample_encoded : encodeMetadata sampleMetadata = some sampleEncoded := by decide +kernel

theorem sample_keeps : Keeps true sampleMetadata := by
  have hall : ∀ kv ∈ native sampleMetadata, kv = (.str [.scalar 'a'], .str [.scalar 'b']) := by decide
  intro kv hmem
  rw [hall kv hmem]
  refine ⟨ascii_decoded ?_, ascii_decoded ?_, Or.inl rfl⟩
  · exact fun point hp => ⟨'a', List.mem_singleton.mp hp, by decide⟩
  · exact fun point hp => ⟨'b', List.mem_singleton.mp hp, by decide⟩

theorem sample_runs {sizes : List ℕ} (h : ∀ size ∈ sizes, 0 < size) :
    ∃ x, run (step sampleLibrary) (fun _ _ => none) (sizes.map sampleCall) = some x := by
  refine run_succeeds _ fun call hmem => ?_
  obtain ⟨size, hsize, rfl⟩ := List.mem_map.mp hmem
  exact ⟨h size hsize, Option.isSome_iff_exists.mpr ⟨_, sample_encoded⟩⟩

theorem sample_chunks (size : ℕ) :
    chunks sampleLibrary (sampleCall size) = chunksOf size samplePickle := by
  unfold chunks
  rw [show (sampleCall size).metadata = sampleMetadata from rfl, sample_encoded]
  rfl

/-- In chunks of 16 bytes over one of 65536. -/
theorem read_back_longer : ∃ x d,
    run (step sampleLibrary) (fun _ _ => none) [sampleCall 65536, sampleCall 16] = some x ∧
      Returns (readMetadata table sampleLibrary x "o" false) (x, .ok d) ∧
      Same d (native sampleMetadata) := by
  obtain ⟨x, hx⟩ := @sample_runs [65536, 16] (by decide)
  have hcount : ∀ earlier ∈ [sampleCall 65536], earlier.path = "o" →
      count sampleLibrary earlier ≤ count sampleLibrary (sampleCall 16) := by decide +kernel
  have hpickle := (pickleLeft_eq_iff sampleLibrary [sampleCall 65536] (sampleCall 16)).mpr hcount
  have hmarked : writtenByPy3 (pickleLeft sampleLibrary "o"
      ([sampleCall 65536] ++ [sampleCall 16])) = true := by
    rw [sample_chunks, flatten_chunksOf (by decide)] at hpickle
    rw [show "o" = (sampleCall 16).path from rfl, hpickle]
    decide +kernel
  obtain ⟨d, hd⟩ := (@read_back _ _ sampleLibrary _ x [sampleCall 65536] (sampleCall 16) _ false
    (fun _ => rfl) hx sample_encoded sample_loads (by decide) (by decide)).mpr
    ⟨Or.inl hcount, hmarked ▸ sample_keeps⟩
  exact ⟨x, d, hx, hd⟩

/-- One chunk of 65536 bytes over five of 16 leaves four of them, and the checksum is
not the one of what is read. -/
theorem stale_chunks : ∃ x,
    run (step sampleLibrary) (fun _ _ => none) [sampleCall 16, sampleCall 65536] = some x ∧
      encodeMetadata sampleMetadata = some sampleEncoded ∧
      (∀ tail, sampleLibrary.loads (sampleLibrary.dumps sampleEncoded ++ tail) =
        some sampleEncoded) ∧
      Returns (readMetadata table sampleLibrary x "o" false) (x, .error (.badChecksum "o"
        (ascii "f6468239d582efb8ff8ce7f3d528b21a") (ascii "df7ae3c3ea940e94cfb189910c89eebd"))) ∧
      ¬ ∃ d, Returns (readMetadata table sampleLibrary x "o" false) (x, .ok d) ∧
        Same d (native sampleMetadata) := by
  obtain ⟨x, hx⟩ := @sample_runs [16, 65536] (by decide)
  have hleft : pickleLeft sampleLibrary "o" ([sampleCall 16] ++ [sampleCall 65536]) =
      samplePickle ++ samplePickle.drop 16 := by
    have hone : chunksLeft sampleLibrary "o" [sampleCall 16] = chunksOf 16 samplePickle := by
      have hconcat := chunksLeft_concat sampleLibrary "o" [] (sampleCall 16)
      have hpath : (sampleCall 16).path = "o" := rfl
      rw [List.nil_append, if_pos hpath, sample_chunks] at hconcat
      exact hconcat.trans ((laid_eq_iff _ _).mpr (Nat.zero_le _))
    have hcount : count sampleLibrary (sampleCall 65536) = 1 := by decide +kernel
    rw [show "o" = (sampleCall 65536).path from rfl, pickleLeft_concat, sample_chunks,
      flatten_chunksOf (by decide), hcount, show (sampleCall 65536).path = "o" from rfl, hone,
      chunksOf_step (by decide) (by decide), List.drop_succ_cons, List.drop_zero,
      flatten_chunksOf (by decide)]
  have hreturns := (@read_after _ _ sampleLibrary _ x [sampleCall 16] (sampleCall 65536) _ false
    (fun _ => rfl) hx sample_encoded sample_loads (by decide) (by decide)).2
  rw [show (sampleCall 65536).path = "o" from rfl, hleft, if_neg (by decide +kernel)] at hreturns
  have hsum : sampleLibrary.md5 (samplePickle ++ samplePickle.drop 16) =
      ascii "df7ae3c3ea940e94cfb189910c89eebd" := by decide +kernel
  rw [hsum] at hreturns
  refine ⟨x, hx, sample_encoded, sample_loads, hreturns, ?_⟩
  rintro ⟨d, hd, -⟩
  have heq := (Prod.mk.inj (hd.unique hreturns)).2
  contradiction

end Swiftacular.XattrMetadata
