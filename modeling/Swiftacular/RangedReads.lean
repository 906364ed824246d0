import Swiftacular.EngineObjects

/-!
Reading an object's data a chunk at a time. Each read looks at the store twice,
for the bytes and then for whose they are; the reader asks for no more than a
chunk and takes a chunk shorter than it asked for as the last.
-/
namespace Swiftacular.RangedReads

open EntryStore EngineObjects

/-- What BlueStore reads: the whole object when asked for 0 bytes at offset 0. -/
def storeRead (data : Bytes) (offset size : ℕ) : Bytes :=
  if offset = 0 ∧ size = 0 then data else extent data offset size

/-- `Object::read`, with the store as it is at its first and at its second look. -/
def objectRead (first second : Store) (o : Object) (offset size : ℕ) : Except Error Bytes := do
  o.require "read" [.active, .old]
  if size = 0 then pure []
  else
    let found := first (address o.toStat)
    check "read" second (address o.toStat) o.toStat found.isSome
    pure (storeRead ((found.map Entry.data).getD []) offset size)

/-- Calls made one after the other, each look at the store at a later moment. -/
structure Reading (α : Type) where
  result : Except Error α
  looks : ℕ

def isChanged : Error → Bool
  | .changed _ _ _ => true
  | _ => false

/-- How many delays `retry` has. -/
def durations : ℕ := 4

/-- `retry` of a read: again after a `ChangedError`, as long as delays are left. -/
def retried (looks : ℕ → Store) (o : Object) (offset size : ℕ) : ℕ → ℕ → Reading Bytes
  | 0, n => ⟨objectRead (looks n) (looks (n + 1)) o offset size, n + 2⟩
  | delays + 1, n =>
      match objectRead (looks n) (looks (n + 1)) o offset size with
      | .ok chunk => ⟨.ok chunk, n + 2⟩
      | .error e =>
          if isChanged e then retried looks o offset size delays (n + 2) else ⟨.error e, n + 2⟩

/-- `size` in `BluestoreDevice.read`: an end of zero is none. -/
def readSize (chunkSize offset : ℕ) (stop : Option ℕ) : ℕ :=
  match stop with
  | none => chunkSize
  | some stop => if stop = 0 then chunkSize else min (stop - offset) chunkSize

/-- `BluestoreDevice.read`: the chunk, and whether it is shorter than asked for. -/
def deviceRead (looks : ℕ → Store) (chunkSize : ℕ) (o : Object) (offset : ℕ) (stop : Option ℕ)
    (n : ℕ) : Reading (Bytes × Bool) :=
  let size := readSize chunkSize offset stop
  let read := retried looks o offset size durations n
  ⟨read.result.map fun chunk => (chunk, decide (chunk.length ≠ size)), read.looks⟩

/-- The loop of `app_iter_range`: what it yields from an offset on, or the error
it ends with after that; `none` while the fuel does not do. -/
def iterate (looks : ℕ → Store) (chunkSize : ℕ) (o : Object) (stop : Option ℕ) :
    ℕ → ℕ → ℕ → Option (List Bytes × Except Error Unit)
  | 0, _, _ => none
  | fuel + 1, offset, n =>
      if stop.all (offset < ·) then
        let read := deviceRead looks chunkSize o offset stop n
        match read.result with
        | .error e => some ([], .error e)
        | .ok (chunk, eof) =>
            if chunk = [] then some ([], .ok ())
            else if eof then some ([chunk], .ok ())
            else
              (iterate looks chunkSize o stop fuel (offset + chunk.length) read.looks).map
                fun rest => (chunk :: rest.1, rest.2)
      else some ([], .ok ())

/-- `BluestoreDiskFileReader.app_iter_range`. -/
def appIterRange (looks : ℕ → Store) (chunkSize : ℕ) (o : Object) (start stop : Option ℕ)
    (fuel : ℕ) : Option (List Bytes × Except Error Unit) :=
  iterate looks chunkSize o stop fuel (start.getD 0) 0

/-- `body[start:stop]`. -/
def slice (body : Bytes) (start stop : Option ℕ) : Bytes :=
  (match stop with
    | none => body
    | some stop => body.take stop).drop (start.getD 0)

/-- The store has the Object's entry with these bytes, whenever it is looked at. -/
def Shown (looks : ℕ → Store) (o : Object) (body : Bytes) : Prop :=
  ∀ n, ∃ e k, looks n (address o.toStat) = some e ∧ e.data = body ∧ e.attrs = some k ∧ k.ts = o.ts

variable {looks : ℕ → Store} {o : Object} {body : Bytes} {chunkSize : ℕ}

theorem objectRead_eq (hactive : o.state = .active) (hshown : Shown looks o body) (n m : ℕ)
    {size : ℕ} (offset : ℕ) (hsize : 0 < size) :
    objectRead (looks n) (looks m) o offset size = .ok (extent body offset size) := by
  obtain ⟨e, -, hfirst, hdata, -, -⟩ := hshown n
  obtain ⟨e', k, hsecond, -, hattrs, hts⟩ := hshown m
  have hreq : o.require "read" [.active, .old] = .ok () := require_of_mem (by simp [hactive])
  have hcheck : check "read" (looks m) (address o.toStat) o.toStat true = .ok () := by
    simp [check, load, hsecond, hattrs, hts]
  have hread : storeRead body offset size = extent body offset size :=
    if_neg (by omega)
  unfold objectRead
  rw [hreq]
  change (if size = 0 then _ else _) = _
  rw [if_neg (by omega), hfirst, Option.isSome_some, hcheck, Option.map_some, Option.getD_some,
    hdata, hread]
  rfl

theorem deviceRead_eq (hactive : o.state = .active) (hshown : Shown looks o body) (n : ℕ)
    {offset : ℕ} {stop : Option ℕ} (hsize : 0 < readSize chunkSize offset stop) :
    (deviceRead looks chunkSize o offset stop n).result =
      .ok (extent body offset (readSize chunkSize offset stop),
        decide ((extent body offset (readSize chunkSize offset stop)).length ≠
          readSize chunkSize offset stop)) := by
  have hread := objectRead_eq hactive hshown n (n + 1) offset hsize
  unfold deviceRead retried durations
  simp only [hread]
  rfl

theorem readSize_pos {offset : ℕ} {stop : Option ℕ} (hchunk : 0 < chunkSize)
    (hstop : stop.all (offset < ·) = true) : 0 < readSize chunkSize offset stop := by
  unfold readSize
  cases stop with
  | none => exact hchunk
  | some stop =>
    have hlt : offset < stop := of_decide_eq_true hstop
    dsimp only
    split
    · exact hchunk
    · omega

theorem readSize_le (chunkSize offset : ℕ) (stop : Option ℕ) : readSize chunkSize offset stop ≤ chunkSize := by
  unfold readSize
  cases stop with
  | none => exact le_refl _
  | some stop =>
    dsimp only
    split
    · exact le_refl _
    · exact min_le_right _ _

theorem readSize_stop (chunkSize : ℕ) {offset stop : ℕ} (hlt : offset < stop) :
    offset + readSize chunkSize offset (some stop) ≤ stop := by
  unfold readSize
  dsimp only
  split
  · omega
  · have hle := min_le_left (stop - offset) chunkSize
    omega

/-- A read below the stop is the next piece of what is to be read. -/
theorem slice_split (chunkSize : ℕ) (body : Bytes) {offset : ℕ} {stop : Option ℕ}
    (hstop : stop.all (offset < ·) = true) :
    slice body (some offset) stop =
      extent body offset (readSize chunkSize offset stop) ++
        slice body (some (offset + readSize chunkSize offset stop)) stop := by
  unfold slice extent
  simp only [Option.getD_some]
  cases stop with
  | none => rw [← List.drop_drop, List.take_append_drop]
  | some stop =>
    have hlt : offset < stop := of_decide_eq_true hstop
    have hle := readSize_stop chunkSize hlt
    dsimp only
    have hpiece : (body.drop offset).take (readSize chunkSize offset (some stop)) =
        ((body.take stop).drop offset).take (readSize chunkSize offset (some stop)) := by
      rw [List.drop_take, List.take_take, min_eq_left (by omega)]
    rw [hpiece, ← List.drop_drop, List.take_append_drop]

theorem slice_past {offset : ℕ} (stop : Option ℕ) (h : body.length ≤ offset) :
    slice body (some offset) stop = [] := by
  unfold slice
  apply List.drop_eq_nil_of_le
  rw [Option.getD_some]
  cases stop with
  | none => exact h
  | some stop =>
    have hle := List.length_take_le' stop body
    dsimp only
    omega

theorem length_extent (body : Bytes) (offset size : ℕ) :
    (extent body offset size).length = min size (body.length - offset) := by
  unfold extent
  rw [List.length_take, List.length_drop]

/-- A chunk after a prefix is a longer prefix. -/
theorem extent_grows {data header : Bytes} (h : data <+: header) (size : ℕ) :
    data ++ extent header data.length size <+: header := by
  obtain ⟨rest, rfl⟩ := h
  unfold extent
  rw [List.drop_left]
  exact List.prefix_append_right_inj data |>.mpr (List.take_prefix size rest)

/-- A chunk shorter than it was asked for is the last. -/
theorem whole_extent {data header : Bytes} (h : data <+: header) {size : ℕ}
    (hshort : (extent header data.length size).length < size) :
    data ++ extent header data.length size = header := by
  obtain ⟨rest, rfl⟩ := h
  unfold extent at hshort ⊢
  rw [List.drop_left] at hshort ⊢
  rw [List.length_take] at hshort
  rw [List.take_of_length_le (by omega)]

/-- From any offset the loop ends, and yields the rest of the slice in pieces
that are not empty and no longer than a chunk. -/
theorem iterate_yields (hactive : o.state = .active) (hshown : Shown looks o body)
    (hchunk : 0 < chunkSize) (stop : Option ℕ) {fuel : ℕ} (offset n : ℕ)
    (hfuel : body.length - offset < fuel) :
    ∃ chunks, iterate looks chunkSize o stop fuel offset n = some (chunks, .ok ()) ∧
      chunks.flatten = slice body (some offset) stop ∧
      ∀ chunk ∈ chunks, chunk ≠ [] ∧ chunk.length ≤ chunkSize := by
  induction fuel generalizing offset n with
  | zero => omega
  | succ fuel ih =>
    unfold iterate
    split
    swap
    · -- the stop is reached
      rename_i hdone
      refine ⟨[], rfl, ?_, by simp⟩
      cases stop with
      | none => exact absurd rfl hdone
      | some stop =>
        have hle : stop ≤ offset := by simpa using hdone
        have hlen := List.length_take_le stop body
        unfold slice
        dsimp only
        rw [Option.getD_some, List.drop_eq_nil_of_le (by omega), List.flatten_nil]
    rename_i hstop
    have hsize := readSize_pos hchunk hstop
    have hbound := readSize_le chunkSize offset stop
    have hsplit := slice_split chunkSize body hstop
    have hlen := length_extent body offset (readSize chunkSize offset stop)
    dsimp only
    rw [deviceRead_eq hactive hshown n hsize]
    dsimp only
    split
    · -- nothing is there: the end of the object
      rename_i hempty
      rw [hempty, List.length_nil] at hlen
      exact ⟨[], rfl, (slice_past stop (by omega)).symm, by simp⟩
    rename_i hsome
    have hpiece : extent body offset (readSize chunkSize offset stop) ≠ [] ∧
        (extent body offset (readSize chunkSize offset stop)).length ≤ chunkSize :=
      ⟨hsome, by omega⟩
    split
    · -- a short read: nothing is left after it
      rename_i hshort
      have hshort := of_decide_eq_true hshort
      refine ⟨[_], rfl, ?_, fun chunk hmem => ?_⟩
      · rw [hsplit, slice_past stop (by omega)]
        simp
      · rw [List.mem_singleton.mp hmem]
        exact hpiece
    · rename_i hfull
      have hfull : (extent body offset (readSize chunkSize offset stop)).length =
          readSize chunkSize offset stop := by simpa using hfull
      obtain ⟨rest, hrest, hflat, hall⟩ := ih
        (offset + (extent body offset (readSize chunkSize offset stop)).length)
        (deviceRead looks chunkSize o offset stop n).looks (by omega)
      refine ⟨_ :: rest, by rw [hrest]; rfl, ?_, fun chunk hmem => ?_⟩
      · rw [List.flatten_cons, hflat, hfull, ← hsplit]
      · rcases List.mem_cons.mp hmem with rfl | hmem
        · exact hpiece
        · exact hall chunk hmem

/-- A range read ends, and yields the range. -/
theorem appIterRange_yields (hactive : o.state = .active) (hshown : Shown looks o body)
    (hchunk : 0 < chunkSize) (start stop : Option ℕ) {fuel : ℕ} (hfuel : body.length < fuel) :
    ∃ chunks, appIterRange looks chunkSize o start stop fuel = some (chunks, .ok ()) ∧
      chunks.flatten = slice body start stop ∧
      ∀ chunk ∈ chunks, chunk ≠ [] ∧ chunk.length ≤ chunkSize := by
  have hstart : slice body start stop = slice body (some (start.getD 0)) stop := rfl
  rw [hstart]
  exact iterate_yields hactive hshown hchunk stop (start.getD 0) 0 (by omega)

example : (appIterRange (fun _ a => if a = ordinary "n" then
      some ⟨[1, 2, 3, 4, 5], [], some ⟨7, false, false⟩⟩ else none) 2
    { name := "n", ts := 7, deleted := false, state := .active, back := 0, written := 0, done := none }
    (some 1) (some 9) 6).map Prod.fst = some [[2, 3], [4, 5]] := by decide

end Swiftacular.RangedReads
