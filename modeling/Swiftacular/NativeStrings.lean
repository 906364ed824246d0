import Mathlib.Data.List.Basic
import Mathlib.Data.Nat.Notation

/-!
Python's strings, and the bytes they are encoded to and decoded from: `utf8`
with `surrogateescape`, and `latin1`. A code point is a Unicode scalar value
or a surrogate; a byte that is no part of well-formed UTF-8 is decoded to the
surrogate U+DC00 above it, and encoded back from there.
-/
namespace Swiftacular.NativeStrings

/-- `surrogate n` is U+D800 + `n`. -/
inductive CodePoint
  | scalar (c : Char)
  | surrogate (n : Fin 2048)
  deriving DecidableEq

abbrev NativeString := List CodePoint

/-- The surrogate a byte is escaped to, U+DC00 above it. -/
def escaped (b : UInt8) : Fin 2048 :=
  ⟨1024 + b.toNat, by have hlt := b.toNat_lt; omega⟩

/-- Only what escapes a byte from 128 on is encoded. -/
def encodePoint : CodePoint → Option (List UInt8)
  | .scalar c => some (String.utf8EncodeChar c)
  | .surrogate n =>
      if 1152 ≤ n.val ∧ n.val < 1280 then some [UInt8.ofNat (n.val - 1024)] else none

def encode : NativeString → Option (List UInt8)
  | [] => some []
  | point :: rest =>
      match encodePoint point, encode rest with
      | some bytes, some more => some (bytes ++ more)
      | _, _ => none

/-- The scalar value a byte sequence starts with, if it does. -/
def firstChar (bytes : List UInt8) : Option Char := bytes.toByteArray.utf8DecodeChar? 0

def decode : List UInt8 → NativeString
  | [] => []
  | b :: rest =>
      match firstChar (b :: rest) with
      | some c => .scalar c :: decode (rest.drop (c.utf8Size - 1))
      | none => .surrogate (escaped b) :: decode rest
termination_by bytes => bytes.length
decreasing_by
  · simp only [List.length_drop, List.length_cons]
    omega
  · simp only [List.length_cons]
    omega

/-- `decode('latin1')`. -/
def latin1 (bytes : List UInt8) : NativeString := bytes.map fun b => .scalar (Char.ofNat b.toNat)

theorem firstChar_append (c : Char) (rest : List UInt8) :
    firstChar (String.utf8EncodeChar c ++ rest) = some c := by
  unfold firstChar
  rw [List.toByteArray_append]
  exact ByteArray.utf8DecodeChar?_utf8EncodeChar_append

/-- A sequence that starts with a scalar value starts with its encoding. -/
theorem firstChar_some {bytes : List UInt8} {c : Char} (h : firstChar bytes = some c) :
    bytes = String.utf8EncodeChar c ++ bytes.drop c.utf8Size := by
  obtain ⟨l, hl⟩ := ByteArray.exists_of_utf8DecodeChar?_eq_some h
  have hback : l = l.data.toList.toByteArray := by
    apply ByteArray.ext
    rw [List.data_toByteArray]
  rw [hback, ← List.toByteArray_append, List.toByteArray_inj] at hl
  rw [hl, List.drop_left' (String.length_utf8EncodeChar c)]

theorem decode_nil : decode [] = [] := by
  unfold decode
  rfl

theorem decode_char (c : Char) (rest : List UInt8) :
    decode (String.utf8EncodeChar c ++ rest) = .scalar c :: decode rest := by
  have hfirst := firstChar_append c rest
  have hlen := String.length_utf8EncodeChar c
  cases hbytes : String.utf8EncodeChar c with
  | nil =>
    rw [hbytes] at hlen
    have hpos := c.utf8Size_pos
    simp only [List.length_nil] at hlen
    omega
  | cons b more =>
    rw [hbytes] at hfirst hlen
    rw [List.cons_append] at hfirst ⊢
    rw [decode, hfirst]
    dsimp only
    rw [← hlen, List.length_cons, Nat.add_sub_cancel, List.drop_left]

theorem encodeChar_ascii {b : UInt8} (hb : b.toNat < 128) :
    String.utf8EncodeChar (Char.ofNat b.toNat) = [b] := by
  have hall : ∀ n < 128, (Char.ofNat n).val.toNat = n := by decide
  have hval := hall b.toNat hb
  unfold String.utf8EncodeChar
  dsimp only
  rw [if_pos (by omega), hval, UInt8.ofNat_toNat]

/-- A byte below 128 is a character by itself. -/
theorem firstChar_ascii {b : UInt8} (hb : b.toNat < 128) (rest : List UInt8) :
    firstChar (b :: rest) = some (Char.ofNat b.toNat) := by
  have happend := firstChar_append (Char.ofNat b.toNat) rest
  rwa [encodeChar_ascii hb] at happend

theorem encode_append_char {s : NativeString} {bytes : List UInt8} (c : Char)
    (h : encode s = some bytes) :
    encode (.scalar c :: s) = some (String.utf8EncodeChar c ++ bytes) := by
  simp only [encode, encodePoint, h]

/-- A byte that is no part of UTF-8 is encoded back from its surrogate. -/
theorem encodePoint_escaped {b : UInt8} (hb : 128 ≤ b.toNat) :
    encodePoint (.surrogate (escaped b)) = some [b] := by
  have hlt := b.toNat_lt
  unfold encodePoint escaped
  dsimp only
  rw [if_pos (by omega), Nat.add_sub_cancel_left, UInt8.ofNat_toNat]

/-- What bytes are decoded to is encoded to them again. -/
theorem encode_decode (bytes : List UInt8) : encode (decode bytes) = some bytes := by
  fun_induction decode bytes with
  | case1 => rfl
  | case2 b rest c hfirst ih =>
    have hdrop : (b :: rest).drop c.utf8Size = rest.drop (c.utf8Size - 1) := by
      have hpos := c.utf8Size_pos
      rw [← Nat.sub_add_cancel hpos, List.drop_succ_cons, Nat.sub_add_cancel hpos]
    rw [encode_append_char c ih, ← hdrop, ← firstChar_some hfirst]
  | case3 b rest hfirst ih =>
    have hb : 128 ≤ b.toNat := by
      by_contra hlt
      rw [firstChar_ascii (by omega)] at hfirst
      contradiction
    simp only [encode, encodePoint_escaped hb, ih]
    rfl

theorem decode_injective {a b : List UInt8} (h : decode a = decode b) : a = b := by
  have ha := encode_decode a
  rw [h, encode_decode b] at ha
  exact (Option.some.inj ha).symm

/-- Text without surrogates is decoded from its encoding. -/
theorem decode_encode {s : NativeString} {bytes : List UInt8}
    (hs : ∀ point ∈ s, ∃ c, point = .scalar c) (h : encode s = some bytes) : decode bytes = s := by
  induction s generalizing bytes with
  | nil =>
    obtain rfl := Option.some.inj h
    exact decode_nil
  | cons point rest ih =>
    obtain ⟨c, rfl⟩ := hs point (List.mem_cons_self ..)
    cases hrest : encode rest with
    | none => simp [encode, encodePoint, hrest] at h
    | some more =>
      rw [encode_append_char c hrest] at h
      obtain rfl := Option.some.inj h
      rw [decode_char, ih (fun p hp => hs p (List.mem_cons_of_mem _ hp)) hrest]

/-- Where every byte is below 128, both decodings agree. -/
theorem decode_ascii {bytes : List UInt8} (h : ∀ b ∈ bytes, b.toNat < 128) :
    decode bytes = latin1 bytes := by
  induction bytes with
  | nil => exact decode_nil
  | cons b rest ih =>
    have hb := h b (List.mem_cons_self ..)
    have hchar := decode_char (Char.ofNat b.toNat) rest
    rw [encodeChar_ascii hb] at hchar
    rw [show b :: rest = [b] ++ rest from rfl, hchar, ih fun c hc => h c (List.mem_cons_of_mem _ hc)]
    rfl

/-! Text of which both decodings are the same. -/

def AsciiBytes (bytes : List UInt8) : Prop := ∀ b ∈ bytes, b.toNat < 128

def AsciiText (s : NativeString) : Prop :=
  ∀ point ∈ s, ∃ c : Char, point = .scalar c ∧ c.toNat < 128

theorem toNat_latin1 (b : UInt8) : (Char.ofNat b.toNat).toNat = b.toNat := by
  have hall : ∀ n < 256, (Char.ofNat n).toNat = n := by decide +kernel
  exact hall b.toNat b.toNat_lt

theorem latin1_injective : Function.Injective latin1 := by
  refine List.map_injective_iff.mpr fun a b h => ?_
  have hval := congrArg Char.toNat (CodePoint.scalar.inj h)
  rw [toNat_latin1, toNat_latin1] at hval
  exact UInt8.toNat_inj.mp hval

theorem latin1_scalars (bytes : List UInt8) : ∀ point ∈ latin1 bytes, ∃ c, point = .scalar c := by
  intro point hmem
  obtain ⟨b, -, rfl⟩ := List.mem_map.mp hmem
  exact ⟨_, rfl⟩

theorem asciiText_latin1 {bytes : List UInt8} : AsciiText (latin1 bytes) ↔ AsciiBytes bytes := by
  constructor
  · intro h b hb
    obtain ⟨c, hc, hlt⟩ := h _ (List.mem_map.mpr ⟨b, hb, rfl⟩)
    rwa [← CodePoint.scalar.inj hc, toNat_latin1] at hlt
  · intro h point hmem
    obtain ⟨b, hb, rfl⟩ := List.mem_map.mp hmem
    exact ⟨_, rfl, (toNat_latin1 b).symm ▸ h b hb⟩

theorem encode_ascii {s : NativeString} (hs : AsciiText s) :
    ∃ bytes, encode s = some bytes ∧ latin1 bytes = s := by
  induction s with
  | nil => exact ⟨[], rfl, rfl⟩
  | cons point rest ih =>
    obtain ⟨c, rfl, hc⟩ := hs point (List.mem_cons_self ..)
    obtain ⟨more, hmore, hback⟩ := ih fun p hp => hs p (List.mem_cons_of_mem _ hp)
    have hbyte : (UInt8.ofNat c.toNat).toNat = c.toNat := by
      rw [UInt8.toNat_ofNat']
      omega
    have hchar : Char.ofNat (UInt8.ofNat c.toNat).toNat = c := by rw [hbyte, Char.ofNat_toNat]
    have hone : String.utf8EncodeChar c = [UInt8.ofNat c.toNat] := by
      have h := encodeChar_ascii (hbyte.symm ▸ hc : (UInt8.ofNat c.toNat).toNat < 128)
      rwa [hchar] at h
    refine ⟨UInt8.ofNat c.toNat :: more, ?_, ?_⟩
    · rw [encode_append_char c hmore, hone]
      rfl
    · unfold latin1 at hback ⊢
      rw [List.map_cons, hchar, hback]

/-- From a byte of 128 on, encoding what `latin1` makes of bytes is longer. -/
theorem encode_latin1_length {bytes out : List UInt8} (h : encode (latin1 bytes) = some out) :
    bytes.length ≤ out.length ∧ (out.length = bytes.length → AsciiBytes bytes) := by
  induction bytes generalizing out with
  | nil => exact ⟨Nat.zero_le _, fun _ b hb => absurd hb List.not_mem_nil⟩
  | cons b rest ih =>
    cases hrest : encode (latin1 rest) with
    | none =>
      unfold latin1 at h hrest
      simp only [List.map_cons, encode, encodePoint, hrest] at h
      contradiction
    | some more =>
      have hcons : encode (latin1 (b :: rest)) =
          some (String.utf8EncodeChar (Char.ofNat b.toNat) ++ more) := encode_append_char _ hrest
      obtain rfl := Option.some.inj (hcons.symm.trans h)
      obtain ⟨hle, hall⟩ := ih hrest
      have hpos := (Char.ofNat b.toNat).utf8Size_pos
      rw [List.length_append, String.length_utf8EncodeChar, List.length_cons]
      refine ⟨by omega, fun hlen => ?_⟩
      have hone : (Char.ofNat b.toNat).utf8Size = 1 := by omega
      have hb : (Char.ofNat b.toNat).toNat ≤ 127 :=
        UInt32.le_iff_toNat_le.mp (Char.utf8Size_eq_one_iff.mp hone)
      rw [toNat_latin1] at hb
      intro a ha
      rcases List.mem_cons.mp ha with rfl | ha
      · omega
      · exact hall (by omega) a ha

/-- `latin1` gives back a text from its encoding if all of it is below 128. -/
theorem latin1_eq_iff {s : NativeString} {bytes : List UInt8} (h : encode s = some bytes) :
    latin1 bytes = s ↔ AsciiText s := by
  constructor
  · rintro rfl
    exact asciiText_latin1.mpr ((encode_latin1_length h).2 rfl)
  · intro hs
    obtain ⟨bytes', hbytes, hback⟩ := encode_ascii hs
    obtain rfl := Option.some.inj (hbytes.symm.trans h)
    exact hback

theorem encode_latin1_grows {bytes out : List UInt8} (h : encode (latin1 bytes) = some out)
    (hbytes : ¬ AsciiBytes bytes) : bytes.length < out.length ∧ ¬ AsciiBytes out := by
  obtain ⟨hle, hall⟩ := encode_latin1_length h
  refine ⟨Nat.lt_of_le_of_ne hle fun hlen => hbytes (hall hlen.symm), fun hout => hbytes ?_⟩
  have hback := decode_encode (latin1_scalars bytes) h
  rw [decode_ascii hout] at hback
  rwa [← latin1_injective hback]

end Swiftacular.NativeStrings
