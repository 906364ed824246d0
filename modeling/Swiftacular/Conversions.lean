import Mathlib.Data.List.Basic
import Mathlib.Data.List.TakeWhile

/-!
Numbers read from text as the C standard's `strtoull` and the C++ standard's
`stoull` read them, in base ten. Leading blanks and a sign belong to a number;
a minus wraps it around; what follows the digits is left alone, and how much
was read is reported. `whole` is a conversion that read everything.
-/
namespace Swiftacular.Conversions

/-- `isspace` in the C locale: the blank, and tab to carriage return. -/
def isSpace (c : Char) : Bool := c = ' ' || (9 ≤ c.toNat && c.toNat ≤ 13)

def magnitude (digits : List Char) : ℕ := digits.foldl (fun n c => 10 * n + (c.toNat - 48)) 0

/-- Whether there is a minus, and what follows the sign. -/
def signed : List Char → Bool × List Char
  | '-' :: rest => (true, rest)
  | '+' :: rest => (false, rest)
  | rest => (false, rest)

inductive Failed
  | invalidArgument | outOfRange
  deriving DecidableEq

/-- The value of `n`, negated in the type it is returned in. -/
def wrapped (negative : Bool) (n : ℕ) : UInt64 :=
  if negative then -UInt64.ofNat n else UInt64.ofNat n

/-- The number, and how many characters it takes. -/
def stoull (s : List Char) : Except Failed (UInt64 × ℕ) :=
  let (negative, rest) := signed (s.dropWhile isSpace)
  let digits := rest.takeWhile Char.isDigit
  if digits = [] then .error .invalidArgument
  else if 18446744073709551616 ≤ magnitude digits then .error .outOfRange
  else .ok (wrapped negative (magnitude digits), s.length - (rest.dropWhile Char.isDigit).length)

/-- The number a string is from its first character to its last. -/
def whole (s : List Char) : Option UInt64 :=
  match stoull s with
  | .ok (out, last) => if last = s.length then some out else none
  | .error _ => none

/-- The decimal digits of a number of 64 bits. -/
structure Spells (s : List Char) (n : ℕ) : Prop where
  nonempty : s ≠ []
  digits : ∀ c ∈ s, c.isDigit = true
  value : magnitude s = n
  bound : n < 18446744073709551616

/-- Blanks and a sign before the digits, and at least one of the two. -/
def Padded (s : List Char) (negative : Bool) (n : ℕ) : Prop :=
  ∃ blanks sign digits, s = blanks ++ sign ++ digits ∧ (∀ c ∈ blanks, isSpace c = true) ∧
    (sign = [] ∧ negative = false ∨ sign = ['+'] ∧ negative = false ∨
      sign = ['-'] ∧ negative = true) ∧ blanks ++ sign ≠ [] ∧ Spells digits n

theorem digit_not_space {c : Char} (h : c.isDigit = true) : isSpace c = false := by
  have hrange : 48 ≤ c.toNat ∧ c.toNat ≤ 57 := by
    simp only [Char.isDigit, Bool.and_eq_true, decide_eq_true_eq, ge_iff_le,
      UInt32.le_iff_toNat_le] at h
    exact h
  have hblank : c ≠ ' ' := by
    rintro rfl
    revert h
    decide
  simp only [isSpace, hblank, decide_false, Bool.false_or, Bool.and_eq_false_iff,
    decide_eq_false_iff_not]
  omega

theorem sign_not_digit : ('-'.isDigit = false ∧ '+'.isDigit = false) ∧
    isSpace '-' = false ∧ isSpace '+' = false := by decide

theorem signed_digits {s : List Char} (h : ∀ c ∈ s, c.isDigit = true) :
    signed s = (false, s) := by
  unfold signed
  split
  · have hminus := h '-' (List.mem_cons_self ..)
    rw [sign_not_digit.1.1] at hminus
    contradiction
  · have hplus := h '+' (List.mem_cons_self ..)
    rw [sign_not_digit.1.2] at hplus
    contradiction
  · rfl

theorem takeWhile_digits {s : List Char} (h : ∀ c ∈ s, c.isDigit = true) :
    s.takeWhile Char.isDigit = s ∧ s.dropWhile Char.isDigit = [] :=
  ⟨List.takeWhile_eq_self_iff.mpr h, List.dropWhile_eq_nil_iff.mpr h⟩

/-- A string is its sign and what follows. -/
theorem signed_split (s : List Char) : ∃ sign, s = sign ++ (signed s).2 ∧
    (sign = [] ∧ (signed s).1 = false ∨ sign = ['+'] ∧ (signed s).1 = false ∨
      sign = ['-'] ∧ (signed s).1 = true) := by
  unfold signed
  split
  · exact ⟨['-'], rfl, Or.inr (Or.inr ⟨rfl, rfl⟩)⟩
  · exact ⟨['+'], rfl, Or.inr (Or.inl ⟨rfl, rfl⟩)⟩
  · exact ⟨[], rfl, Or.inl ⟨rfl, rfl⟩⟩

theorem signed_append {sign digits : List Char} {negative : Bool}
    (hsign : sign = [] ∧ negative = false ∨ sign = ['+'] ∧ negative = false ∨
      sign = ['-'] ∧ negative = true) (hdigits : ∀ c ∈ digits, c.isDigit = true) :
    signed (sign ++ digits) = (negative, digits) := by
  rcases hsign with ⟨rfl, rfl⟩ | ⟨rfl, rfl⟩ | ⟨rfl, rfl⟩
  · exact signed_digits hdigits
  · rfl
  · rfl

/-- A whole number is blanks, a sign and digits. -/
theorem whole_parts {s : List Char} {m : UInt64} (h : whole s = some m) :
    ∃ blanks sign digits negative, s = blanks ++ sign ++ digits ∧
      (∀ c ∈ blanks, isSpace c = true) ∧
      (sign = [] ∧ negative = false ∨ sign = ['+'] ∧ negative = false ∨
        sign = ['-'] ∧ negative = true) ∧
      Spells digits (magnitude digits) ∧ m = wrapped negative (magnitude digits) := by
  have hblanks : s = s.takeWhile isSpace ++ s.dropWhile isSpace :=
    List.takeWhile_append_dropWhile.symm
  obtain ⟨sign, hsign, hcases⟩ := signed_split (s.dropWhile isSpace)
  unfold whole stoull at h
  dsimp only at h
  by_cases hnone : (signed (s.dropWhile isSpace)).2.takeWhile Char.isDigit = []
  · rw [if_pos hnone] at h
    contradiction
  rw [if_neg hnone] at h
  by_cases hrange : 18446744073709551616 ≤
      magnitude ((signed (s.dropWhile isSpace)).2.takeWhile Char.isDigit)
  · rw [if_pos hrange] at h
    contradiction
  rw [if_neg hrange] at h
  dsimp only at h
  split at h
  swap
  · contradiction
  rename_i hall
  -- nothing follows the digits
  have hrest : (signed (s.dropWhile isSpace)).2.dropWhile Char.isDigit = [] := by
    have hnil : s = [] → (signed (s.dropWhile isSpace)).2.takeWhile Char.isDigit = [] := by
      rintro rfl
      rfl
    have hpos : 0 < s.length := List.length_pos_iff.mpr fun hs => hnone (hnil hs)
    have hle : ((signed (s.dropWhile isSpace)).2.dropWhile Char.isDigit).length ≤ s.length := by
      have h1 := congrArg List.length hblanks
      have h2 := congrArg List.length hsign
      have h3 := List.length_dropWhile_le Char.isDigit (signed (s.dropWhile isSpace)).2
      simp only [List.length_append] at h1 h2
      omega
    exact List.length_eq_zero_iff.mp (by omega)
  have hdigits : ∀ c ∈ (signed (s.dropWhile isSpace)).2, c.isDigit = true :=
    List.dropWhile_eq_nil_iff.mp hrest
  have htake := (takeWhile_digits hdigits).1
  rw [htake] at hnone hrange h
  refine ⟨s.takeWhile isSpace, sign, (signed (s.dropWhile isSpace)).2,
    (signed (s.dropWhile isSpace)).1, ?_, ?_, hcases, ?_, (Option.some.inj h).symm⟩
  · rw [List.append_assoc, ← hsign]
    exact hblanks
  · exact fun c hc => List.mem_takeWhile_imp hc
  · exact ⟨hnone, hdigits, rfl, by omega⟩

/-- Blanks, a sign and digits are a whole number. -/
theorem whole_append {blanks sign digits : List Char} {negative : Bool} {n : ℕ}
    (hblanks : ∀ c ∈ blanks, isSpace c = true)
    (hsign : sign = [] ∧ negative = false ∨ sign = ['+'] ∧ negative = false ∨
      sign = ['-'] ∧ negative = true) (hn : Spells digits n) :
    whole (blanks ++ sign ++ digits) = some (wrapped negative n) := by
  have hstop : (sign ++ digits).dropWhile isSpace = sign ++ digits := by
    rcases hsign with ⟨rfl, -⟩ | ⟨rfl, -⟩ | ⟨rfl, -⟩
    · cases hdigits : digits with
      | nil => exact absurd hdigits hn.nonempty
      | cons c rest =>
        have hc := digit_not_space (hn.digits c (by rw [hdigits]; exact List.mem_cons_self ..))
        simp [hc]
    · simp [sign_not_digit.2.2]
    · simp [sign_not_digit.2.1]
  have hdrop : (blanks ++ sign ++ digits).dropWhile isSpace = sign ++ digits := by
    rw [List.append_assoc, List.dropWhile_append_of_pos hblanks, hstop]
  obtain ⟨htake, hrest⟩ := takeWhile_digits hn.digits
  have hrange : ¬ 18446744073709551616 ≤ n := Nat.not_le.mpr hn.bound
  unfold whole stoull
  simp only [hdrop, signed_append hsign hn.digits, htake, hrest, if_neg hn.nonempty,
    if_neg hrange, List.length_nil, Nat.sub_zero, if_true, hn.value]

/-- What is read to its end is digits alone, or padded. -/
theorem whole_iff {s : List Char} {m : UInt64} : whole s = some m ↔
    Spells s m.toNat ∨ ∃ negative n, Padded s negative n ∧ m = wrapped negative n := by
  constructor
  · intro h
    obtain ⟨blanks, sign, digits, negative, rfl, hblanks, hsign, hspells, hm⟩ := whole_parts h
    by_cases hpad : blanks ++ sign = []
    · left
      obtain ⟨rfl, rfl⟩ := List.append_eq_nil_iff.mp hpad
      have hneg : negative = false := by
        rcases hsign with ⟨-, h⟩ | ⟨h, -⟩ | ⟨h, -⟩
        · exact h
        · exact absurd h (List.cons_ne_nil _ _).symm
        · exact absurd h (List.cons_ne_nil _ _).symm
      have hnat : m.toNat = magnitude digits := by
        rw [hm, hneg]
        exact UInt64.toNat_ofNat_of_lt' hspells.bound
      rw [hnat]
      exact hspells
    · exact Or.inr ⟨negative, _, ⟨blanks, sign, digits, rfl, hblanks, hsign, hpad, hspells⟩, hm⟩
  · rintro (h | ⟨negative, n, ⟨blanks, sign, digits, rfl, hblanks, hsign, -, hspells⟩, rfl⟩)
    · have hall := @whole_append [] [] s false _ (fun _ hc => by contradiction)
        (Or.inl ⟨rfl, rfl⟩) h
      rw [List.nil_append, List.nil_append] at hall
      rw [hall]
      simp [wrapped]
    · exact whole_append hblanks hsign hspells

/-- Padding is not digits. -/
theorem padded_not_spells {s : List Char} {negative : Bool} {n : ℕ} (h : Padded s negative n)
    (m : ℕ) : ¬ Spells s m := by
  obtain ⟨blanks, sign, digits, rfl, hblanks, hsign, hpad, -⟩ := h
  intro hs
  cases blanks with
  | cons c rest =>
    have hspace := hblanks c (List.mem_cons_self ..)
    rw [digit_not_space (hs.digits c (by simp))] at hspace
    contradiction
  | nil =>
    rcases hsign with ⟨rfl, -⟩ | ⟨rfl, -⟩ | ⟨rfl, -⟩
    · exact hpad rfl
    · have hplus := hs.digits '+' (by simp)
      rw [sign_not_digit.1.2] at hplus
      exact Bool.false_ne_true hplus
    · have hminus := hs.digits '-' (by simp)
      rw [sign_not_digit.1.1] at hminus
      exact Bool.false_ne_true hminus

end Swiftacular.Conversions
