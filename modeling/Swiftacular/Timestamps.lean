import Mathlib.Data.Prod.Lex

/-!
Swift's Timestamp: a count of hundred-thousandths of a second and an offset
that orders what happened in the same tick. The engine is handed the tick
alone.
-/
namespace Swiftacular.Timestamps

structure Timestamp where
  tick : ℕ
  offset : ℕ

namespace Timestamp

def key (t : Timestamp) : ℕ ×ₗ ℕ := toLex (t.tick, t.offset)

theorem key_injective : Function.Injective key := by
  rintro ⟨a, b⟩ ⟨c, d⟩ h
  have hpair : (a, b) = (c, d) := toLex.injective h
  simpa using hpair

instance : LinearOrder Timestamp := LinearOrder.lift' key key_injective

instance : Inhabited Timestamp := ⟨⟨0, 0⟩⟩

/-- `Timestamp(0)`. -/
def zero : Timestamp := ⟨0, 0⟩

def raw (t : Timestamp) : ℕ := t.tick

theorem lt_iff (a b : Timestamp) :
    a < b ↔ a.tick < b.tick ∨ a.tick = b.tick ∧ a.offset < b.offset := by
  change key a < key b ↔ _
  simp [key, Prod.Lex.toLex_lt_toLex]

theorem lt_of_tick {a b : Timestamp} (h : a.tick < b.tick) : a < b :=
  (lt_iff a b).mpr (Or.inl h)

theorem tick_le {a b : Timestamp} (h : a ≤ b) : a.tick ≤ b.tick := by
  by_contra hn
  exact absurd (lt_of_tick (Nat.lt_of_not_le hn)) (not_lt.mpr h)

theorem zero_le (t : Timestamp) : zero ≤ t := by
  by_contra hn
  have h := (lt_iff t zero).mp (not_le.mp hn)
  simp [zero] at h

theorem pos_of_tick {t : Timestamp} (h : 0 < t.tick) : zero < t := lt_of_tick h

end Timestamp

end Swiftacular.Timestamps
