import Mathlib.Data.List.Induction
import Mathlib.Data.Nat.Notation

/-!
Lists laid over one another from their beginning on: each hides what it
reaches of the ones before it, and nothing is cut off. What is left at the end
is of whichever was longest.
-/
namespace Swiftacular.Piles

variable {γ : Type*}

def laid (top left : List γ) : List γ := top ++ left.drop top.length

/-- Each list lies over the ones before it. -/
def piled (lists : List (List γ)) : List γ := lists.foldl (fun left top => laid top left) []

@[simp] theorem piled_nil : piled ([] : List (List γ)) = [] := rfl

theorem piled_concat (lists : List (List γ)) (top : List γ) :
    piled (lists ++ [top]) = laid top (piled lists) := by
  simp only [piled, List.foldl_append, List.foldl_cons, List.foldl_nil]

theorem length_laid (top left : List γ) : (laid top left).length = max top.length left.length := by
  simp only [laid, List.length_append, List.length_drop]
  omega

theorem getElem?_laid (top left : List γ) (i : ℕ) :
    (laid top left)[i]? = top[i]?.or left[i]? := by
  unfold laid
  by_cases hi : i < top.length
  · rw [List.getElem?_append_left hi, List.getElem?_eq_getElem hi, Option.some_or]
  · have hle : top.length ≤ i := by omega
    rw [List.getElem?_append_right hle, List.getElem?_drop, Nat.add_sub_cancel' hle,
      List.getElem?_eq_none hle, Option.none_or]

theorem laid_nil (left : List γ) : laid [] left = left := rfl

/-- Up to a length that the top does not exceed, it is all there is to see
exactly if it reaches as far as the list under it does. -/
theorem take_laid {top left : List γ} {limit : ℕ} (htop : top.length ≤ limit) :
    (laid top left).take limit = top ↔ min left.length limit ≤ top.length := by
  have hsplit : (laid top left).take limit =
      top ++ (left.drop top.length).take (limit - top.length) := by
    unfold laid
    rw [List.take_append, List.take_of_length_le htop]
  rw [hsplit, List.append_right_eq_self, ← List.length_eq_zero_iff, List.length_take,
    List.length_drop]
  omega

/-- A list over one that is not longer is all there is. -/
theorem laid_eq_iff (top left : List γ) : laid top left = top ↔ left.length ≤ top.length := by
  constructor
  · intro h
    have hlen := congrArg List.length h
    rw [length_laid] at hlen
    omega
  · intro h
    rw [laid, List.drop_eq_nil_of_le h, List.append_nil]

/-- The pile is as long as its longest list. -/
theorem length_piled_le (lists : List (List γ)) (n : ℕ) :
    (piled lists).length ≤ n ↔ ∀ l ∈ lists, l.length ≤ n := by
  induction lists using List.reverseRecOn with
  | nil => simp
  | append_singleton lists top ih =>
    rw [piled_concat, length_laid, Nat.max_le, ih]
    simp only [List.mem_append, List.mem_singleton, or_imp, forall_and, forall_eq]
    exact and_comm

theorem mem_piled {lists : List (List γ)} {a : γ} (h : a ∈ piled lists) : ∃ l ∈ lists, a ∈ l := by
  induction lists using List.reverseRecOn with
  | nil => contradiction
  | append_singleton lists top ih =>
    rw [piled_concat] at h
    rcases List.mem_append.mp h with htop | hleft
    · exact ⟨top, List.mem_append_right _ (List.mem_singleton_self top), htop⟩
    · obtain ⟨l, hl, ha⟩ := ih (List.mem_of_mem_drop hleft)
      exact ⟨l, List.mem_append_left _ hl, ha⟩

end Swiftacular.Piles
