import Mathlib.Data.Nat.Notation
import Mathlib.Logic.Basic

/-!
Runs of a system that takes one action at a time. A step may be impossible. A
condition on the actions of a run is stated of each in the state it is taken
in, and what every step keeps a run keeps. A computation that can fail is over
at its first error.
-/
namespace Swiftacular.StepRuns

universe u

variable {S A : Type*} (step : S → A → Option S)

def run (s : S) : List A → Option S
  | [] => some s
  | a :: rest => (step s a).bind fun t => run t rest

/-- Every action of a run meets a condition in the state it is taken in. -/
def Along (P : S → A → Prop) (s : S) : List A → Prop
  | [] => True
  | a :: rest => P s a ∧ ∀ t, step s a = some t → Along P t rest

variable {step}

theorem run_cons_some {s t : S} {a : A} {rest : List A} (h : run step s (a :: rest) = some t) :
    ∃ u, step s a = some u ∧ run step u rest = some t := Option.bind_eq_some_iff.mp h

theorem run_append (s : S) (left right : List A) :
    run step s (left ++ right) = (run step s left).bind fun t => run step t right := by
  induction left generalizing s with
  | nil => rfl
  | cons a rest ih =>
    change (step s a).bind (fun t => run step t (rest ++ right)) =
      ((step s a).bind fun t => run step t rest).bind fun t => run step t right
    cases step s a with
    | none => rfl
    | some t => exact ih t

theorem run_concat (s : S) (actions : List A) (a : A) :
    run step s (actions ++ [a]) = (run step s actions).bind fun t => step t a := by
  rw [run_append]
  congr 1
  funext t
  exact Option.bind_fun_some (step t a)

theorem run_append_some {s t : S} {left right : List A} (h : run step s (left ++ right) = some t) :
    ∃ u, run step s left = some u ∧ run step u right = some t := by
  rw [run_append] at h
  exact Option.bind_eq_some_iff.mp h

theorem run_concat_some {s t : S} {actions : List A} {a : A}
    (h : run step s (actions ++ [a]) = some t) :
    ∃ u, run step s actions = some u ∧ step u a = some t := by
  rw [run_concat] at h
  exact Option.bind_eq_some_iff.mp h

/-- What every step keeps, a run keeps. -/
theorem along_keeps {P : S → A → Prop} {I : S → Prop}
    (hstep : ∀ s t a, I s → P s a → step s a = some t → I t) {s t : S} {actions : List A}
    (hs : I s) (halong : Along step P s actions) (hrun : run step s actions = some t) : I t := by
  induction actions generalizing s with
  | nil =>
    obtain rfl := Option.some.inj hrun
    exact hs
  | cons a rest ih =>
    obtain ⟨u, hu, hrest⟩ := run_cons_some hrun
    exact ih (hstep s u a hs halong.1 hu) (halong.2 u hu) hrest

theorem run_keeps {I : S → Prop} (hstep : ∀ s t a, I s → step s a = some t → I t) {s t : S}
    {actions : List A} (hs : I s) (hrun : run step s actions = some t) : I t := by
  induction actions generalizing s with
  | nil =>
    obtain rfl := Option.some.inj hrun
    exact hs
  | cons a rest ih =>
    obtain ⟨u, hu, hrest⟩ := run_cons_some hrun
    exact ih (hstep s u a hs hu) hrest

/-- One condition for another, where an invariant of the run is known. -/
theorem Along.imp {P Q : S → A → Prop} {I : S → Prop}
    (hstep : ∀ s t a, I s → step s a = some t → I t) (hpq : ∀ s a, I s → P s a → Q s a)
    {s : S} {actions : List A} (hs : I s) (h : Along step P s actions) :
    Along step Q s actions := by
  induction actions generalizing s with
  | nil => trivial
  | cons a rest ih => exact ⟨hpq s a hs h.1, fun t ht => ih (hstep s t a hs ht) (h.2 t ht)⟩

theorem along_and {P Q : S → A → Prop} {s : S} {actions : List A} (hP : Along step P s actions)
    (hQ : Along step Q s actions) : Along step (fun s a => P s a ∧ Q s a) s actions := by
  induction actions generalizing s with
  | nil => trivial
  | cons a rest ih => exact ⟨⟨hP.1, hQ.1⟩, fun t ht => ih (hP.2 t ht) (hQ.2 t ht)⟩

theorem along_append {P : S → A → Prop} {s : S} {left right : List A} :
    Along step P s (left ++ right) ↔
      Along step P s left ∧ ∀ t, run step s left = some t → Along step P t right := by
  induction left generalizing s with
  | nil => exact ⟨fun h => ⟨trivial, fun t ht => Option.some.inj ht ▸ h⟩, fun h => h.2 s rfl⟩
  | cons a rest ih =>
    constructor
    · rintro ⟨ha, hrest⟩
      refine ⟨⟨ha, fun t ht => (ih.mp (hrest t ht)).1⟩, fun u hu => ?_⟩
      obtain ⟨t, ht, hu⟩ := run_cons_some hu
      exact (ih.mp (hrest t ht)).2 u hu
    · rintro ⟨⟨ha, hrest⟩, hright⟩
      refine ⟨ha, fun t ht => ih.mpr ⟨hrest t ht, fun u hu => hright u ?_⟩⟩
      exact Option.bind_eq_some_iff.mpr ⟨t, ht, hu⟩

theorem Along.take {P : S → A → Prop} {s : S} {actions : List A} (h : Along step P s actions)
    (k : ℕ) : Along step P s (actions.take k) := by
  induction actions generalizing s k with
  | nil => rwa [List.take_nil]
  | cons a rest ih =>
    cases k with
    | zero => trivial
    | succ k => exact ⟨h.1, fun t ht => ih (h.2 t ht) k⟩

instance Along.decidable {P : S → A → Prop} [∀ s a, Decidable (P s a)] :
    ∀ s actions, Decidable (Along step P s actions)
  | _, [] => isTrue trivial
  | s, a :: rest =>
      match hstep : step s a with
      | none => decidable_of_iff (P s a)
          ⟨fun hp => ⟨hp, fun t ht => by rw [hstep] at ht; contradiction⟩, And.left⟩
      | some t =>
          have := Along.decidable (P := P) t rest
          decidable_of_iff (P s a ∧ Along step P t rest)
            ⟨fun h => ⟨h.1, fun u hu => Option.some.inj (hstep.symm.trans hu) ▸ h.2⟩,
              fun h => ⟨h.1, h.2 t hstep⟩⟩

/-- A computation succeeds with what its last part gives, if all of it succeeds. -/
theorem bind_ok {ε : Type*} {α β : Type u} {x : Except ε α} {f : α → Except ε β} {b : β} :
    (x >>= f) = .ok b ↔ ∃ a, x = .ok a ∧ f a = .ok b := by
  cases x with
  | error e => exact ⟨fun h => by contradiction, fun ⟨_, h, _⟩ => by contradiction⟩
  | ok a => exact ⟨fun h => ⟨a, rfl, h⟩, fun ⟨_, h, hf⟩ => by cases h; exact hf⟩

end Swiftacular.StepRuns
