import Mathlib.Data.List.Basic
import Mathlib.Data.Set.Basic
import Mathlib.Logic.Function.Basic

/-!
A store of entries changed by transactions, as an object store offers it.
An entry has bytes, a header blob and one record of attributes; an address
holds at most one entry. A change either happens or stops the process: a
rename onto an occupied address and an attribute or header written where
there is no entry stop it; removing or moving what is not there does nothing.
The addresses and the attribute record are parameters.
-/
namespace Swiftacular.EntryStore

open Function

abbrev Bytes := List UInt8

structure Entry (K : Type*) where
  data : Bytes
  header : Bytes
  attrs : Option K
  deriving DecidableEq

def Entry.blank {K : Type*} : Entry K := ⟨[], [], none⟩

/-- Bytes written at an offset; a gap before the offset reads as zeros. -/
def splice (data : Bytes) (offset : ℕ) (bytes : Bytes) : Bytes :=
  if bytes = [] then data
  else data.take offset ++ List.replicate (offset - data.length) 0 ++
    bytes ++ data.drop (offset + bytes.length)

/-- The part of the requested extent that lies below the end. -/
def extent (data : Bytes) (offset size : ℕ) : Bytes := (data.drop offset).take size

abbrev Store (A K : Type*) := A → Option (Entry K)

inductive Op (A K : Type*)
  | touch (a : A)
  | write (a : A) (offset : ℕ) (bytes : Bytes)
  | setattrs (a : A) (attrs : K)
  | setheader (a : A) (header : Bytes)
  | remove (a : A)
  | rename (source target : A)
  deriving DecidableEq

variable {A K : Type*} [DecidableEq A]

def Op.addresses : Op A K → List A
  | .touch a => [a]
  | .write a _ _ => [a]
  | .setattrs a _ => [a]
  | .setheader a _ => [a]
  | .remove a => [a]
  | .rename a b => [a, b]

/-- One change. `none` is a change that stops the process. -/
def apply (s : Store A K) : Op A K → Option (Store A K)
  | .touch a => some (update s a (some ((s a).getD Entry.blank)))
  | .write a offset bytes =>
      let e := (s a).getD Entry.blank
      some (update s a (some { e with data := splice e.data offset bytes }))
  | .setattrs a attrs => (s a).map fun e => update s a (some { e with attrs := some attrs })
  | .setheader a header => (s a).map fun e => update s a (some { e with header := header })
  | .remove a => some (update s a none)
  | .rename a b =>
      match s a, s b with
      | none, _ => some s
      | some _, some _ => none
      | some e, none => some (update (update s a none) b (some e))

def applyAll (s : Store A K) : List (Op A K) → Option (Store A K)
  | [] => some s
  | op :: rest => (apply s op).bind fun t => applyAll t rest

theorem splice_end (data bytes : Bytes) : splice data data.length bytes = data ++ bytes := by
  unfold splice
  split
  · rename_i h
    simp [h]
  · have hdrop : data.drop (data.length + bytes.length) = [] :=
      List.drop_eq_nil_of_le (by omega)
    simp [hdrop]

@[simp] theorem applyAll_nil (s : Store A K) : applyAll s [] = some s := rfl

@[simp] theorem applyAll_cons (s : Store A K) (op : Op A K) (rest : List (Op A K)) :
    applyAll s (op :: rest) = (apply s op).bind fun t => applyAll t rest := rfl

theorem applyAll_append (s : Store A K) (left right : List (Op A K)) :
    applyAll s (left ++ right) = (applyAll s left).bind fun t => applyAll t right := by
  induction left generalizing s with
  | nil => rfl
  | cons op rest ih =>
    simp only [List.cons_append, applyAll_cons]
    cases apply s op with
    | none => rfl
    | some t => exact ih t

theorem applyAll_append_some {s u : Store A K} {left right : List (Op A K)}
    (h : applyAll s (left ++ right) = some u) :
    ∃ t, applyAll s left = some t ∧ applyAll t right = some u := by
  rw [applyAll_append] at h
  exact Option.bind_eq_some_iff.mp h

/-- A change leaves every address it does not name alone. -/
theorem apply_other {s t : Store A K} {op : Op A K} (h : apply s op = some t)
    {x : A} (hx : x ∉ op.addresses) : t x = s x := by
  cases op with
  | touch a | remove a | write a offset bytes =>
    simp only [Op.addresses, List.mem_singleton] at hx
    simp only [apply, Option.some.injEq] at h
    rw [← h, update_of_ne hx]
  | setattrs a attrs | setheader a header =>
    simp only [Op.addresses, List.mem_singleton] at hx
    simp only [apply, Option.map_eq_some_iff] at h
    obtain ⟨e, -, rfl⟩ := h
    rw [update_of_ne hx]
  | rename a b =>
    simp only [Op.addresses, List.mem_cons, List.not_mem_nil, or_false, not_or] at hx
    simp only [apply] at h
    split at h
    · rw [Option.some.inj h]
    · contradiction
    · rw [← Option.some.inj h, update_of_ne hx.2, update_of_ne hx.1]

theorem applyAll_other {s t : Store A K} {ops : List (Op A K)} (h : applyAll s ops = some t)
    {x : A} (hx : ∀ op ∈ ops, x ∉ op.addresses) : t x = s x := by
  induction ops generalizing s with
  | nil => rw [Option.some.inj h]
  | cons op rest ih =>
    obtain ⟨u, hu, ht⟩ := Option.bind_eq_some_iff.mp h
    rw [ih ht fun o ho => hx o (List.mem_cons_of_mem _ ho)]
    exact apply_other hu (hx op (List.mem_cons_self ..))

/-- What a change does inside a set of addresses depends only on that set. -/
theorem apply_congr {s s' t : Store A K} {op : Op A K} {P : Set A}
    (hop : ∀ a ∈ op.addresses, a ∈ P) (hs : ∀ a ∈ P, s a = s' a) (h : apply s op = some t) :
    ∃ t', apply s' op = some t' ∧ ∀ a ∈ P, t a = t' a := by
  have hset : ∀ {u u' : Store A K} (_ : ∀ a ∈ P, u a = u' a) (b : A) (e : Option (Entry K)),
      ∀ a ∈ P, update u b e a = update u' b e a := by
    intro u u' hu b e a ha
    rw [update_apply, update_apply, hu a ha]
  cases op with
  | touch a | write a offset bytes =>
    have ha : s a = s' a := hs a (hop a (by simp [Op.addresses]))
    simp only [apply, Option.some.injEq] at h ⊢
    refine ⟨_, rfl, ?_⟩
    rw [← h, ha]
    exact hset hs a _
  | remove a =>
    simp only [apply, Option.some.injEq] at h ⊢
    exact ⟨_, rfl, h ▸ hset hs a none⟩
  | setattrs a attrs | setheader a header =>
    have ha : s a = s' a := hs a (hop a (by simp [Op.addresses]))
    simp only [apply, Option.map_eq_some_iff] at h ⊢
    obtain ⟨e, he, rfl⟩ := h
    exact ⟨_, ⟨e, ha ▸ he, rfl⟩, hset hs a _⟩
  | rename a b =>
    have ha : s a = s' a := hs a (hop a (by simp [Op.addresses]))
    have hb : s b = s' b := hs b (hop b (by simp [Op.addresses]))
    simp only [apply, ← ha, ← hb] at h ⊢
    split at h
    · exact ⟨_, rfl, Option.some.inj h ▸ hs⟩
    · contradiction
    · refine ⟨_, rfl, ?_⟩
      rw [← Option.some.inj h]
      exact hset (hset hs a none) b _

/-- Changes outside a set of addresses can be left out, as far as the set is concerned. -/
theorem applyAll_filter {P : Set A} [DecidablePred (· ∈ P)] {s s' t : Store A K}
    {ops : List (Op A K)} (inside : Op A K → Bool)
    (hin : ∀ op ∈ ops, inside op = true → ∀ a ∈ op.addresses, a ∈ P)
    (hout : ∀ op ∈ ops, inside op = false → ∀ a ∈ op.addresses, a ∉ P)
    (hs : ∀ a ∈ P, s a = s' a) (h : applyAll s ops = some t) :
    ∃ t', applyAll s' (ops.filter inside) = some t' ∧ ∀ a ∈ P, t a = t' a := by
  induction ops generalizing s s' with
  | nil => exact ⟨s', rfl, Option.some.inj h ▸ hs⟩
  | cons op rest ih =>
    obtain ⟨u, hu, ht⟩ := Option.bind_eq_some_iff.mp h
    have hin' := fun o ho => hin o (List.mem_cons_of_mem op ho)
    have hout' := fun o ho => hout o (List.mem_cons_of_mem op ho)
    cases hop : inside op with
    | true =>
      obtain ⟨u', hu', hagree⟩ := apply_congr (hin op (List.mem_cons_self ..) hop) hs hu
      obtain ⟨t', ht', hfinal⟩ := ih hin' hout' hagree ht
      refine ⟨t', ?_, hfinal⟩
      simp only [List.filter_cons_of_pos hop, applyAll_cons, hu', Option.bind_some, ht']
    | false =>
      have hagree : ∀ a ∈ P, u a = s' a := fun a ha =>
        (apply_other hu fun hmem => hout op (List.mem_cons_self ..) hop a hmem ha).trans (hs a ha)
      obtain ⟨t', ht', hfinal⟩ := ih hin' hout' hagree ht
      refine ⟨t', ?_, hfinal⟩
      simpa only [List.filter_cons_of_neg (by simp [hop] : ¬ inside op = true)] using ht'

end Swiftacular.EntryStore
