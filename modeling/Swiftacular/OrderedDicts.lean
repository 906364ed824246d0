import Mathlib.Data.List.Induction
import Mathlib.Data.List.Nodup
import Mathlib.Data.Nat.Notation

/-!
Dictionaries that keep their keys in the order they came in, as lists of
pairs. A key that is given again keeps its place and takes the new value, so
what a dictionary made of pairs says of a key is what was said of it last.
-/
namespace Swiftacular.OrderedDicts

variable {K V K' V' A : Type*} [DecidableEq K] [DecidableEq K']

def insert (d : List (K × V)) (kv : K × V) : List (K × V) :=
  if kv.1 ∈ d.map Prod.fst then d.map fun old => if old.1 = kv.1 then (old.1, kv.2) else old
  else d ++ [kv]

/-- The dictionary of pairs that are given one after the other. -/
def dictOf (items : List (K × V)) : List (K × V) := items.foldl insert []

/-- Equality of dictionaries, which does not ask in which order they were filled. -/
def Same (d d' : List (K × V)) : Prop := ∀ k, d.lookup k = d'.lookup k

/-- The value a key is given last. -/
def last (items : List (K × V)) (k : K) : Option V := items.reverse.lookup k

theorem dictOf_concat (items : List (K × V)) (kv : K × V) :
    dictOf (items ++ [kv]) = insert (dictOf items) kv := by
  simp only [dictOf, List.foldl_append, List.foldl_cons, List.foldl_nil]

theorem lookup_cons (kv : K × V) (d : List (K × V)) (k : K) :
    (kv :: d).lookup k = if k = kv.1 then some kv.2 else d.lookup k := by
  rw [List.lookup_cons]
  by_cases hk : k = kv.1
  · rw [beq_iff_eq.mpr hk, if_pos hk]
  · rw [beq_false_of_ne hk, if_neg hk]

theorem last_concat (items : List (K × V)) (kv : K × V) (k : K) :
    last (items ++ [kv]) k = if k = kv.1 then some kv.2 else last items k := by
  unfold last
  rw [List.reverse_append, List.reverse_singleton, List.singleton_append, lookup_cons]

theorem lookup_replaced {d : List (K × V)} {kv : K × V} (hmem : kv.1 ∈ d.map Prod.fst) :
    (d.map fun old => if old.1 = kv.1 then (old.1, kv.2) else old).lookup kv.1 = some kv.2 := by
  induction d with
  | nil => contradiction
  | cons old rest ih =>
    rw [List.map_cons, lookup_cons]
    by_cases hold : old.1 = kv.1
    · rw [if_pos hold, if_pos hold.symm]
    · rw [if_neg hold, if_neg (Ne.symm hold)]
      exact ih ((List.mem_cons.mp hmem).resolve_left (Ne.symm hold))

theorem lookup_replaced_other (d : List (K × V)) {kv : K × V} {k : K} (hk : k ≠ kv.1) :
    (d.map fun old => if old.1 = kv.1 then (old.1, kv.2) else old).lookup k = d.lookup k := by
  induction d with
  | nil => rfl
  | cons old rest ih =>
    rw [List.map_cons, lookup_cons, lookup_cons, ih]
    by_cases hold : old.1 = kv.1
    · rw [if_pos hold, if_neg (hold.symm ▸ hk), if_neg (hold.symm ▸ hk)]
    · rw [if_neg hold]

theorem lookup_insert (d : List (K × V)) (kv : K × V) (k : K) :
    (insert d kv).lookup k = if k = kv.1 then some kv.2 else d.lookup k := by
  unfold insert
  split
  · rename_i hmem
    by_cases hk : k = kv.1
    · rw [hk, if_pos rfl, lookup_replaced hmem]
    · rw [if_neg hk, lookup_replaced_other d hk]
  · rename_i hmem
    rw [List.lookup_append, lookup_cons, List.lookup_nil]
    by_cases hk : k = kv.1
    · have hnone : d.lookup k = none := by
        rw [List.lookup_eq_none_iff]
        intro a ha
        rw [bne_iff_ne]
        exact fun h => hmem (List.mem_map.mpr ⟨a, ha, h.symm.trans hk⟩)
      rw [hnone, if_pos hk, Option.none_or]
    · rw [if_neg hk, if_neg hk, Option.or_none]

theorem lookup_dictOf (items : List (K × V)) (k : K) : (dictOf items).lookup k = last items k := by
  induction items using List.reverseRecOn with
  | nil => rfl
  | append_singleton items kv ih => rw [dictOf_concat, lookup_insert, last_concat, ih]

theorem lookup_without (d : List (K × V)) (old k : K) :
    (d.filter fun kv => kv.1 ≠ old).lookup k = if k = old then none else d.lookup k := by
  induction d with
  | nil => split <;> rfl
  | cons kv rest ih =>
    rw [List.filter_cons, lookup_cons]
    by_cases hkv : kv.1 = old
    · rw [if_neg (by simpa using hkv), ih]
      by_cases hk : k = old
      · rw [if_pos hk, if_pos hk]
      · rw [if_neg hk, if_neg hk, if_neg fun heq => hk (heq.trans hkv)]
    · rw [if_pos (by simpa using hkv), lookup_cons, ih]
      by_cases hk : k = kv.1
      · rw [if_pos hk, if_neg fun heq => hkv (hk.symm.trans heq), if_pos hk]
      · rw [if_neg hk, if_neg hk]

theorem nodup_insert {d : List (K × V)} (h : (d.map Prod.fst).Nodup) (kv : K × V) :
    ((insert d kv).map Prod.fst).Nodup := by
  unfold insert
  split
  · have hkeys : (d.map fun old => if old.1 = kv.1 then (old.1, kv.2) else old).map Prod.fst =
        d.map Prod.fst := by
      rw [List.map_map]
      refine List.map_congr_left fun old _ => ?_
      simp only [Function.comp_apply]
      split <;> rfl
    rwa [hkeys]
  · rename_i hmem
    rw [List.map_append, List.nodup_append]
    refine ⟨h, List.nodup_singleton _, ?_⟩
    rintro a ha b hb rfl
    obtain rfl := List.mem_singleton.mp hb
    exact hmem ha

theorem nodup_dictOf (items : List (K × V)) : ((dictOf items).map Prod.fst).Nodup := by
  induction items using List.reverseRecOn with
  | nil => exact List.nodup_nil
  | append_singleton items kv ih =>
    rw [dictOf_concat]
    exact nodup_insert ih kv

theorem mem_of_lookup {d : List (K × V)} {k : K} {v : V} (h : d.lookup k = some v) :
    (k, v) ∈ d := by
  obtain ⟨l, l', rfl, -⟩ := List.lookup_eq_some_iff.mp h
  simp

/-- Where no key comes twice, what is in a dictionary is what is found there. -/
theorem lookup_eq_some_iff_mem {d : List (K × V)} (hd : (d.map Prod.fst).Nodup) {k : K} {v : V} :
    d.lookup k = some v ↔ (k, v) ∈ d := by
  refine ⟨mem_of_lookup, fun hmem => ?_⟩
  induction d with
  | nil => contradiction
  | cons old rest ih =>
    rw [List.map_cons, List.nodup_cons] at hd
    rw [List.lookup_cons]
    rcases List.mem_cons.mp hmem with rfl | hrest
    · simp
    · have hne : k ≠ old.1 := by
        rintro rfl
        exact hd.1 (List.mem_map.mpr ⟨_, hrest, rfl⟩)
      rw [beq_false_of_ne hne]
      exact ih hd.2 hrest

theorem mem_dictOf {items : List (K × V)} {k : K} {v : V} :
    (k, v) ∈ dictOf items ↔ last items k = some v := by
  rw [← lookup_eq_some_iff_mem (nodup_dictOf items), lookup_dictOf]

theorem same_iff_mem {d d' : List (K × V)} (hd : (d.map Prod.fst).Nodup)
    (hd' : (d'.map Prod.fst).Nodup) : Same d d' ↔ ∀ k v, (k, v) ∈ d ↔ (k, v) ∈ d' := by
  constructor
  · intro h k v
    rw [← lookup_eq_some_iff_mem hd, ← lookup_eq_some_iff_mem hd', h k]
  · intro h k
    refine Option.ext fun v => ?_
    rw [lookup_eq_some_iff_mem hd, lookup_eq_some_iff_mem hd']
    exact h k v

/-- Where no key is given twice, nothing is replaced. -/
theorem dictOf_nodup {items : List (K × V)} (h : (items.map Prod.fst).Nodup) :
    dictOf items = items := by
  induction items using List.reverseRecOn with
  | nil => rfl
  | append_singleton items kv ih =>
    rw [List.map_append, List.nodup_append] at h
    rw [dictOf_concat, ih h.1, insert, if_neg]
    exact fun hmem => h.2.2 _ hmem _ (List.mem_cons_self ..) rfl

/-- Two lists of pairs made of one, in which the same pairs are of the keys
`k` and `k'`, agree on which of them is last. -/
theorem last_pair {items : List A} {f : A → K × V} {g : A → K' × V'} {k : K} {k' : K'}
    (hkeys : ∀ a ∈ items, (f a).1 = k ↔ (g a).1 = k') :
    (last (items.map f) k = none ∧ last (items.map g) k' = none) ∨
      ∃ a ∈ items, (f a).1 = k ∧ last (items.map f) k = some (f a).2 ∧
        last (items.map g) k' = some (g a).2 := by
  induction items using List.reverseRecOn with
  | nil => exact Or.inl ⟨rfl, rfl⟩
  | append_singleton items a ih =>
    rw [List.map_append, List.map_append, List.map_singleton, List.map_singleton, last_concat,
      last_concat]
    by_cases hk : (f a).1 = k
    · refine Or.inr ⟨a, by simp, hk, ?_, ?_⟩
      · rw [if_pos hk.symm]
      · rw [if_pos ((hkeys a (by simp)).mp hk).symm]
    · have hk' : ¬ (g a).1 = k' := fun h => hk ((hkeys a (by simp)).mpr h)
      rw [if_neg (Ne.symm hk), if_neg (Ne.symm hk')]
      rcases ih fun b hb => hkeys b (List.mem_append_left _ hb) with hnone | ⟨b, hb, hlast⟩
      · exact Or.inl hnone
      · exact Or.inr ⟨b, List.mem_append_left _ hb, hlast⟩

theorem last_eq_some_mem {items : List (K × V)} {k : K} {v : V} (h : last items k = some v) :
    (k, v) ∈ items := List.mem_reverse.mp (mem_of_lookup h)

/-- A key that is given has a last value. -/
theorem last_isSome {items : List (K × V)} {kv : K × V} (h : kv ∈ items) :
    ∃ v, last items kv.1 = some v := by
  induction items using List.reverseRecOn with
  | nil => contradiction
  | append_singleton items a ih =>
    rw [last_concat]
    by_cases hk : kv.1 = a.1
    · exact ⟨a.2, if_pos hk⟩
    · have hmem : kv ∈ items := by
        rcases List.mem_append.mp h with hmem | hmem
        · exact hmem
        · exact absurd (congrArg Prod.fst (List.mem_singleton.mp hmem)) hk
      obtain ⟨v, hv⟩ := ih hmem
      exact ⟨v, (if_neg hk).trans hv⟩

end Swiftacular.OrderedDicts
