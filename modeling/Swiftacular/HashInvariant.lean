import Mathlib.Algebra.Order.Group.Int
import Mathlib.Order.Basic
import Swiftacular.SuffixHashes

/-!
What a partition keeps while the calls of `get_hashes`, the changes and the
invalidations interleave. A hash that is held, in the file or by a call, was
right as of some count of changes; and as long as nothing else is written, the
suffix waits in `hashes.invalid` or nothing told since then is missed. The
time of a write marks it: times that are the same mean the same write.
-/
namespace Swiftacular.HashInvariant

open Function OrderedDicts SuffixHashes

variable {D H : Type*}

section Dictionaries

variable {h : Hashes H} {s k : Name} {v : Option H}

@[simp] theorem get_set : (h.set s v).get k = if k = s then some v else h.get k :=
  lookup_insert h.suffixes (s, v) k

theorem get_eq_none : h.get s = none ↔ s ∉ h.suffixes.map Prod.fst := by
  rw [Hashes.get, List.lookup_eq_none_iff, List.mem_map]
  constructor
  · rintro hall ⟨kv, hmem, rfl⟩
    have hne := hall kv hmem
    simp at hne
  · intro hnot kv hmem
    rw [bne_iff_ne]
    exact fun heq => hnot ⟨kv, hmem, heq.symm⟩

theorem get_setDefault :
    (h.setDefault s v).get k = if k = s then some ((h.get s).getD v) else h.get k := by
  unfold Hashes.setDefault
  split
  · rename_i hmem
    obtain ⟨old, hold⟩ := Option.ne_none_iff_exists'.mp fun hnone => get_eq_none.mp hnone hmem
    split
    · rename_i hk
      rw [hk, hold, Option.getD_some]
    · rfl
  · rename_i hnot
    have hnone := get_eq_none.mpr hnot
    simp only [Hashes.get, List.lookup_append, lookup_cons, List.lookup_nil] at hnone ⊢
    split
    · rename_i hk
      rw [hk, hnone, Option.none_or, Option.getD_none]
    · rw [Option.or_none]

theorem get_del : (h.del s).get k = if k = s then none else h.get k :=
  lookup_without h.suffixes s k

theorem get_mark (suffixes : List Name) :
    (mark h suffixes).get k = if k ∈ suffixes then some none else h.get k := by
  induction suffixes generalizing h with
  | nil => rfl
  | cons s rest ih =>
    change (mark (h.set s none) rest).get k = _
    rw [ih, get_set]
    by_cases hk : k ∈ rest
    · rw [if_pos hk, if_pos (List.mem_cons_of_mem _ hk)]
    · simp only [hk, if_false, List.mem_cons, or_false]

theorem get_listed (names : List Name) :
    (names.foldl (fun h suff => h.setDefault suff none) h).get k =
      if k ∈ names then some ((h.get k).getD none) else h.get k := by
  induction names generalizing h with
  | nil => rfl
  | cons s rest ih =>
    rw [List.foldl_cons, ih, get_setDefault]
    by_cases hk : k = s
    · subst hk
      by_cases hmem : k ∈ rest
      · rw [if_pos hmem, if_pos rfl, if_pos (List.mem_cons_self ..), Option.getD_some]
      · rw [if_neg hmem, if_pos rfl, if_pos (List.mem_cons_self ..)]
    · simp [hk]

end Dictionaries

section Keys

/-- Every key that is no other is a suffix, as `read_hashes` asks. -/
def Keyed (h : Hashes H) : Prop := ∀ kv ∈ h.suffixes, validSuffix kv.1 = true

variable {h : Hashes H} {s : Name} {v : Option H}

theorem keyed_iff : Keyed h ↔ ∀ k, h.get k ≠ none → validSuffix k = true := by
  constructor
  · intro hkeyed k hk
    have hmem : k ∈ h.suffixes.map Prod.fst := by_contra fun hnot => hk (get_eq_none.mpr hnot)
    obtain ⟨kv, hkv, rfl⟩ := List.mem_map.mp hmem
    exact hkeyed kv hkv
  · intro hall kv hkv
    exact hall kv.1 fun hnone => get_eq_none.mp hnone (List.mem_map.mpr ⟨kv, hkv, rfl⟩)

theorem Keyed.set (hh : Keyed h) (hs : validSuffix s = true) : Keyed (h.set s v) := by
  refine keyed_iff.mpr fun k hk => ?_
  rw [get_set] at hk
  split at hk
  · rename_i heq
    rwa [heq]
  · exact keyed_iff.mp hh k hk

theorem Keyed.del (hh : Keyed h) : Keyed (h.del s) :=
  fun kv hkv => hh kv (List.mem_filter.mp hkv).1

theorem Keyed.mark {suffixes : List Name} (hh : Keyed h)
    (hall : ∀ s ∈ suffixes, validSuffix s = true) : Keyed (mark h suffixes) := by
  refine keyed_iff.mpr fun k hk => ?_
  rw [get_mark] at hk
  split at hk
  · rename_i hmem
    exact hall k hmem
  · exact keyed_iff.mp hh k hk

theorem Keyed.listed {names : List Name} (hh : Keyed h)
    (hall : ∀ s ∈ names, validSuffix s = true) :
    Keyed (names.foldl (fun h suff => h.setDefault suff none) h) := by
  refine keyed_iff.mpr fun k hk => ?_
  rw [get_listed] at hk
  split at hk
  · rename_i hmem
    exact hall k hmem
  · exact keyed_iff.mp hh k hk

theorem readHashes_keyed (pickle : Pickle H) : Keyed (readHashes pickle) := by
  unfold readHashes
  split
  · exact fun kv hkv => absurd hkv List.not_mem_nil
  · exact fun kv hkv => absurd hkv List.not_mem_nil
  · split
    · rename_i hall
      exact List.all_eq_true.mp hall
    · exact fun kv hkv => absurd hkv List.not_mem_nil

/-- What is written is what is read, but for a bad key. -/
theorem readHashes_stamped (hh : Keyed h) (now : ℤ) :
    readHashes (.dict (h.stamped now)) = h.stamped now := by
  have hall : (h.suffixes.all fun kv => validSuffix kv.1) = true := List.all_eq_true.mpr hh
  simp only [readHashes, Hashes.stamped, hall, if_true, Option.getD_some]

theorem readHashes_valid (pickle : Pickle H) : (readHashes pickle).valid ≠ none := by
  unfold readHashes
  split
  · simp
  · simp
  · split <;> simp

theorem mark_valid (suffixes : List Name) : (mark h suffixes).valid = h.valid := by
  induction suffixes generalizing h with
  | nil => rfl
  | cons s rest ih => exact @ih (h.set s none)

theorem strip_suffix (hs : validSuffix s = true) : strip s = s := by
  have hdigit : (hexDigits.all fun c => !isSpace c) = true := by decide
  have hno : ∀ c ∈ s.chars, isSpace c = false := by
    intro c hc
    have hall := (Bool.and_eq_true_iff.mp hs).2
    have hmem := of_decide_eq_true (List.all_eq_true.mp hall c hc)
    simpa using List.all_eq_true.mp hdigit c hmem
  have hdrop : ∀ l : List Char, (∀ c ∈ l, isSpace c = false) → l.dropWhile isSpace = l := by
    intro l hl
    cases l with
    | nil => rfl
    | cons c rest => rw [List.dropWhile_cons_of_neg (by simp [hl c (by simp)])]
  rw [strip, hdrop s.chars hno, hdrop _ fun c hc => hno c (List.mem_reverse.mp hc),
    List.reverse_reverse]

theorem mem_named {lines : List Name} (hs : validSuffix s = true) (hmem : s ∈ lines) :
    s ∈ named lines :=
  List.mem_filter.mpr ⟨List.mem_map.mpr ⟨s, hmem, strip_suffix hs⟩, hs⟩

theorem named_append (left right : List Name) : named (left ++ right) = named left ++ named right := by
  simp only [named, List.map_append, List.filter_append]

theorem named_valid {lines : List Name} : ∀ s ∈ named lines, validSuffix s = true :=
  fun _ hs => (List.mem_filter.mp hs).2

end Keys

section Statements

variable (hasher : Hasher D H) (w : Partition D H)

/-- The time of the write that left the dictionary. -/
def stamp (h : Hashes H) : ℤ := h.updated.getD (-1)

/-- The call that holds the lock has written what the lines say. -/
def Clearing : Prop := ∃ id c, w.lock = some id ∧ w.calls id = some c ∧ c.stage.clearing = true

def Waits (s : Name) : Prop := s ∈ named w.lines ∧ ¬ Clearing w

/-- An entry is what it was when there were `asOf` changes of the suffix. -/
structure Dated (since asOf : ℕ) (s : Name) (e : Option (Option H)) : Prop where
  le : asOf ≤ w.changes s
  since : since ≤ asOf
  right : asOf = w.changes s → e.join = w.digestOf hasher s

/-- Where nothing was written since `orig`, what was told later waits. -/
def Covers (orig : ℤ) (s : Name) (asOf : ℕ) : Prop :=
  stamp (readHashes w.pickle) = orig → Waits w s ∨ w.told s ≤ asOf

/-- A dictionary made over `orig`. Only a suffix that has to be hashed has
nothing said of it, also not that it is absent. -/
structure Carried (since : Name → ℕ) (orig h : Hashes H) (asOf : Name → ℕ) : Prop where
  keyed : Keyed h
  stamp_le : stamp orig ≤ stamp (readHashes w.pickle)
  dated : ∀ s, validSuffix s = true → h.get s ≠ some none →
    Dated hasher w (since s) (asOf s) s (h.get s)
  covers : ∀ s, validSuffix s = true → h.get s ≠ some none → Covers w (stamp orig) s (asOf s)

/-- What a call holds at each of its stages. -/
def Vouches (c : Call H) : Stage H → Prop
  | .begins => True
  | .reads => True
  | .clears h asOf => h.valid = some true → Carried hasher w c.since h h asOf
  | .consolidated h asOf => h.valid = some true → Carried hasher w c.since h h asOf
  | .lists p =>
      Carried hasher w c.since p.orig p.hashes p.asOf ∨
        c.doListdir = true ∧ p.hashes.suffixes = [] ∧
          stamp p.orig ≤ stamp (readHashes w.pickle)
  | .goes p todo =>
      Carried hasher w c.since p.orig p.hashes p.asOf ∧ ∀ s ∈ todo, validSuffix s = true
  | .digests p s seen todo =>
      Carried hasher w c.since p.orig p.hashes p.asOf ∧
        (∀ k ∈ s :: todo, validSuffix k = true) ∧ seen ≤ w.changes s ∧ c.since s ≤ seen ∧
          Covers w (stamp p.orig) s seen
  | .returned suffixes asOf =>
      ∀ s, validSuffix s = true → suffixes.lookup s ≠ some none →
        Dated hasher w (c.since s) (asOf s) s (suffixes.lookup s)

structure Stands (id : ℕ) (c : Call H) : Prop where
  since : ∀ s, c.since s ≤ w.told s
  recalculate : ∀ s ∈ c.recalculate, validSuffix s = true
  lock : w.lock = some id ↔ c.stage.locked = true
  stage : Vouches hasher w c c.stage

/-- The invariant. A name of three characters in the partition is a suffix. -/
structure Holds : Prop where
  told_le : ∀ s, w.told s ≤ w.changes s
  names : ∀ s ∈ w.listdir, validSuffix s = true
  cached : (readHashes w.pickle).valid = some true →
    Carried hasher w (fun _ => 0) (readHashes w.pickle) (readHashes w.pickle) w.asOf
  held : ∀ id, w.lock = some id → w.calls id ≠ none
  calls : ∀ id c, w.calls id = some c → Stands hasher w id c

/-- Time goes on: nothing is taken back, and what a dictionary covers it covers. -/
structure Later (w w' : Partition D H) : Prop where
  changes_le : ∀ s, w.changes s ≤ w'.changes s
  steady : ∀ s, w'.changes s = w.changes s → w'.digestOf hasher s = w.digestOf hasher s
  told_le : ∀ s, w.told s ≤ w'.told s
  stamp_le : stamp (readHashes w.pickle) ≤ stamp (readHashes w'.pickle)
  covers : ∀ orig s n, validSuffix s = true → orig ≤ stamp (readHashes w.pickle) →
    Covers w orig s n → Covers w' orig s n

end Statements

section Frames

variable {hasher : Hasher D H} {w w' : Partition D H}

theorem Dated.later {since asOf : ℕ} {s : Name} {e : Option (Option H)}
    (h : Dated hasher w since asOf s e) (hl : Later hasher w w') :
    Dated hasher w' since asOf s e := by
  refine ⟨h.le.trans (hl.changes_le s), h.since, fun heq => ?_⟩
  have hsame : w'.changes s = w.changes s := by
    have hle := h.le
    have hmore := hl.changes_le s
    omega
  rw [hl.steady s hsame]
  exact h.right (heq.trans hsame)

theorem Carried.later {since : Name → ℕ} {orig h : Hashes H} {asOf : Name → ℕ}
    (hc : Carried hasher w since orig h asOf) (hl : Later hasher w w') :
    Carried hasher w' since orig h asOf where
  keyed := hc.keyed
  stamp_le := hc.stamp_le.trans hl.stamp_le
  dated s hs he := (hc.dated s hs he).later hl
  covers s hs he := hl.covers _ s _ hs hc.stamp_le (hc.covers s hs he)

theorem vouches_later {c : Call H} {stage : Stage H} (h : Vouches hasher w c stage)
    (hl : Later hasher w w') : Vouches hasher w' c stage := by
  cases stage with
  | begins => trivial
  | reads => trivial
  | clears => exact fun hvalid => (h hvalid).later hl
  | consolidated => exact fun hvalid => (h hvalid).later hl
  | lists p =>
    rcases h with hc | ⟨hlist, hnil, hle⟩
    · exact Or.inl (hc.later hl)
    · exact Or.inr ⟨hlist, hnil, hle.trans hl.stamp_le⟩
  | goes p todo => exact ⟨h.1.later hl, h.2⟩
  | digests p s seen todo =>
    obtain ⟨hc, htodo, hle, hsince, hcovers⟩ := h
    exact ⟨hc.later hl, htodo, hle.trans (hl.changes_le s), hsince,
      hl.covers _ s _ (htodo s (by simp)) hc.stamp_le hcovers⟩
  | returned => exact fun s hs he => (h s hs he).later hl

/-- Where nothing is written, it is enough that what waits goes on waiting. -/
theorem later_same (hdirs : w'.dirs = w.dirs) (hchanges : w'.changes = w.changes)
    (htold : w'.told = w.told) (hpickle : w'.pickle = w.pickle)
    (hwaits : ∀ s, Waits w s → Waits w' s) : Later hasher w w' where
  changes_le s := by rw [hchanges]
  steady s _ := by rw [Partition.digestOf, Partition.digestOf, hdirs]
  told_le s := by rw [htold]
  stamp_le := by rw [hpickle]
  covers orig s n _ _ hcovers := by
    intro hstamp
    rw [hpickle] at hstamp
    rw [htold]
    exact (hcovers hstamp).imp_left (hwaits s)

/-- A later write takes away what was covered over an earlier read. -/
theorem later_written (hdirs : w'.dirs = w.dirs) (hchanges : w'.changes = w.changes)
    (htold : w'.told = w.told)
    (hstamp : stamp (readHashes w.pickle) < stamp (readHashes w'.pickle)) :
    Later hasher w w' where
  changes_le s := by rw [hchanges]
  steady s _ := by rw [Partition.digestOf, Partition.digestOf, hdirs]
  told_le s := by rw [htold]
  stamp_le := hstamp.le
  covers orig s n _ hle _ hsame := absurd (hstamp.trans_eq hsame) (not_lt.mpr hle)

theorem clearing_enter {id : ℕ} {c : Call H} {stage : Stage H}
    (hcalls : w'.calls = w.calls)
    (hlock : ∀ other, other ≠ id → w'.lock = some other → w.lock = some other)
    (hstage : stage.clearing = false) (h : Clearing (w'.enter id c stage)) : Clearing w := by
  obtain ⟨other, d, hheld, hd, hclears⟩ := h
  by_cases heq : other = id
  · have hd : update w'.calls id (some { c with stage }) other = some d := hd
    rw [heq, update_self] at hd
    obtain rfl := Option.some.inj hd
    rw [hstage] at hclears
    contradiction
  · have hd : update w'.calls id (some { c with stage }) other = some d := hd
    rw [update_of_ne heq, hcalls] at hd
    exact ⟨other, d, hlock other heq hheld, hd, hclears⟩

/-- A step of one call that only moves it on, and may give or take the lock. -/
theorem later_enter {id : ℕ} {c : Call H} {stage : Stage H} {lock : Option ℕ}
    (hlock : ∀ other, other ≠ id → lock = some other → w.lock = some other)
    (hstage : stage.clearing = false) :
    Later hasher w ({ w with lock }.enter id c stage) :=
  later_same rfl rfl rfl rfl fun _ hs =>
    ⟨hs.1, fun hclears => hs.2 (@clearing_enter _ _ w { w with lock } _ _ _ rfl hlock hstage hclears)⟩

/-- One call moves, the others stand as they stood. -/
theorem holds_enter {id : ℕ} {c : Call H} {stage : Stage H} (hw : Holds hasher w)
    (hl : Later hasher w (w'.enter id c stage)) (hcalls : w'.calls = w.calls)
    (hlock : ∀ other, other ≠ id → (w'.lock = some other ↔ w.lock = some other))
    (htold : ∀ s, w'.told s ≤ w'.changes s) (hnames : w'.listdir = w.listdir)
    (hcached : (readHashes w'.pickle).valid = some true → Carried hasher (w'.enter id c stage)
      (fun _ => 0) (readHashes w'.pickle) (readHashes w'.pickle) w'.asOf)
    (hstands : Stands hasher (w'.enter id c stage) id { c with stage }) :
    Holds hasher (w'.enter id c stage) where
  told_le := htold
  names := by
    change ∀ s ∈ w'.listdir, _
    rw [hnames]
    exact hw.names
  cached := hcached
  held other hheld := by
    by_cases heq : other = id
    · simp only [Partition.enter, heq, update_self, ne_eq, reduceCtorEq, not_false_eq_true]
    · simp only [Partition.enter, update_of_ne heq, hcalls]
      exact hw.held other ((hlock other heq).mp hheld)
  calls other d hd := by
    by_cases heq : other = id
    · have hd : update w'.calls id (some { c with stage }) other = some d := hd
      rw [heq, update_self] at hd
      obtain rfl := Option.some.inj hd
      rwa [heq]
    · have hd : update w'.calls id (some { c with stage }) other = some d := hd
      rw [update_of_ne heq, hcalls] at hd
      have hold := hw.calls other d hd
      exact ⟨fun s => (hold.since s).trans (hl.told_le s), hold.recalculate,
        (hlock other heq).trans hold.lock, vouches_later hold.stage hl⟩

end Frames

end Swiftacular.HashInvariant
