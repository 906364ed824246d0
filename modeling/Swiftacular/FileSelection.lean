import Swiftacular.OndiskFiles
import Mathlib.Data.List.TakeWhile

/-!
What the selection among a name's files keeps and what it makes obsolete.
Each stage only moves files to the obsolete ones; the newest `.data` or `.ts`
is chosen, and beside it stay the newest `.meta` and the one of the newest
content type. The order of the listing plays no part.
-/
namespace Swiftacular.FileSelection

open Timestamps MetadataModel OndiskFiles

variable {dir : Directory}

theorem newestFirst_perm (files : List File) : (newestFirst files).Perm files :=
  List.perm_insertionSort _ files

theorem newestFirst_pairwise (files : List File) :
    (newestFirst files).Pairwise fun a b => b.timestamp ≤ a.timestamp := by
  have htotal : Std.Total fun a b : File => b.timestamp ≤ a.timestamp :=
    ⟨fun a b => le_total b.timestamp a.timestamp⟩
  have htrans : IsTrans File fun a b => b.timestamp ≤ a.timestamp :=
    ⟨fun _ _ _ hab hbc => hbc.trans hab⟩
  exact List.pairwise_insertionSort _ files

variable (dir) in
theorem newestCtypeFirst_perm (files : List File) : (newestCtypeFirst dir files).Perm files :=
  List.perm_insertionSort _ files

/-- `f` has an older type than `b`, or the same in a file no newer. -/
def TypeLe (dir : Directory) (f b : File) : Prop :=
  ctypeOrZero dir f < ctypeOrZero dir b ∨
    ctypeOrZero dir f = ctypeOrZero dir b ∧ f.timestamp ≤ b.timestamp

theorem typeLe_refl (f : File) : TypeLe dir f f := Or.inr ⟨rfl, le_refl _⟩

theorem TypeLe.le {f b : File} (h : TypeLe dir f b) : ctypeOrZero dir f ≤ ctypeOrZero dir b := by
  rcases h with h | h
  · exact h.le
  · exact h.1.le

theorem orderedInsert_pairwise {a : File} {files : List File}
    (hs : files.Pairwise fun x y => TypeLe dir y x)
    (ha : ∀ f ∈ files, f.timestamp ≤ a.timestamp) :
    (files.orderedInsert (fun x y => ctypeOrZero dir y ≤ ctypeOrZero dir x) a).Pairwise
      fun x y => TypeLe dir y x := by
  induction files with
  | nil => simp
  | cons b rest ih =>
    obtain ⟨hb, hrest⟩ := List.pairwise_cons.mp hs
    rw [List.orderedInsert_cons]
    split
    · rename_i hle
      refine List.pairwise_cons.mpr ⟨fun f hf => ?_, hs⟩
      have hfb : ctypeOrZero dir f ≤ ctypeOrZero dir b := by
        rcases List.mem_cons.mp hf with rfl | hf
        · exact le_refl _
        · exact (hb f hf).le
      rcases (hfb.trans hle).lt_or_eq with hlt | heq
      · exact Or.inl hlt
      · exact Or.inr ⟨heq, ha f hf⟩
    · rename_i hnot
      have ih := ih hrest fun f hf => ha f (List.mem_cons_of_mem _ hf)
      refine List.pairwise_cons.mpr ⟨fun f hf => ?_, ih⟩
      rcases (List.mem_orderedInsert _).mp hf with rfl | hf
      · exact Or.inl (not_le.mp hnot)
      · exact hb f hf

variable (dir) in
/-- Sorting is stable: of files of one type timestamp the newer stays first. -/
theorem newestCtypeFirst_pairwise {files : List File}
    (hs : files.Pairwise fun a b => b.timestamp ≤ a.timestamp) :
    (newestCtypeFirst dir files).Pairwise fun a b => TypeLe dir b a := by
  induction files with
  | nil => exact List.Pairwise.nil
  | cons a rest ih =>
    obtain ⟨ha, hrest⟩ := List.pairwise_cons.mp hs
    refine orderedInsert_pairwise (ih hrest) fun f hf => ha f ?_
    exact (newestCtypeFirst_perm dir rest).mem_iff.mp hf

theorem splitList_append (files : List File) (condition : File → Bool) :
    (splitList files condition).1 ++ (splitList files condition).2 = files :=
  List.takeWhile_append_dropWhile

theorem byExtension_perm (files : List File) : (byExtension files).all.Perm files := by
  have hsplit : ∀ l : List File,
      ((l.filter fun f => f.filename.ext = .data) ++ (l.filter fun f => f.filename.ext = .posted) ++
        (l.filter fun f => f.filename.ext = .ts)).Perm l := by
    intro l
    induction l with
    | nil => exact List.Perm.refl _
    | cons f rest ih =>
      cases hext : f.filename.ext with
      | data => simpa [hext] using ih
      | posted =>
        simp only [hext, List.filter_cons, decide_true, decide_false, if_true, reduceCtorEq,
          Bool.false_eq_true, if_false, List.append_assoc, List.cons_append]
        exact List.perm_middle.trans ((List.append_assoc _ _ _ ▸ ih).cons f)
      | ts =>
        simp only [hext, List.filter_cons, decide_true, decide_false, if_true, reduceCtorEq,
          Bool.false_eq_true, if_false]
        exact List.perm_middle.trans (ih.cons f)
  simp only [Exts.all, byExtension, List.append_nil]
  exact (((newestFirst_perm _).append (newestFirst_perm _)).append (newestFirst_perm _)).trans
    (hsplit files)

theorem underTombstone_perm (e : Exts) : (underTombstone e).all.Perm e.all := by
  unfold underTombstone
  split
  · exact List.Perm.refl _
  rename_i newest older hts
  have hdata := splitList_append e.dataFiles fun f => f.timestamp > newest.timestamp
  have hmeta := splitList_append e.metaFiles fun f => f.timestamp > newest.timestamp
  rw [List.perm_iff_count]
  intro f
  simp only [Exts.all, hts, List.count_append, List.count_cons, List.count_nil, splitGt]
  have hd := congrArg (List.count f) hdata
  have hm := congrArg (List.count f) hmeta
  rw [List.count_append] at hd hm
  omega

theorem retainMeta_perm (e : Exts) : (retainMeta dir e).all.Perm e.all := by
  unfold retainMeta
  split
  · exact List.Perm.refl _
  rename_i first rest hmeta
  split
  · exact List.Perm.refl _
  rename_i second others hsorted
  have hperm := newestCtypeFirst_perm dir rest
  rw [List.perm_iff_count]
  intro f
  have hrest := List.perm_iff_count.mp hperm f
  rw [hsorted, List.count_cons] at hrest
  split
  · split <;>
    · simp only [Exts.all, hmeta, List.count_append, List.count_cons, List.count_nil]
      omega
  · simp only [Exts.all, hmeta, List.count_append, List.count_cons, List.count_nil]
    omega

theorem processOndiskFiles_perm (e : Exts) : (processOndiskFiles e).1.all.Perm e.all := by
  unfold processOndiskFiles
  split
  · exact List.Perm.refl _
  rename_i newest older hdata
  have hd := splitList_append e.dataFiles fun f => f.timestamp ≥ newest.timestamp
  have hm := splitList_append e.metaFiles fun f => f.timestamp > newest.timestamp
  have ht := splitList_append e.tsFiles fun f => f.timestamp > newest.timestamp
  rw [List.perm_iff_count]
  intro f
  have hd := congrArg (List.count f) hd
  have hm := congrArg (List.count f) hm
  have ht := congrArg (List.count f) ht
  rw [List.count_append] at hd hm ht
  simp only [Exts.all, List.count_append, splitGt, splitGte]
  omega

theorem survivors_perm (files : List File) : (survivors dir files).1.all.Perm files :=
  (processOndiskFiles_perm _).trans ((retainMeta_perm _).trans
    ((underTombstone_perm _).trans (byExtension_perm files)))

/-- The `.meta` files that stay of those later than the holder: the newest,
and with it the one of the newest type where that is newer. A type newer than
both can only be in a file of a type no newer than one that is not later. -/
inductive Kept (dir : Directory) (later : File → Prop) (files : List File) : List File → Prop
  | none (hold : ∀ f ∈ files, ¬ later f) : Kept dir later files []
  | one (a : File) (ha : a ∈ files) (hlater : later a)
      (hnewest : ∀ f ∈ files, f.timestamp ≤ a.timestamp)
      (hctype : ∀ f ∈ files, TypeLe dir f a ∨
        ∃ b ∈ files, ¬ later b ∧ ctypeOrZero dir f ≤ ctypeOrZero dir b) :
      Kept dir later files [a]
  | two (a b : File) (ha : a ∈ files) (hb : b ∈ files) (hlater : later a) (hlater' : later b)
      (hne : b.timestamp ≠ a.timestamp) (hbefore : ctypeOrZero dir a < ctypeOrZero dir b)
      (hnewest : ∀ f ∈ files, f.timestamp ≤ a.timestamp)
      (hctype : ∀ f ∈ files, TypeLe dir f b ∨
        ∃ c ∈ files, ¬ later c ∧ ctypeOrZero dir f ≤ ctypeOrZero dir c) :
      Kept dir later files [a, b]

/-- In a list sorted newest first, the first part of a split is what is newer. -/
theorem mem_splitGt {files : List File} {t : Timestamp}
    (hs : files.Pairwise fun a b => b.timestamp ≤ a.timestamp) (f : File) :
    f ∈ (splitGt files t).1 ↔ f ∈ files ∧ t < f.timestamp := by
  induction files with
  | nil => simp [splitGt, splitList]
  | cons a rest ih =>
    obtain ⟨hfirst, hrest⟩ := List.pairwise_cons.mp hs
    have ih := ih hrest
    simp only [splitGt, splitList] at ih ⊢
    by_cases ha : t < a.timestamp
    · rw [List.takeWhile_cons_of_pos (by simpa using ha), List.mem_cons, List.mem_cons, ih]
      constructor
      · rintro (rfl | ⟨hf, hlt⟩)
        · exact ⟨Or.inl rfl, ha⟩
        · exact ⟨Or.inr hf, hlt⟩
      · rintro ⟨rfl | hf, hlt⟩
        · exact Or.inl rfl
        · exact Or.inr ⟨hf, hlt⟩
    · rw [List.takeWhile_cons_of_neg (by simpa using ha)]
      simp only [List.not_mem_nil, List.mem_cons, false_iff, not_and]
      rintro (rfl | hf)
      · exact ha
      · exact fun hlt => ha (hlt.trans_le (hfirst f hf))

theorem splitGt_nil {files : List File} {t : Timestamp}
    (hold : ∀ f ∈ files, f.timestamp ≤ t) : (splitGt files t).1 = [] := by
  cases files with
  | nil => rfl
  | cons a rest =>
    have ha := hold a (by simp)
    simp only [splitGt, splitList]
    rw [List.takeWhile_cons_of_neg (by simpa using ha)]

/-- The strictly newest file comes first. -/
theorem newestFirst_cons {files : List File} {n : File} (hn : n ∈ files)
    (hold : ∀ f ∈ files, f ≠ n → f.timestamp < n.timestamp) :
    ∃ rest, newestFirst files = n :: rest := by
  have hperm := newestFirst_perm files
  have hsorted := newestFirst_pairwise files
  cases hl : newestFirst files with
  | nil =>
    rw [hl] at hperm
    have hmem := hperm.mem_iff.mpr hn
    contradiction
  | cons a rest =>
    rw [hl] at hperm hsorted
    have hmem : n ∈ a :: rest := hperm.mem_iff.mpr hn
    rcases List.mem_cons.mp hmem with rfl | hrest
    · exact ⟨rest, rfl⟩
    · by_cases heq : a = n
      · exact ⟨rest, by rw [heq]⟩
      · have hlt := hold a (hperm.mem_iff.mp (List.mem_cons_self ..)) heq
        exact absurd hlt (not_lt.mpr ((List.pairwise_cons.mp hsorted).1 n hrest))

variable (dir) in
/-- What retention makes of sorted `.meta` files, before any holder is known. -/
theorem retainMeta_kept {e : Exts}
    (hs : e.metaFiles.Pairwise fun a b => b.timestamp ≤ a.timestamp) :
    Kept dir (fun _ => True) e.metaFiles (retainMeta dir e).metaFiles := by
  unfold retainMeta
  split
  · rename_i hnil
    rw [hnil]
    exact Kept.none fun f hf => absurd hf List.not_mem_nil
  rename_i first rest hmeta
  rw [hmeta] at hs
  obtain ⟨hfirst, hrest⟩ := List.pairwise_cons.mp hs
  have hperm := newestCtypeFirst_perm dir rest
  have hpairs := newestCtypeFirst_pairwise dir hrest
  have hnewest : ∀ f ∈ first :: rest, f.timestamp ≤ first.timestamp := by
    intro f hf
    rcases List.mem_cons.mp hf with rfl | hf
    · exact le_refl _
    · exact hfirst f hf
  split
  · rename_i hnone
    rw [hnone] at hperm
    rw [hmeta, hperm.nil_eq.symm]
    refine Kept.one first (by simp) trivial (by simp) fun f hf => Or.inl ?_
    rw [List.mem_singleton.mp hf]
    exact typeLe_refl first
  rename_i second others hsorted
  rw [hsorted] at hperm hpairs
  have hsecond : second ∈ first :: rest :=
    List.mem_cons_of_mem _ (hperm.mem_iff.mp (List.mem_cons_self ..))
  have hmost : ∀ f ∈ rest, TypeLe dir f second := by
    intro f hf
    rcases List.mem_cons.mp (hperm.mem_iff.mpr hf) with rfl | hf
    · exact typeLe_refl f
    · exact (List.pairwise_cons.mp hpairs).1 f hf
  rw [hmeta]
  split
  · rename_i hnewer
    have hboth : ∀ f ∈ first :: rest, TypeLe dir f second := by
      intro f hf
      rcases List.mem_cons.mp hf with rfl | hf
      · exact Or.inl hnewer
      · exact hmost f hf
    split
    · rename_i hsame
      exact Kept.one second hsecond trivial (fun f hf => hsame ▸ hnewest f hf)
        fun f hf => Or.inl (hboth f hf)
    · rename_i hne
      exact Kept.two first second (by simp) hsecond trivial trivial hne hnewer hnewest
        fun f hf => Or.inl (hboth f hf)
  · rename_i hnot
    refine Kept.one first (by simp) trivial hnewest fun f hf => Or.inl ?_
    rcases List.mem_cons.mp hf with rfl | hf
    · exact typeLe_refl f
    · rcases ((hmost f hf).le.trans (not_lt.mp hnot)).lt_or_eq with hlt | heq
      · exact Or.inl hlt
      · exact Or.inr ⟨heq, hfirst f hf⟩

/-- Leaving out what is not later than `t` from what retention kept of `files`,
which has every later one of `all`. -/
theorem kept_splitGt {files all kept : List File} {t : Timestamp}
    (hk : Kept dir (fun _ => True) files kept) (hsub : ∀ f ∈ files, f ∈ all)
    (hall : ∀ f ∈ all, t < f.timestamp → f ∈ files) :
    Kept dir (fun f => t < f.timestamp) all (splitGt kept t).1 := by
  have hrest : ∀ {f a : File}, f ∈ all → f ∉ files → t < a.timestamp → f.timestamp ≤ a.timestamp :=
    fun hf hnot ha => (not_lt.mp fun hlt => hnot (hall _ hf hlt)).trans ha.le
  cases hk with
  | none hold =>
    refine Kept.none fun f hf hlt => ?_
    exact hold f (hall f hf hlt) trivial
  | one a ha _ hnewest hctype =>
    by_cases hlt : t < a.timestamp
    · have hsplit : (splitGt [a] t).1 = [a] := by simp [splitGt, splitList, hlt]
      rw [hsplit]
      refine Kept.one a (hsub a ha) hlt (fun f hf => ?_) fun f hf => ?_
      · by_cases hmem : f ∈ files
        · exact hnewest f hmem
        · exact hrest hf hmem hlt
      · by_cases hmem : f ∈ files
        · rcases hctype f hmem with hle | ⟨b, -, hnot, -⟩
          · exact Or.inl hle
          · exact absurd trivial hnot
        · exact Or.inr ⟨f, hf, fun hlater => hmem (hall f hf hlater), le_refl _⟩
    · rw [splitGt_nil (by simpa using hlt)]
      exact Kept.none fun f hf hlater => hlt (hlater.trans_le (hnewest f (hall f hf hlater)))
  | two a b ha hb _ _ hne hbefore hnewest hctype =>
    by_cases hlt : t < a.timestamp
    swap
    · have hnil : (splitGt [a, b] t).1 = [] := by simp [splitGt, splitList, hlt]
      rw [hnil]
      exact Kept.none fun f hf hlater => hlt (hlater.trans_le (hnewest f (hall f hf hlater)))
    have hnew : ∀ f ∈ all, f.timestamp ≤ a.timestamp := by
      intro f hf
      by_cases hmem : f ∈ files
      · exact hnewest f hmem
      · exact hrest hf hmem hlt
    have htype : ∀ f ∈ all, TypeLe dir f b ∨
        ∃ c ∈ all, ¬ t < c.timestamp ∧ ctypeOrZero dir f ≤ ctypeOrZero dir c := by
      intro f hf
      by_cases hmem : f ∈ files
      · rcases hctype f hmem with hle | ⟨c, -, hnot, -⟩
        · exact Or.inl hle
        · exact absurd trivial hnot
      · exact Or.inr ⟨f, hf, fun hlater => hmem (hall f hf hlater), le_refl _⟩
    by_cases hlt' : t < b.timestamp
    · have hsplit : (splitGt [a, b] t).1 = [a, b] := by simp [splitGt, splitList, hlt, hlt']
      rw [hsplit]
      exact Kept.two a b (hsub a ha) (hsub b hb) hlt hlt' hne hbefore hnew htype
    · have hsplit : (splitGt [a, b] t).1 = [a] := by simp [splitGt, splitList, hlt, hlt']
      rw [hsplit]
      refine Kept.one a (hsub a ha) hlt hnew fun f hf => Or.inr ?_
      rcases htype f hf with hle | h
      · exact ⟨b, hsub b hb, hlt', hle.le⟩
      · exact h

/-- `n` is the one `.data` or `.ts` file that counts. -/
structure Newest (n : File) (files : List File) : Prop where
  mem : n ∈ files
  kind : n.filename.ext ≠ .posted
  older : ∀ f ∈ files, f.filename.ext ≠ .posted → f ≠ n → f.timestamp < n.timestamp

/-- What is chosen among files whose newest `.data` or `.ts` is `n`. -/
structure Chosen (dir : Directory) (n : File) (files : List File) (chosen : Exts × Option File) :
    Prop where
  data : n.filename.ext = .data → chosen.2 = some n ∧ n ∈ chosen.1.dataFiles
  ts : n.filename.ext = .ts → chosen.2 = none ∧ chosen.1.tsFiles = [n]
  posted : Kept dir (fun f => n.timestamp < f.timestamp)
    (files.filter fun f => f.filename.ext = .posted) chosen.1.metaFiles

theorem byExtension_metaFiles {files : List File} {f : File} :
    f ∈ (byExtension files).metaFiles ↔ f ∈ files.filter fun f => f.filename.ext = .posted :=
  (newestFirst_perm _).mem_iff

variable (dir) in
theorem retainMeta_others (e : Exts) :
    (retainMeta dir e).dataFiles = e.dataFiles ∧ (retainMeta dir e).tsFiles = e.tsFiles := by
  unfold retainMeta
  split
  · exact ⟨rfl, rfl⟩
  split
  · exact ⟨rfl, rfl⟩
  split
  · split <;> exact ⟨rfl, rfl⟩
  · exact ⟨rfl, rfl⟩

/-- A `.ts` file newer than every `.data` file is chosen. -/
theorem survivors_chosen_ts {n : File} {files : List File} (hn : Newest n files)
    (hts : n.filename.ext = .ts) : Chosen dir n files (survivors dir files) := by
  have hmem : n ∈ files.filter fun f => f.filename.ext = .ts :=
    List.mem_filter.mpr ⟨hn.mem, by simp [hts]⟩
  obtain ⟨older, holder⟩ := newestFirst_cons hmem fun f hf hne => by
    obtain ⟨hf, hext⟩ := List.mem_filter.mp hf
    exact hn.older f hf (by simp [of_decide_eq_true hext]) hne
  have hdata : (splitGt (byExtension files).dataFiles n.timestamp).1 = [] := by
    refine splitGt_nil fun f hf => ?_
    obtain ⟨hf, hext⟩ := List.mem_filter.mp ((newestFirst_perm _).mem_iff.mp hf)
    have hext := of_decide_eq_true hext
    refine (hn.older f hf (by simp [hext]) ?_).le
    rintro rfl
    simp [hext] at hts
  let e := underTombstone (byExtension files)
  have he : e.dataFiles = [] ∧ e.tsFiles = [n] ∧
      e.metaFiles = (splitGt (byExtension files).metaFiles n.timestamp).1 := by
    simp only [e, underTombstone]
    split
    · rename_i hnil
      exact absurd (holder.symm.trans hnil) (by simp)
    · rename_i newest rest hcons
      obtain ⟨rfl, -⟩ := List.cons.inj (holder.symm.trans hcons)
      exact ⟨hdata, rfl, rfl⟩
  have hretain : (retainMeta dir e).dataFiles = [] ∧ (retainMeta dir e).tsFiles = [n] :=
    ⟨(retainMeta_others dir e).1.trans he.1, (retainMeta_others dir e).2.trans he.2.1⟩
  have hsurvive : survivors dir files = (retainMeta dir e, none) := by
    change processOndiskFiles (retainMeta dir e) = _
    simp only [processOndiskFiles, hretain.1]
  rw [hsurvive]
  refine ⟨fun hdata => ?_, fun _ => ⟨rfl, hretain.2⟩, ?_⟩
  · simp [hdata] at hts
  have hsorted := newestFirst_pairwise (files.filter fun f => f.filename.ext = .posted)
  have hin : ∀ f, f ∈ e.metaFiles ↔
      f ∈ (byExtension files).metaFiles ∧ n.timestamp < f.timestamp := by
    intro f
    rw [he.2.2]
    exact mem_splitGt hsorted f
  have hesorted : e.metaFiles.Pairwise fun a b => b.timestamp ≤ a.timestamp := by
    rw [he.2.2]
    exact hsorted.sublist (List.takeWhile_sublist _)
  have hk := kept_splitGt (t := n.timestamp) (retainMeta_kept dir hesorted)
    (fun f hf => byExtension_metaFiles.mp ((hin f).mp hf).1)
    (fun f hf hlt => (hin f).mpr ⟨byExtension_metaFiles.mpr hf, hlt⟩)
  -- nothing retained is old, so the last split changes nothing
  have hall : (splitGt (retainMeta dir e).metaFiles n.timestamp).1 = (retainMeta dir e).metaFiles := by
    refine List.takeWhile_eq_self_iff.mpr fun f hf => ?_
    have hf : f ∈ e.metaFiles := by
      have hkept := retainMeta_kept dir hesorted
      generalize (retainMeta dir e).metaFiles = kept at hf hkept
      cases hkept with
      | none => contradiction
      | one a ha => rwa [List.mem_singleton.mp hf]
      | two a b ha hb =>
        rcases List.mem_cons.mp hf with rfl | hf
        · exact ha
        · rwa [List.mem_singleton.mp hf]
    simpa using ((hin f).mp hf).2
  rwa [hall] at hk

/-- A `.data` file newer than every other and every `.ts` file is chosen. -/
theorem survivors_chosen_data {n : File} {files : List File} (hn : Newest n files)
    (hdata : n.filename.ext = .data) : Chosen dir n files (survivors dir files) := by
  have hmem : n ∈ files.filter fun f => f.filename.ext = .data :=
    List.mem_filter.mpr ⟨hn.mem, by simp [hdata]⟩
  obtain ⟨older, holder⟩ := newestFirst_cons hmem fun f hf hne => by
    obtain ⟨hf, hext⟩ := List.mem_filter.mp hf
    exact hn.older f hf (by simp [of_decide_eq_true hext]) hne
  have hsorted := newestFirst_pairwise (files.filter fun f => f.filename.ext = .posted)
  let e := underTombstone (byExtension files)
  have he : (∃ rest, e.dataFiles = n :: rest) ∧
      (e.metaFiles.Pairwise fun a b => b.timestamp ≤ a.timestamp) ∧
      (∀ f ∈ e.metaFiles, f ∈ (byExtension files).metaFiles) ∧
      ∀ f ∈ (byExtension files).metaFiles, n.timestamp < f.timestamp → f ∈ e.metaFiles := by
    simp only [e, underTombstone]
    split
    · exact ⟨⟨older, holder⟩, hsorted, fun f hf => hf, fun f hf _ => hf⟩
    · rename_i t rest hcons
      have ht : t ∈ (byExtension files).tsFiles := by
        rw [hcons]
        exact List.mem_cons_self ..
      obtain ⟨ht, hext⟩ := List.mem_filter.mp ((newestFirst_perm _).mem_iff.mp ht)
      have hext := of_decide_eq_true hext
      have hlt : t.timestamp < n.timestamp := hn.older t ht (by simp [hext]) (by
        rintro rfl
        simp [hext] at hdata)
      refine ⟨?_, hsorted.sublist (List.takeWhile_sublist _),
        fun f hf => ((mem_splitGt hsorted f).mp hf).1,
        fun f hf hlater => (mem_splitGt hsorted f).mpr ⟨hf, hlt.trans hlater⟩⟩
      change ∃ rest, (splitGt (newestFirst _) t.timestamp).1 = n :: rest
      rw [holder]
      refine ⟨older.takeWhile fun f => f.timestamp > t.timestamp, ?_⟩
      simp only [splitGt, splitList]
      rw [List.takeWhile_cons_of_pos (by simpa using hlt)]
  obtain ⟨⟨rest, hfirst⟩, hesorted, hsub, hall⟩ := he
  have hfirst' : (retainMeta dir e).dataFiles = n :: rest :=
    (retainMeta_others dir e).1.trans hfirst
  change Chosen dir n files (processOndiskFiles (retainMeta dir e))
  simp only [processOndiskFiles, hfirst']
  refine ⟨fun _ => ⟨rfl, ?_⟩, fun hts => ?_, ?_⟩
  · simp [splitGte, splitList]
  · simp [hts] at hdata
  · exact kept_splitGt (retainMeta_kept dir hesorted)
      (fun f hf => byExtension_metaFiles.mp (hsub f hf))
      (fun f hf hlt => hall f (byExtension_metaFiles.mpr hf) hlt)

/-- The selection chooses the newest `.data` or `.ts` file. -/
theorem survivors_chosen {n : File} {files : List File} (hn : Newest n files) :
    Chosen dir n files (survivors dir files) := by
  cases hext : n.filename.ext with
  | data => exact survivors_chosen_data hn hext
  | ts => exact survivors_chosen_ts hn hext
  | posted => exact absurd hext hn.kind

/-- A listing's order changes nothing of which file counts. -/
theorem newest_perm {n : File} {files files' : List File} (hn : Newest n files)
    (hperm : files'.Perm files) : Newest n files' :=
  ⟨hperm.mem_iff.mpr hn.mem, hn.kind, fun f hf => hn.older f (hperm.mem_iff.mp hf)⟩

theorem kept_perm {later : File → Prop} {files files' kept : List File}
    (hk : Kept dir later files' kept) (hperm : files'.Perm files) : Kept dir later files kept := by
  have hmem : ∀ {f}, f ∈ files ↔ f ∈ files' := hperm.mem_iff.symm
  have htype : ∀ b, (∀ f ∈ files', TypeLe dir f b ∨
        ∃ c ∈ files', ¬ later c ∧ ctypeOrZero dir f ≤ ctypeOrZero dir c) →
      ∀ f ∈ files, TypeLe dir f b ∨
        ∃ c ∈ files, ¬ later c ∧ ctypeOrZero dir f ≤ ctypeOrZero dir c := by
    intro b h f hf
    rcases h f (hmem.mp hf) with hle | ⟨c, hc, hcf⟩
    · exact Or.inl hle
    · exact Or.inr ⟨c, hmem.mpr hc, hcf⟩
  cases hk with
  | none hold => exact Kept.none fun f hf => hold f (hmem.mp hf)
  | one a ha hlater hnewest hctype =>
    exact Kept.one a (hmem.mpr ha) hlater (fun f hf => hnewest f (hmem.mp hf)) (htype a hctype)
  | two a b ha hb hlater hlater' hne hbefore hnewest hctype =>
    exact Kept.two a b (hmem.mpr ha) (hmem.mpr hb) hlater hlater' hne hbefore
      (fun f hf => hnewest f (hmem.mp hf)) (htype b hctype)

/-- What cleaning up leaves: the file that counts and the `.meta` files kept. -/
theorem cleanup_keeps {n : File} {files : List File} (hn : Newest n files)
    (hnames : (files.map File.filename).Nodup) :
    n ∈ cleanupOndiskFiles dir files ∧
      ∃ kept, Kept dir (fun f => n.timestamp < f.timestamp)
        (files.filter fun f => f.filename.ext = .posted) kept ∧
      ∀ f ∈ kept, f ∈ cleanupOndiskFiles dir files := by
  let listed := sortNames dir (dir.listdir files)
  have hperm : listed.Perm files := (List.perm_insertionSort _ _).trans (dir.listdir_perm files)
  have hchosen : Chosen dir n listed (survivors dir listed) :=
    survivors_chosen (newest_perm hn hperm)
  have hall : (survivors dir listed).1.all.Perm files := (survivors_perm _).trans hperm
  have hdistinct := (hall.map File.filename).nodup_iff.mpr hnames
  have hobsolete : (getOndiskFiles dir listed).obsolete = (survivors dir listed).1.obsolete := by
    unfold getOndiskFiles
    dsimp only
    split <;> rfl
  have hkeep : ∀ f, f ∈ (survivors dir listed).1.dataFiles ++ (survivors dir listed).1.metaFiles ++
      (survivors dir listed).1.tsFiles → f ∈ cleanupOndiskFiles dir files := by
    intro f hf
    refine List.mem_filter.mpr ⟨hall.mem_iff.mp (List.mem_append_left _ hf), ?_⟩
    rw [hobsolete]
    simp only [Exts.all, List.map_append, List.nodup_append] at hdistinct
    simp only [decide_eq_true_eq]
    intro hgone
    refine hdistinct.2.2 f.filename ?_ f.filename hgone rfl
    rw [← List.map_append, ← List.map_append]
    exact List.mem_map_of_mem hf
  refine ⟨?_, _, kept_perm hchosen.posted (hperm.filter _), fun f hf => hkeep f (by simp [hf])⟩
  cases hext : n.filename.ext with
  | data => exact hkeep n (by simp [(hchosen.data hext).2])
  | ts => exact hkeep n (by simp [(hchosen.ts hext).2])
  | posted => exact absurd hext hn.kind

end Swiftacular.FileSelection
