import Swiftacular.EngineObjects

/-!
`scan` and `clean`: every collection is listed page by page, an entry's Stat
is loaded and handed to a callback, which may end the collection. A listing
has a collection's entries in BlueStore's order; the store does not change
while it is scanned, since what `clean` removes is only queued.
-/
namespace Swiftacular.Sweep

open Function EntryStore EngineObjects

/-- A name's hash picks one of the collections. -/
abbrev Collection := Fin 256

/-- What a callback of `scan` asks for next. -/
inductive Scan
  | nextEntry | nextCollection
  deriving DecidableEq

def pageSize : ℕ := 1024

section Scans

variable {β : Type} (s : Store) (fn : β → Stat → β × Scan)

/-- One page of `scan`. What the callback has come to is there as well where an
entry cannot be loaded. -/
def scanBatch (acc : β) : List Address → β × Except LoadError Scan
  | [] => (acc, .ok .nextEntry)
  | oid :: rest =>
      match load s oid with
      | .error e => (acc, .error e)
      | .ok stat =>
          match fn acc stat with
          | (acc, .nextCollection) => (acc, .ok .nextCollection)
          | (acc, .nextEntry) => scanBatch acc rest

/-- One page after another, from the entries not listed so far. -/
def scanCollection (acc : β) (entries : List Address) : β × Except LoadError Unit :=
  match scanBatch s fn acc (entries.take pageSize) with
  | (acc, .error e) => (acc, .error e)
  | (acc, .ok .nextCollection) => (acc, .ok ())
  | (acc, .ok .nextEntry) =>
      if entries.drop pageSize = [] then (acc, .ok ())
      else scanCollection acc (entries.drop pageSize)
termination_by entries.length
decreasing_by
  rename_i hmore
  have hlen : pageSize < entries.length := by simpa using hmore
  have hpage : 0 < pageSize := by decide
  rw [List.length_drop]
  omega

def scan (acc : β) : List (List Address) → β × Except LoadError Unit
  | [] => (acc, .ok ())
  | entries :: rest =>
      match scanCollection s fn acc entries with
      | (acc, .error e) => (acc, .error e)
      | (acc, .ok ()) => scan acc rest

end Scans

/-- The callback of `clean`. -/
abbrev cleanEntry (ops : List Op) (stat : Stat) : List Op × Scan :=
  if stat.state = .active then (ops, .nextCollection)
  else (ops ++ [.remove (address stat)], .nextEntry)

/-- The transactions `clean` prepares, one change each. -/
def clean (s : Store) (listings : List (List Address)) : Except LoadError (List Op) :=
  match scan s cleanEntry [] listings with
  | (_, .error e) => .error e
  | (ops, .ok ()) => .ok ops

/-- An entry whose attributes lead back to where it is. -/
def Restorable (s : Store) (a : Address) : Prop := ∃ stat, load s a = .ok stat ∧ address stat = a

def isTemporary (a : Address) : Bool := a.space = .temporary

theorem load_state {s : Store} {a : Address} {stat : Stat} (h : load s a = .ok stat) :
    stat.state = .active ↔ isTemporary a = false := by
  unfold load at h
  split at h
  · contradiction
  split at h
  · contradiction
  obtain rfl := Except.ok.inj h
  cases a with
  | mk space name generation =>
    cases space with
    | temporary =>
      simp only [isTemporary, reduceCtorEq, if_false, decide_true]
      split <;> simp
    | ordinary => simp [isTemporary]

def removals (entries : List Address) : List Op := (entries.takeWhile isTemporary).map Op.remove

theorem scanBatch_clean {s : Store} {entries : List Address}
    (h : ∀ a ∈ entries, Restorable s a) (ops : List Op) :
    scanBatch s cleanEntry ops entries = (ops ++ removals entries,
      .ok (if entries.all isTemporary then .nextEntry else .nextCollection)) := by
  induction entries generalizing ops with
  | nil => simp [scanBatch, removals]
  | cons oid rest ih =>
    obtain ⟨stat, hload, haddr⟩ := h oid (List.mem_cons_self ..)
    have hrest := fun a ha => h a (List.mem_cons_of_mem _ ha)
    have hstate := load_state hload
    cases htemp : isTemporary oid with
    | false =>
      have hactive := hstate.mpr htemp
      simp [scanBatch, hload, cleanEntry, hactive, removals, htemp]
    | true =>
      have hnot : ¬ stat.state = .active := by
        rw [hstate, htemp]
        simp
      simp only [scanBatch, hload, cleanEntry, if_neg hnot, haddr]
      rw [ih hrest]
      simp [removals, htemp]

/-- A page ends the collection exactly if an ordinary entry is on it. -/
theorem removals_append (page rest : List Address) :
    removals (page ++ rest) =
      if page.all isTemporary then removals page ++ removals rest else removals page := by
  induction page with
  | nil => rfl
  | cons oid page ih =>
    cases htemp : isTemporary oid with
    | false => simp [removals, htemp]
    | true =>
      unfold removals at ih ⊢
      simp only [List.cons_append, List.takeWhile_cons, htemp, if_true, List.map_cons, ih,
        List.all_cons, Bool.true_and]
      split <;> rfl

theorem scanCollection_clean {s : Store} {entries : List Address}
    (h : ∀ a ∈ entries, Restorable s a) (ops : List Op) :
    scanCollection s cleanEntry ops entries = (ops ++ removals entries, .ok ()) := by
  induction hn : entries.length using Nat.strongRecOn generalizing entries ops with
  | ind n ih =>
    have hsplit := removals_append (entries.take pageSize) (entries.drop pageSize)
    rw [List.take_append_drop] at hsplit
    unfold scanCollection
    rw [scanBatch_clean (fun a ha => h a (List.mem_of_mem_take ha)), hsplit]
    by_cases hall : (entries.take pageSize).all isTemporary = true
    · simp only [hall, if_true]
      by_cases hmore : entries.drop pageSize = []
      · simp only [hmore, if_true]
        simp [removals]
      · have hlen : pageSize < entries.length := by simpa using hmore
        have hpage : 0 < pageSize := by decide
        rw [if_neg hmore, ih (entries.drop pageSize).length
          (by rw [List.length_drop]; omega) (fun a ha => h a (List.mem_of_mem_drop ha)) _ rfl,
          List.append_assoc]
    · simp only [hall, if_false, Bool.false_eq_true]

theorem scan_clean {s : Store} {listings : List (List Address)}
    (h : ∀ entries ∈ listings, ∀ a ∈ entries, Restorable s a) (ops : List Op) :
    scan s cleanEntry ops listings = (ops ++ listings.flatMap removals, .ok ()) := by
  induction listings generalizing ops with
  | nil => simp [scan]
  | cons entries rest ih =>
    simp only [scan, scanCollection_clean (h entries (List.mem_cons_self ..)),
      ih fun l hl => h l (List.mem_cons_of_mem _ hl), List.flatMap_cons, List.append_assoc]

/-- Where the temporary entries come first, they are what is removed. -/
theorem mem_removals {entries : List Address}
    (hfirst : entries.Pairwise fun a b => isTemporary b = true → isTemporary a = true)
    {op : Op} : op ∈ removals entries ↔ ∃ a ∈ entries, isTemporary a = true ∧ op = .remove a := by
  induction entries with
  | nil => simp [removals]
  | cons oid rest ih =>
    obtain ⟨hbefore, hrest⟩ := List.pairwise_cons.mp hfirst
    have ih := ih hrest
    cases htemp : isTemporary oid with
    | false =>
      have hnone : ∀ a ∈ rest, isTemporary a = false := by
        intro a ha
        by_contra hne
        have hat : isTemporary a = true := by simpa using hne
        rw [hbefore a ha hat] at htemp
        contradiction
      have hempty : removals (oid :: rest) = [] := by simp [removals, htemp]
      rw [hempty]
      constructor
      · intro hop
        contradiction
      · rintro ⟨a, ha, hat, -⟩
        rcases List.mem_cons.mp ha with rfl | ha
        · rw [htemp] at hat
          contradiction
        · rw [hnone a ha] at hat
          contradiction
    | true =>
      have hcons : removals (oid :: rest) = .remove oid :: removals rest := by
        simp [removals, htemp]
      rw [hcons, List.mem_cons, ih]
      constructor
      · rintro (rfl | ⟨a, ha, hat, rfl⟩)
        · exact ⟨oid, List.mem_cons_self .., htemp, rfl⟩
        · exact ⟨a, List.mem_cons_of_mem _ ha, hat, rfl⟩
      · rintro ⟨a, ha, hat, rfl⟩
        rcases List.mem_cons.mp ha with rfl | ha
        · exact Or.inl rfl
        · exact Or.inr ⟨a, ha, hat, rfl⟩

/-- Removals take out what they name and leave the rest. -/
theorem applyAll_removals (s : Store) (ops : List Op) (h : ∀ op ∈ ops, ∃ a, op = .remove a) :
    ∃ t, applyAll s ops = some t ∧ ∀ a, t a = if Op.remove a ∈ ops then none else s a := by
  induction ops generalizing s with
  | nil => exact ⟨s, rfl, fun a => by simp⟩
  | cons op rest ih =>
    obtain ⟨b, rfl⟩ := h op (List.mem_cons_self ..)
    obtain ⟨t, ht, hrest⟩ := ih (update s b none) fun o ho => h o (List.mem_cons_of_mem _ ho)
    refine ⟨t, ht, fun a => ?_⟩
    rw [hrest a]
    by_cases hab : a = b
    · subst hab
      simp
    · simp [hab]

/-- A complete listing, the temporary space first. -/
structure Listed (s : Store) (listings : List (List Address)) : Prop where
  stored : ∀ entries ∈ listings, ∀ a ∈ entries, (s a).isSome
  complete : ∀ a, (s a).isSome → ∃ entries ∈ listings, a ∈ entries
  temporaryFirst : ∀ entries ∈ listings,
    entries.Pairwise fun a b => isTemporary b = true → isTemporary a = true

theorem clean_sweeps {s : Store} {listings : List (List Address)}
    (hrestorable : ∀ a, (s a).isSome → Restorable s a) (hlisted : Listed s listings) :
    ∃ ops t, clean s listings = .ok ops ∧ applyAll s ops = some t ∧
      ∀ a, t a = if isTemporary a then none else s a := by
  have hclean : clean s listings = .ok (listings.flatMap removals) := by
    have hscan := scan_clean
      (fun entries he a ha => hrestorable a (hlisted.stored entries he a ha)) []
    rw [List.nil_append] at hscan
    rw [clean, hscan]
  have hmem : ∀ op, op ∈ listings.flatMap removals ↔
      ∃ entries ∈ listings, ∃ a ∈ entries, isTemporary a = true ∧ op = .remove a := by
    intro op
    simp only [List.mem_flatMap]
    constructor
    · rintro ⟨entries, he, hop⟩
      exact ⟨entries, he, (mem_removals (hlisted.temporaryFirst entries he)).mp hop⟩
    · rintro ⟨entries, he, hop⟩
      exact ⟨entries, he, (mem_removals (hlisted.temporaryFirst entries he)).mpr hop⟩
  obtain ⟨t, ht, hstore⟩ := applyAll_removals s (listings.flatMap removals) fun op hop => by
    obtain ⟨-, -, a, -, -, hremove⟩ := (hmem op).mp hop
    exact ⟨a, hremove⟩
  refine ⟨_, t, hclean, ht, fun a => ?_⟩
  rw [hstore a]
  cases htemp : isTemporary a with
  | false =>
    rw [if_neg]
    · rfl
    · intro hop
      obtain ⟨-, -, b, -, hb, hab⟩ := (hmem _).mp hop
      obtain rfl : a = b := by injection hab
      rw [htemp] at hb
      contradiction
  | true =>
    cases hs : s a with
    | none => simp
    | some x =>
      obtain ⟨entries, he, ha⟩ := hlisted.complete a (by rw [hs]; rfl)
      rw [if_pos ((hmem _).mpr ⟨entries, he, a, ha, htemp, rfl⟩)]
      rfl

/-! A sweep of whatever entries there are, however they are listed. -/

/-- Changes that only remove entries of the temporary space. -/
def Clears (ops : List Op) : Prop := ∀ op ∈ ops, ∃ a, a.space = .temporary ∧ op = .remove a

theorem clears_append {left right : List Op} (h : Clears left) (h' : Clears right) :
    Clears (left ++ right) := by
  intro op hop
  rcases List.mem_append.mp hop with hop | hop
  · exact h op hop
  · exact h' op hop

/-- What is not ACTIVE where it is found has a temporary address. -/
theorem load_temporary {s : Store} {a : Address} {stat : Stat} (h : load s a = .ok stat)
    (hnot : stat.state ≠ .active) : (address stat).space = .temporary := by
  have htemp : stat.state.temp = true := by
    unfold load at h
    split at h
    · contradiction
    split at h
    · contradiction
    obtain rfl := Except.ok.inj h
    dsimp only at hnot ⊢
    split
    · rename_i hspace
      rw [if_pos hspace] at hnot
      exact absurd rfl hnot
    · split <;> rfl
  unfold address
  rw [if_pos htemp]
  rfl

theorem scanBatch_clears {s : Store} {entries : List Address} {ops : List Op}
    (hops : Clears ops) : Clears (scanBatch s cleanEntry ops entries).1 := by
  induction entries generalizing ops with
  | nil => exact hops
  | cons oid rest ih =>
    unfold scanBatch
    cases hload : load s oid with
    | error e => exact hops
    | ok stat =>
      by_cases hactive : stat.state = .active
      · simp only [cleanEntry, hactive, if_true]
        exact hops
      · simp only [cleanEntry, hactive, if_false]
        refine ih (clears_append hops fun op hop => ?_)
        exact ⟨_, load_temporary hload hactive, List.mem_singleton.mp hop⟩

theorem scanCollection_clears {s : Store} {entries : List Address} {ops : List Op}
    (hops : Clears ops) : Clears (scanCollection s cleanEntry ops entries).1 := by
  induction hn : entries.length using Nat.strongRecOn generalizing entries ops with
  | ind n ih =>
    have hacc : Clears (scanBatch s cleanEntry ops (entries.take pageSize)).1 :=
      scanBatch_clears hops
    unfold scanCollection
    rcases hbatch : scanBatch s cleanEntry ops (entries.take pageSize) with ⟨acc, e | next⟩
    all_goals rw [hbatch] at hacc
    · exact hacc
    · cases next with
      | nextCollection => exact hacc
      | nextEntry =>
        dsimp only
        split
        · exact hacc
        · rename_i hmore
          have hlen : pageSize < entries.length := by simpa using hmore
          have hpage : 0 < pageSize := by decide
          exact ih (entries.drop pageSize).length (by rw [List.length_drop]; omega) hacc rfl

theorem scan_clears {s : Store} {listings : List (List Address)} {ops : List Op}
    (hops : Clears ops) : Clears (scan s cleanEntry ops listings).1 := by
  induction listings generalizing ops with
  | nil => exact hops
  | cons entries rest ih =>
    have hacc : Clears (scanCollection s cleanEntry ops entries).1 := scanCollection_clears hops
    unfold scan
    rcases hone : scanCollection s cleanEntry ops entries with ⟨acc, e | ⟨⟩⟩
    all_goals rw [hone] at hacc
    · exact hacc
    · exact ih hacc

theorem clean_clears {s : Store} {listings : List (List Address)} {ops : List Op}
    (hclean : clean s listings = .ok ops) : Clears ops := by
  have hacc : Clears (scan s cleanEntry [] listings).1 :=
    scan_clears fun op hop => absurd hop List.not_mem_nil
  unfold clean at hclean
  rcases hscan : scan s cleanEntry [] listings with ⟨acc, e | ⟨⟩⟩
  all_goals rw [hscan] at hclean hacc
  · contradiction
  · obtain rfl := Except.ok.inj hclean
    exact hacc

/-- A sweep leaves the ordinary entries alone. -/
theorem clean_keeps {s t : Store} {listings : List (List Address)} {ops : List Op}
    (hclean : clean s listings = .ok ops) (ht : applyAll s ops = some t) {a : Address}
    (ha : a.space = .ordinary) : t a = s a := by
  refine applyAll_other ht fun op hop hmem => ?_
  obtain ⟨b, hb, rfl⟩ := clean_clears hclean op hop
  obtain rfl := List.mem_singleton.mp hmem
  rw [ha] at hb
  contradiction

end Swiftacular.Sweep
