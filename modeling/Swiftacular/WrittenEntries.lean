import Swiftacular.Piles
import Swiftacular.Versions

/-!
The one entry that an Object being written works at. Its data lies over what
its address had, at whatever length the writes have come to; its put moves it
to the ordinary address, with what held the name out of the way first.
-/
namespace Swiftacular.WrittenEntries

open Function EntryStore EngineObjects Versions
open Piles (laid laid_nil)

/-- The bytes an address holds. -/
def leftover (s : Store) (a : Address) : Bytes := ((s a).map Entry.data).getD []

/-- What was made of a store so far: nothing, or the one entry, with these
bytes over what was there. -/
def Begun (s : Store) (a : Address) (data : Bytes) (state : State) (u : Store) : Prop :=
  state = .preWrite ∧ data = [] ∧ u = s ∨
    state = .inWrite ∧ ∃ header attrs,
      u = update s a (some ⟨laid data (leftover s a), header, attrs⟩)

/-- The store with the entry, once it has its metadata. -/
def completed (s : Store) (name : Name) (ts : ℕ) (deleted : Bool) (data blob : Bytes) : Store :=
  update s (temporary name ts) (some ⟨laid data (leftover s (temporary name ts)), blob,
    some ⟨ts, deleted, false⟩⟩)

variable {s u : Store} {name : Name} {ts : ℕ} {data : Bytes} {o p : Object}

theorem Begun.writing {a : Address} {state : State} (h : Begun s a data state u) :
    state = .preWrite ∨ state = .inWrite :=
  h.imp And.left And.left

theorem draft_address (hname : o.name = name) (hts : o.ts = ts)
    (hstate : o.state = .preWrite ∨ o.state = .inWrite) : address o.toStat = temporary name ts := by
  rw [← hname, ← hts]
  apply address_temp
  rcases hstate with h | h <;> rw [h] <;> rfl

theorem draft_save (hname : o.name = name) (hts : o.ts = ts) :
    save { o with state := .inWrite }.toStat =
      .setattrs (temporary name ts) ⟨ts, o.deleted, false⟩ := by
  subst hname hts
  rfl

/-- What a touch finds, or makes. -/
theorem touched (s : Store) (a : Address) : (s a).getD Entry.blank =
    ⟨leftover s a, ((s a).getD Entry.blank).header, ((s a).getD Entry.blank).attrs⟩ := by
  unfold leftover
  cases s a <;> rfl

theorem splice_laid (data left more : Bytes) :
    splice (laid data left) data.length more = laid (data ++ more) left := by
  unfold splice laid
  split
  · rename_i hnil
    rw [hnil, List.append_nil]
  · have htake : (data ++ left.drop data.length).take data.length = data := List.take_left
    have hdrop : (data ++ left.drop data.length).drop (data.length + more.length) =
        left.drop (data ++ more).length := by
      rw [← List.drop_drop, List.drop_left, List.drop_drop, List.length_append]
    have hgap : data.length - (data ++ left.drop data.length).length = 0 := by
      rw [List.length_append]
      omega
    rw [htake, hdrop, hgap, List.replicate_zero, List.append_nil]

/-- A write lays its bytes right after the ones before. -/
theorem begun_write (h : Begun s (temporary name ts) data o.state u) (hname : o.name = name)
    (hts : o.ts = ts) (hwritten : o.written = data.length) (buf : Bytes) :
    ∃ u', applyAll u ((if o.state = .preWrite then
        [.touch (address o.toStat), save { o with state := .inWrite }.toStat] else []) ++
        [.write (address o.toStat) o.written buf]) = some u' ∧
      Begun s (temporary name ts) (data ++ buf) .inWrite u' := by
  have haddr := draft_address hname hts h.writing
  have hsave := draft_save hname hts
  rcases h with ⟨hpre, rfl, rfl⟩ | ⟨hin, header, attrs, rfl⟩
  · refine ⟨_, ?_, Or.inr ⟨rfl, ((u (temporary name ts)).getD Entry.blank).header,
      some ⟨ts, o.deleted, false⟩, rfl⟩⟩
    have hzero : o.written = 0 := hwritten
    have hsplice := splice_laid [] (leftover u (temporary name ts)) buf
    rw [if_pos hpre, haddr, hsave, hzero, applyAll_append, applyAll_cons]
    simp only [EntryStore.apply, Option.bind_some, applyAll_cons, update_self, Option.map_some,
      applyAll_nil, Option.getD_some, update_idem]
    rw [touched u, ← hsplice, laid_nil]
    rfl
  · refine ⟨_, ?_, Or.inr ⟨rfl, header, attrs, rfl⟩⟩
    rw [if_neg (by simp [hin]), haddr, hwritten, List.nil_append, applyAll_cons]
    simp only [EntryStore.apply, update_self, Option.getD_some, splice_laid, Option.bind_some,
      applyAll_nil, update_idem]

/-- The metadata is set whatever header the address had. -/
theorem begun_header (h : Begun s (temporary name ts) data o.state u) (hname : o.name = name)
    (hts : o.ts = ts) (blob : Bytes) :
    applyAll u ((if o.state = .preWrite then [.touch (address o.toStat)] else []) ++
      [.setheader (address o.toStat) blob, save { o with state := .inWrite }.toStat]) =
      some (completed s name ts o.deleted data blob) := by
  have haddr := draft_address hname hts h.writing
  have hsave := draft_save hname hts
  unfold completed
  rcases h with ⟨hpre, rfl, rfl⟩ | ⟨hin, header, attrs, rfl⟩
  · rw [if_pos hpre, haddr, hsave, List.singleton_append, applyAll_cons]
    simp only [EntryStore.apply, Option.bind_some, applyAll_cons, update_self, Option.map_some,
      applyAll_nil, update_idem]
    rw [touched u, laid_nil]
  · rw [if_neg (by simp [hin]), haddr, hsave, List.nil_append, applyAll_cons]
    simp only [EntryStore.apply, update_self, Option.map_some, Option.bind_some, applyAll_cons,
      update_idem, applyAll_nil]

/-! The put. -/

theorem rename_moves {t : Store} {a b : Address} {e : Entry Attrs} (ha : s a = some e)
    (h : EntryStore.apply s (.rename a b) = some t) : s b = none ∧ t b = some e := by
  unfold EntryStore.apply at h
  dsimp only at h
  rw [ha] at h
  cases hb : s b with
  | some x =>
    rw [hb] at h
    contradiction
  | none =>
    rw [hb] at h
    exact ⟨rfl, by rw [← Option.some.inj h, update_self]⟩

/-- Where the holder's entry goes. -/
theorem retired_address (hpname : p.name = name) (hactive : p.state = .active) :
    address p.toStat = ordinary name ∧
      address (Backend.retire p).toStat = temporary name p.ts := by
  rw [← hpname, Backend.retire, if_pos hactive]
  exact ⟨address_active hactive, address_temp rfl⟩

/-- A put that the store takes finds the holder's place free, so the two
Objects have not one temporary address. -/
theorem handOver_apart {settled : ℕ} {v : Store} (hpname : p.name = name)
    (hheld : (s (ordinary name)).isSome) (hdraft : (s (temporary name ts)).isSome)
    (h : applyAll s (Backend.handOverOps o p settled) = some v) (hactive : p.state = .active) :
    p.ts ≠ ts := by
  rintro rfl
  obtain ⟨hfrom, hto⟩ := retired_address hpname hactive
  obtain ⟨e, he⟩ := Option.isSome_iff_exists.mp hheld
  unfold Backend.handOverOps at h
  dsimp only at h
  rw [if_pos hactive, hfrom, hto, List.cons_append, applyAll_cons] at h
  obtain ⟨t, hrename, -⟩ := Option.bind_eq_some_iff.mp h
  rw [(rename_moves he hrename).1] at hdraft
  contradiction

/-- Only the ordinary address and the two temporary ones are written. -/
theorem handOver_places {settled : ℕ} {v : Store} {e : Entry Attrs} (hname : o.name = name)
    (hts : o.ts = ts) (hstate : o.state = .inWrite) (hpname : p.name = name)
    (hholder : p.state = .active → p.ts ≠ ts) (hdraft : s (temporary name ts) = some e)
    (h : applyAll s (Backend.handOverOps o p settled) = some v) :
    v (ordinary name) = some { e with attrs := some ⟨settled, o.deleted, false⟩ } ∧
      ∀ b, b ≠ ordinary name → b ≠ temporary name ts →
        (p.state = .active → b ≠ temporary name p.ts) → v b = s b := by
  have haddr := draft_address hname hts (Or.inr hstate)
  have hplaced : address (Backend.settle o settled).toStat = ordinary name := by
    rw [← hname]
    exact address_active rfl
  have hsave : save (Backend.settle o settled).toStat =
      .setattrs (ordinary name) ⟨settled, o.deleted, false⟩ := by
    rw [save, hplaced]
    rfl
  unfold Backend.handOverOps at h
  dsimp only at h
  rw [haddr, hplaced, hsave] at h
  obtain ⟨t, hout, hin⟩ := applyAll_append_some h
  -- what holds the name moves out, away from the new entry
  have hmoved : ∀ b, b ≠ ordinary name → (p.state = .active → b ≠ temporary name p.ts) →
      t b = s b := by
    intro b hord htemp
    refine applyAll_other hout fun op hop hb => ?_
    split at hop
    swap
    · contradiction
    rename_i hactive
    obtain ⟨hfrom, hto⟩ := retired_address hpname hactive
    simp only [List.mem_cons, List.not_mem_nil, or_false] at hop
    rcases hop with rfl | rfl
    · simp only [Op.addresses, List.mem_cons, List.not_mem_nil, or_false, hfrom, hto] at hb
      exact hb.elim hord (htemp hactive)
    · simp only [save, Op.addresses, List.mem_singleton, hto] at hb
      exact htemp hactive hb
  have hthere : t (temporary name ts) = some e := by
    rw [hmoved _ (by simp [temporary, ordinary]) fun hactive heq => ?_, hdraft]
    injection heq with _ _ heq
    exact hholder hactive heq.symm
  rw [applyAll_cons] at hin
  obtain ⟨w, hrename, hset⟩ := Option.bind_eq_some_iff.mp hin
  have hthere := (rename_moves hthere hrename).2
  rw [applyAll_cons] at hset
  simp only [EntryStore.apply, hthere, Option.map_some, Option.bind_some, applyAll_nil,
    Option.some.injEq] at hset
  subst hset
  refine ⟨update_self .., fun b hord hdraftAt htemp => ?_⟩
  rw [update_of_ne hord, apply_other hrename (by simp [Op.addresses, hord, hdraftAt]),
    hmoved b hord htemp]

end Swiftacular.WrittenEntries
