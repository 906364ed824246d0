import Swiftacular.NameDecisions
import Mathlib.Order.MinMax

/-!
The three timestamps a read of a name reports, along the versions that hold
it. A tombstone reports no type, but what a later live version reports is
still no older than what an earlier one did: the newest type a POST gave is
never newer than the POST, and a POST is dropped only for something newer.
-/
namespace Swiftacular.NameClocks

open Timestamps MetadataModel NameDecisions

/-- A request as the object server makes it, as far as its type goes. -/
def Typed : Request → Prop
  | .put m => m.contentType.isSome ∧ m.contentTypeTimestamp = none
  | .delete _ => True
  | .post p => (p.contentType.isSome ↔ p.contentTypeTimestamp.isSome) ∧
      ∀ t, p.contentTypeTimestamp = some t → t ≤ p.timestamp

/-- What each version that holds a name keeps to. -/
structure Clocked (h : Held) : Prop where
  ts : h.ts = h.blob.dataSection.timestamp.tick
  later : ∀ m, h.blob.metaSection = some m → h.blob.dataSection.timestamp < m.timestamp
  posted : ∀ m, h.blob.metaSection = some m → Typed (.post m)
  live : h.deleted = false → Typed (.put h.blob.dataSection)

/-- The newest write or POST of a blob. -/
def metaClock (blob : Blob) : Timestamp :=
  match blob.metaSection with
  | none => blob.dataSection.timestamp
  | some m => m.timestamp

/-- The newest type of a blob, if its data had one. -/
def typeClock (blob : Blob) : Timestamp :=
  match blob.metaSection with
  | none => blob.dataSection.timestamp
  | some m => max blob.dataSection.timestamp (ctypeTimestamp m)

/-- Nothing of `later` is older than the same of `earlier`. -/
structure Follows (earlier later : Blob) : Prop where
  data : earlier.dataSection.timestamp ≤ later.dataSection.timestamp
  posted : metaClock earlier ≤ metaClock later
  typed : typeClock earlier ≤ typeClock later

/-- What the claim on two versions of a name says, the second the later one. -/
structure Forward (isSysMeta : String → Bool) (earlier later : Held) : Prop where
  data : (get isSysMeta earlier.blob).dataTs ≤ (get isSysMeta later.blob).dataTs
  posted : earlier.deleted = false → later.deleted = false →
    (get isSysMeta earlier.blob).metaTs ≤ (get isSysMeta later.blob).metaTs
  typed : earlier.deleted = false → later.deleted = false →
    (get isSysMeta earlier.blob).typeTs ≤ (get isSysMeta later.blob).typeTs
  newer : ∀ m, later.blob.metaSection = some m →
    later.blob.dataSection.timestamp < m.timestamp

variable {isSysMeta : String → Bool} {name : EngineObjects.Name}

theorem ctype_le {p : Section} (h : Typed (.post p)) : ctypeTimestamp p ≤ p.timestamp := by
  unfold ctypeTimestamp
  cases ht : p.contentTypeTimestamp with
  | none => exact Timestamp.zero_le _
  | some t => exact h.2 t ht

theorem get_metaTs (blob : Blob) : (get isSysMeta blob).metaTs = metaClock blob := by
  unfold MetadataModel.get metaClock
  cases blob.metaSection with
  | none => rfl
  | some m => exact merge_timestamp _ _

/-- The type's timestamp is read off the overlay, which has a POST's only
where it is not older than the data. -/
theorem get_typeTs {blob : Blob} (hlive : Typed (.put blob.dataSection)) :
    (get isSysMeta blob).typeTs = typeClock blob := by
  obtain ⟨htype, hnone⟩ := hlive
  unfold MetadataModel.get typeClock
  cases hm : blob.metaSection with
  | none => simp only [hnone, Option.getD_none]
  | some m =>
    dsimp only
    unfold merge
    by_cases hnewer : blob.dataSection.timestamp > ctypeTimestamp m
    · simp only [htype, hnewer, and_self, if_true, Option.getD_none]
      exact (max_eq_left hnewer.le).symm
    · have hle : blob.dataSection.timestamp ≤ ctypeTimestamp m := not_lt.mp hnewer
      simp only [hnewer, and_false, if_false, max_eq_right hle]
      unfold ctypeTimestamp at hle ⊢
      cases ht : m.contentTypeTimestamp with
      | none =>
        rw [ht] at hle
        exact le_antisymm hle (Timestamp.zero_le _)
      | some t => rfl

theorem Follows.trans {a b c : Blob} (h : Follows a b) (h' : Follows b c) : Follows a c :=
  ⟨h.data.trans h'.data, h.posted.trans h'.posted, h.typed.trans h'.typed⟩

theorem follows_refl (blob : Blob) : Follows blob blob := ⟨le_refl _, le_refl _, le_refl _⟩

/-- A PUT or DELETE that the engine takes: its tick is greater, and it leaves
out a POST only for being newer itself. -/
theorem follows_put {h : Held} (hc : Clocked h) {m : Section}
    (hlt : h.blob.dataSection.timestamp < m.timestamp) :
    Follows h.blob (put (some (get isSysMeta h.blob)) m) := by
  cases hm : h.blob.metaSection with
  | none =>
    have hput : put (some (get isSysMeta h.blob)) m = ⟨m, none⟩ := by simp [put, hm]
    rw [hput]
    refine ⟨hlt.le, ?_, ?_⟩
    · simp only [metaClock, hm]
      exact hlt.le
    · simp only [typeClock, hm]
      exact hlt.le
  | some p =>
    by_cases hnewer : p.timestamp > m.timestamp
    · have hput : put (some (get isSysMeta h.blob)) m = ⟨m, some p⟩ := by simp [put, hm, hnewer]
      rw [hput]
      refine ⟨hlt.le, ?_, ?_⟩
      · simp only [metaClock, hm]
        exact le_refl _
      · simp only [typeClock, hm]
        exact max_le (le_max_of_le_left hlt.le) (le_max_right _ _)
    · have hput : put (some (get isSysMeta h.blob)) m = ⟨m, none⟩ := by simp [put, hm, hnewer]
      have hle := not_lt.mp hnewer
      rw [hput]
      refine ⟨hlt.le, ?_, ?_⟩
      · simp only [metaClock, hm]
        exact hle
      · -- the POST is left out, and its type is no newer than itself
        simp only [typeClock, hm]
        exact max_le hlt.le ((ctype_le (hc.posted p hm)).trans hle)

theorem clocked_put {held : Option Held} (hc : ∀ h, held = some h → Clocked h) {m : Section}
    {deleted : Bool} (htyped : deleted = false → Typed (.put m)) :
    Clocked ⟨m.timestamp.tick, deleted, put (held.map fun h => get isSysMeta h.blob) m⟩ := by
  have hmeta : ∀ p, (put (held.map fun h => get isSysMeta h.blob) m).metaSection = some p →
      (∃ h, held = some h ∧ h.blob.metaSection = some p) ∧ m.timestamp < p.timestamp := by
    intro p hp
    obtain ⟨hprev, hnewer⟩ := (put_metaSection _ _ _).mp hp
    obtain ⟨md, hmd, hsection⟩ := Option.bind_eq_some_iff.mp hprev
    obtain ⟨h, hheld, heq⟩ := Option.map_eq_some_iff.mp hmd
    subst heq
    exact ⟨⟨h, hheld, hsection⟩, hnewer⟩
  refine ⟨?_, fun p hp => ?_, fun p hp => ?_, fun hlive => ?_⟩
  · simp only [put_dataSection]
  · rw [put_dataSection]
    exact (hmeta p hp).2
  · obtain ⟨⟨h, hheld, hsection⟩, -⟩ := hmeta p hp
    exact (hc h hheld).posted p hsection
  · rw [put_dataSection]
    exact htyped hlive

/-- The newer of two sections, with the newer of their types. -/
theorem overlay_typed {newer merged : Section} {older : Option Section}
    (hnewer : Typed (.post newer)) (holder : ∀ p, older = some p → Typed (.post p))
    (hle : ∀ p, older = some p → p.timestamp ≤ newer.timestamp)
    (h : overlay newer older = .ok merged) :
    Typed (.post merged) ∧ merged.timestamp = newer.timestamp ∧
      ctypeTimestamp newer ≤ ctypeTimestamp merged ∧
      ∀ p, older = some p → ctypeTimestamp p ≤ ctypeTimestamp merged := by
  cases older with
  | none =>
    obtain rfl := Except.ok.inj h
    exact ⟨hnewer, rfl, le_refl _, fun p hp => by contradiction⟩
  | some p =>
    have hp := holder p rfl
    unfold overlay at h
    dsimp only at h
    by_cases hgt : ctypeTimestamp p > ctypeTimestamp newer
    · rw [if_pos hgt] at h
      cases htype : p.contentType with
      | none =>
        rw [htype] at h
        contradiction
      | some contentType =>
        rw [htype] at h
        obtain rfl := Except.ok.inj h
        have hsome : p.contentTypeTimestamp.isSome := hp.1.mp (by rw [htype]; rfl)
        refine ⟨⟨by simpa using hsome, fun t ht => ?_⟩, rfl, hgt.le, fun q hq => ?_⟩
        · exact (hp.2 t ht).trans (hle p rfl)
        · obtain rfl := Option.some.inj hq
          exact le_refl _
    · rw [if_neg hgt] at h
      obtain rfl := Except.ok.inj h
      refine ⟨hnewer, rfl, le_refl _, fun q hq => ?_⟩
      obtain rfl := Option.some.inj hq
      exact not_lt.mp hgt

/-- A POST that changes something: it is newer than the data, and what is
stored beside the data is the newer of it and what was there. -/
theorem post_newer {blob next : Blob} {p : Section}
    (hp : Typed (.post p)) (hposted : ∀ m, blob.metaSection = some m → Typed (.post m))
    (h : post (some (get isSysMeta blob)) p = .ok (some next)) :
    next.dataSection = blob.dataSection ∧ ∃ m, next.metaSection = some m ∧ Typed (.post m) ∧
      blob.dataSection.timestamp < m.timestamp ∧
      ∀ q, blob.metaSection = some q →
        q.timestamp ≤ m.timestamp ∧ ctypeTimestamp q ≤ ctypeTimestamp m := by
  refine ⟨post_dataSection h, ?_⟩
  unfold post at h
  dsimp only at h
  split at h
  · simp at h
  rename_i hlate
  have hdata : blob.dataSection.timestamp < p.timestamp := not_le.mp hlate
  rw [get_metaSection] at h
  cases hm : blob.metaSection with
  | none =>
    rw [hm] at h
    simp only [newerOlder, overlay, reduceCtorEq, if_false] at h
    obtain rfl := Option.some.inj (Except.ok.inj h)
    exact ⟨p, rfl, hp, hdata, fun q hq => by contradiction⟩
  | some q =>
    rw [hm] at h
    have hq := hposted q hm
    by_cases hnewer : p.timestamp > q.timestamp
    · simp only [newerOlder, if_pos hnewer] at h
      cases hover : overlay p (some q) with
      | error e =>
        rw [hover] at h
        contradiction
      | ok merged =>
        rw [hover] at h
        obtain ⟨htyped, hts, -, hctype⟩ := overlay_typed hp
          (fun r hr => Option.some.inj hr ▸ hq) (fun r hr => Option.some.inj hr ▸ hnewer.le) hover
        dsimp only at h
        split at h
        · simp at h
        obtain rfl := Option.some.inj (Except.ok.inj h)
        refine ⟨merged, rfl, htyped, hts ▸ hdata, fun r hr => ?_⟩
        obtain rfl := Option.some.inj hr
        exact ⟨hts ▸ hnewer.le, hctype _ rfl⟩
    · have hle := not_lt.mp hnewer
      simp only [newerOlder, if_neg hnewer] at h
      cases hover : overlay q (some p) with
      | error e =>
        rw [hover] at h
        contradiction
      | ok merged =>
        rw [hover] at h
        obtain ⟨htyped, hts, hctype, -⟩ := overlay_typed hq
          (fun r hr => Option.some.inj hr ▸ hp) (fun r hr => Option.some.inj hr ▸ hle) hover
        dsimp only at h
        split at h
        · simp at h
        obtain rfl := Option.some.inj (Except.ok.inj h)
        refine ⟨merged, rfl, htyped, hts ▸ hdata.trans_le hle, fun r hr => ?_⟩
        obtain rfl := Option.some.inj hr
        exact ⟨hts ▸ le_refl _, hctype⟩

/-- One decision on what holds a name. -/
theorem clocked_step {h : Held} (hc : Clocked h) {q : Request} (hq : Typed q) {h' : Held}
    (hstep : decideRequest isSysMeta name (some h) q = some h') :
    Clocked h' ∧ Follows h.blob h'.blob := by
  have hsame : h' = h → Clocked h' ∧ Follows h.blob h'.blob := by
    rintro rfl
    exact ⟨hc, follows_refl _⟩
  have hwrite : ∀ m deleted, (deleted = false → Typed (.put m)) →
      (if m.timestamp.tick ≤ heldTs (some h) then some h
        else some ⟨m.timestamp.tick, deleted, put (some (get isSysMeta h.blob)) m⟩) = some h' →
      Clocked h' ∧ Follows h.blob h'.blob := by
    intro m deleted htyped heq
    split at heq
    · exact hsame (Option.some.inj heq).symm
    · rename_i hnewer
      obtain rfl := Option.some.inj heq
      have htick : h.blob.dataSection.timestamp.tick < m.timestamp.tick := by
        have hheld : heldTs (some h) = h.ts := rfl
        rw [hheld, hc.ts] at hnewer
        omega
      exact ⟨@clocked_put _ (some h) (fun k hk => Option.some.inj hk ▸ hc) _ _ htyped,
        follows_put hc (Timestamp.lt_of_tick htick)⟩
  cases q with
  | put m =>
    rw [decideRequest_put] at hstep
    exact hwrite m false (fun _ => hq) hstep
  | delete m =>
    rw [decideRequest_delete] at hstep
    exact hwrite m true (fun hlive => by contradiction) hstep
  | post p =>
    simp only [decideRequest, deviceWriteMetadata] at hstep
    split at hstep
    · rename_i next hpost
      obtain rfl := Option.some.inj hstep
      obtain ⟨hdata, m, hm, htyped, hlater, hold⟩ := post_newer hq hc.posted hpost
      refine ⟨⟨?_, fun k hk => ?_, fun k hk => ?_, fun hlive => ?_⟩, ⟨?_, ?_, ?_⟩⟩
      · rw [hdata]
        exact hc.ts
      · obtain rfl := Option.some.inj (hm.symm.trans hk)
        rw [hdata]
        exact hlater
      · obtain rfl := Option.some.inj (hm.symm.trans hk)
        exact htyped
      · rw [hdata]
        exact hc.live hlive
      · rw [hdata]
      · unfold metaClock
        cases hp : h.blob.metaSection with
        | none =>
          simp only [hm]
          exact hlater.le
        | some r =>
          simp only [hm]
          exact (hold r hp).1
      · unfold typeClock
        cases hp : h.blob.metaSection with
        | none =>
          simp only [hm, hdata]
          exact le_max_left _ _
        | some r =>
          simp only [hm, hdata]
          exact max_le_max (le_refl _) (hold r hp).2
    · exact hsame (Option.some.inj hstep).symm

theorem clocked_first {q : Request} (hq : Typed q) {h : Held}
    (hstep : decideRequest isSysMeta name none q = some h) : Clocked h := by
  cases q with
  | put m =>
    rw [decideRequest_put] at hstep
    split at hstep
    · contradiction
    · obtain rfl := Option.some.inj hstep
      exact @clocked_put _ none (fun k hk => by contradiction) _ _ fun _ => hq
  | delete m =>
    rw [decideRequest_delete] at hstep
    split at hstep
    · contradiction
    · obtain rfl := Option.some.inj hstep
      exact @clocked_put _ none (fun k hk => by contradiction) _ _ fun hlive => by contradiction
  | post p => contradiction

/-- A name that something holds is held from then on. -/
theorem clocked_run {h : Held} (hc : Clocked h) {requests : List Request}
    (hreq : ∀ q ∈ requests, Typed q) :
    ∃ h', run isSysMeta name (some h) requests = some h' ∧ Clocked h' ∧
      Follows h.blob h'.blob := by
  induction requests generalizing h with
  | nil => exact ⟨h, rfl, hc, follows_refl _⟩
  | cons q rest ih =>
    have hstep : ∃ k, decideRequest isSysMeta name (some h) q = some k := by
      cases q with
      | put m =>
        rw [decideRequest_put]
        split <;> exact ⟨_, rfl⟩
      | delete m =>
        rw [decideRequest_delete]
        split <;> exact ⟨_, rfl⟩
      | post p =>
        simp only [decideRequest, deviceWriteMetadata]
        split <;> exact ⟨_, rfl⟩
    obtain ⟨k, hk⟩ := hstep
    obtain ⟨hclocked, hfollows⟩ := clocked_step hc (hreq q (List.mem_cons_self ..)) hk
    obtain ⟨h', hrun, hclocked', hfollows'⟩ :=
      ih hclocked fun x hx => hreq x (List.mem_cons_of_mem _ hx)
    refine ⟨h', ?_, hclocked', hfollows.trans hfollows'⟩
    rw [run_cons, hk, hrun]

theorem clocked_from_none {requests : List Request} (hreq : ∀ q ∈ requests, Typed q) {h : Held}
    (hrun : run isSysMeta name none requests = some h) : Clocked h := by
  induction requests with
  | nil => contradiction
  | cons q rest ih =>
    have hrest := fun x hx => hreq x (List.mem_cons_of_mem _ hx)
    rw [run_cons] at hrun
    cases hstep : decideRequest isSysMeta name none q with
    | none =>
      rw [hstep] at hrun
      exact ih hrest hrun
    | some k =>
      rw [hstep] at hrun
      obtain ⟨h', hrun', hclocked, -⟩ :=
        clocked_run (clocked_first (hreq q (List.mem_cons_self ..)) hstep) hrest
      obtain rfl := Option.some.inj (hrun'.symm.trans hrun)
      exact hclocked

theorem forward_of_follows {h h' : Held} (hc : Clocked h) (hc' : Clocked h')
    (hf : Follows h.blob h'.blob) : Forward isSysMeta h h' := by
  refine ⟨hf.data, fun _ _ => ?_, fun hlive hlive' => ?_, hc'.later⟩
  · rw [get_metaTs, get_metaTs]
    exact hf.posted
  · rw [get_typeTs (hc.live hlive), get_typeTs (hc'.live hlive')]
    exact hf.typed

/-- Any two versions along any sequence of decisions on a name. -/
theorem clocks_forward (isSysMeta : String → Bool) (name : EngineObjects.Name)
    (before between : List Request) (hreq : ∀ q ∈ before ++ between, Typed q) {h : Held}
    (hrun : run isSysMeta name none before = some h) :
    ∃ h', run isSysMeta name none (before ++ between) = some h' ∧ Forward isSysMeta h h' := by
  have hc := clocked_from_none (fun q hq => hreq q (List.mem_append_left _ hq)) hrun
  obtain ⟨h', hrun', hc', hf⟩ :=
    clocked_run hc fun q hq => hreq q (List.mem_append_right _ hq)
  refine ⟨h', ?_, forward_of_follows hc hc' hf⟩
  rw [run_append, hrun, hrun']

/-- A POST of a type later than the tombstone and the PUT after it. -/
theorem clocks_forward_recreated :
    let put := fun tick => Section.mk ⟨tick, 0⟩ (some "text/plain") none ∅
    let posted := Section.mk ⟨9, 1⟩ (some "text/html") (some ⟨8, 0⟩) ∅
    ∃ h', run (fun _ => false) "a/c/o" none
        ([.put (put 3), .post posted] ++ [.delete (.stamped ⟨5, 0⟩), .put (put 6)]) = some h' ∧
      Forward (fun _ => false) ⟨3, false, ⟨put 3, some posted⟩⟩ h' := by
  refine clocks_forward _ _ _ _ ?_ (by decide +kernel)
  have hle : Timestamp.mk 8 0 ≤ Timestamp.mk 9 1 := by decide
  simpa [Typed] using hle

end Swiftacular.NameClocks
