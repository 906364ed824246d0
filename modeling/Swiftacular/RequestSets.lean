import Swiftacular.NameDecisions
import Mathlib.Data.List.Nodup

/-!
What a set of requests leaves of a name, stated without an order: the newest
PUT or DELETE holds it, the newest POST after that gives the metadata and the
newest content type from the data on gives the type. A stored section may
keep a content type older than the data; what is shown does not.
-/
namespace Swiftacular.RequestSets

open Timestamps MetadataModel NameDecisions

/-- The PUTs and DELETEs, each with whether it deletes. -/
def writes : List Request → List (Bool × Section)
  | [] => []
  | .put m :: rest => (false, m) :: writes rest
  | .delete m :: rest => (true, m) :: writes rest
  | .post _ :: rest => writes rest

def posts : List Request → List Section
  | [] => []
  | .post m :: rest => m :: posts rest
  | .put _ :: rest => posts rest
  | .delete _ :: rest => posts rest

/-- POSTs as the object server makes them: the content type comes with its
own timestamp, and a timestamp stands for one content. -/
structure PostsAgree (sections : List Section) : Prop where
  typed : ∀ p ∈ sections, p.contentType.isSome ↔ p.contentTypeTimestamp.isSome
  type_le : ∀ p ∈ sections, ∀ t, p.contentTypeTimestamp = some t → t ≤ p.timestamp
  type_of : ∀ p ∈ sections, ∀ q ∈ sections, p.contentTypeTimestamp.isSome →
    p.contentTypeTimestamp = q.contentTypeTimestamp → p.contentType = q.contentType
  same : ∀ p ∈ sections, ∀ q ∈ sections, p.timestamp = q.timestamp → p.rest = q.rest

structure WellFormed (requests : List Request) : Prop where
  put_type : ∀ m, Request.put m ∈ requests →
    m.contentType.isSome ∧ m.contentTypeTimestamp = none
  distinct : ((writes requests).map fun w => w.2.timestamp.tick).Nodup
  apart : ∀ p ∈ posts requests, ∀ w ∈ writes requests,
    p.timestamp.tick ≠ w.2.timestamp.tick
  agree : PostsAgree (posts requests)

/-- The section `m` is what POSTs leave beside `data`. -/
structure PostedBy (sections : List Section) (data m : Section) : Prop where
  base : ∃ p ∈ sections, p.timestamp = m.timestamp ∧ p.rest = m.rest
  newest : ∀ p ∈ sections, p.timestamp ≤ m.timestamp
  type_from : (m.contentType = none ∧ m.contentTypeTimestamp = none) ∨
    ∃ p ∈ sections, p.contentTypeTimestamp = m.contentTypeTimestamp ∧
      p.contentType = m.contentType
  type_newest : ∀ p ∈ sections, data.timestamp ≤ ctypeTimestamp p →
    ctypeTimestamp p ≤ ctypeTimestamp m

/-- `h` is what the requests leave, in whatever order they were decided. -/
structure Reflects (requests : List Request) (h : Held) : Prop where
  holder : (h.deleted, h.blob.dataSection) ∈ writes requests
  newest : ∀ w ∈ writes requests, w.2.timestamp.tick ≤ h.ts
  ts : h.ts = h.blob.dataSection.timestamp.tick
  pos : 0 < h.ts
  unposted : h.blob.metaSection = none →
    ∀ p ∈ posts requests, p.timestamp ≤ h.blob.dataSection.timestamp
  later : ∀ m, h.blob.metaSection = some m → h.blob.dataSection.timestamp < m.timestamp
  posted : ∀ m, h.blob.metaSection = some m →
    PostedBy (posts requests) h.blob.dataSection m

/-- What is compared: deleted or not, the data section, and for a live name
the merged metadata with the timestamps a read reports. -/
structure Shown where
  deleted : Bool
  dataSection : Section
  live : Option (Section × Timestamp × Timestamp × Timestamp)
  deriving DecidableEq

def shown (isSysMeta : String → Bool) (h : Held) : Shown :=
  let metadata := get isSysMeta h.blob
  { deleted := h.deleted
    dataSection := metadata.dataSection
    live := if h.deleted then none
      else some (metadata.merged, metadata.metaTs, metadata.dataTs, metadata.typeTs) }

variable {isSysMeta : String → Bool}

theorem mem_writes_put {requests : List Request} {m : Section} :
    (false, m) ∈ writes requests ↔ Request.put m ∈ requests := by
  induction requests with
  | nil => simp [writes]
  | cons r rest ih => cases r <;> simp [writes, ih]

theorem writes_append (left right : List Request) :
    writes (left ++ right) = writes left ++ writes right := by
  induction left with
  | nil => rfl
  | cons r rest ih => cases r <;> simp [writes, ih]

theorem posts_append (left right : List Request) :
    posts (left ++ right) = posts left ++ posts right := by
  induction left with
  | nil => rfl
  | cons r rest ih => cases r <;> simp [posts, ih]

theorem writes_perm {left right : List Request} (h : left.Perm right) :
    (writes left).Perm (writes right) := by
  induction h with
  | nil => exact List.Perm.refl _
  | cons r _ ih => cases r <;> simp [writes, ih]
  | swap a b rest =>
    cases a <;> cases b <;> first | exact List.Perm.refl _ | exact List.Perm.swap ..
  | trans _ _ ih1 ih2 => exact ih1.trans ih2

theorem posts_perm {left right : List Request} (h : left.Perm right) :
    (posts left).Perm (posts right) := by
  induction h with
  | nil => exact List.Perm.refl _
  | cons r _ ih => cases r <;> simp [posts, ih]
  | swap a b rest =>
    cases a <;> cases b <;> first | exact List.Perm.refl _ | exact List.Perm.swap ..
  | trans _ _ ih1 ih2 => exact ih1.trans ih2

/-- What is asked of the requests and what they leave depend on no order. -/
theorem wellFormed_perm {left right : List Request} (h : WellFormed left)
    (hperm : left.Perm right) : WellFormed right := by
  have hposts : ∀ {p}, p ∈ posts right → p ∈ posts left := (posts_perm hperm).mem_iff.mpr
  refine ⟨fun m hm => h.put_type m (hperm.mem_iff.mpr hm),
    ((writes_perm hperm).map _).nodup_iff.mp h.distinct,
    fun p hp w hw => h.apart p (hposts hp) w ((writes_perm hperm).mem_iff.mpr hw), ?_⟩
  exact ⟨fun p hp => h.agree.typed p (hposts hp), fun p hp => h.agree.type_le p (hposts hp),
    fun p hp q hq => h.agree.type_of p (hposts hp) q (hposts hq),
    fun p hp q hq => h.agree.same p (hposts hp) q (hposts hq)⟩

/-- Requests that are well formed are so from the start. -/
theorem wellFormed_left {left right : List Request} (h : WellFormed (left ++ right)) :
    WellFormed left := by
  have hposts : ∀ {p}, p ∈ posts left → p ∈ posts (left ++ right) := by
    intro p hp
    rw [posts_append]
    exact List.mem_append_left _ hp
  have hwrites : (writes left).Sublist (writes (left ++ right)) := by
    rw [writes_append]
    exact List.sublist_append_left _ _
  refine ⟨fun m hm => h.put_type m (List.mem_append_left _ hm),
    h.distinct.sublist (hwrites.map _),
    fun p hp w hw => h.apart p (hposts hp) w (hwrites.subset hw), ?_⟩
  exact ⟨fun p hp => h.agree.typed p (hposts hp), fun p hp => h.agree.type_le p (hposts hp),
    fun p hp q hq => h.agree.type_of p (hposts hp) q (hposts hq),
    fun p hp q hq => h.agree.same p (hposts hp) q (hposts hq)⟩

theorem reflects_perm {left right : List Request} {h : Held} (hr : Reflects left h)
    (hperm : left.Perm right) : Reflects right h := by
  have hposts : ∀ {p}, p ∈ posts right ↔ p ∈ posts left := (posts_perm hperm).mem_iff.symm
  have hwrites : ∀ {w}, w ∈ writes right ↔ w ∈ writes left := (writes_perm hperm).mem_iff.symm
  refine ⟨hwrites.mpr hr.holder, fun w hw => hr.newest w (hwrites.mp hw), hr.ts, hr.pos,
    fun hnone p hp => hr.unposted hnone p (hposts.mp hp), hr.later, fun m hm => ?_⟩
  have hold := hr.posted m hm
  obtain ⟨p, hp, hpm⟩ := hold.base
  refine ⟨⟨p, hposts.mpr hp, hpm⟩, fun q hq => hold.newest q (hposts.mp hq), ?_,
    fun q hq => hold.type_newest q (hposts.mp hq)⟩
  rcases hold.type_from with hnone | ⟨q, hq, hqm⟩
  · exact Or.inl hnone
  · exact Or.inr ⟨q, hposts.mpr hq, hqm⟩

theorem ctype_le {sections : List Section} (hs : PostsAgree sections) {p : Section}
    (hp : p ∈ sections) : ctypeTimestamp p ≤ p.timestamp := by
  unfold ctypeTimestamp
  cases ht : p.contentTypeTimestamp with
  | none => exact Timestamp.zero_le _
  | some t => exact hs.type_le p hp t ht

/-- A content type timestamp that beats anything is really there. -/
theorem ctype_some {p : Section} {t : Timestamp} (h : t < ctypeTimestamp p) :
    p.contentTypeTimestamp = some (ctypeTimestamp p) := by
  unfold ctypeTimestamp at *
  cases ht : p.contentTypeTimestamp with
  | none =>
    rw [ht] at h
    exact absurd h (not_lt.mpr (Timestamp.zero_le t))
  | some u => rfl

/-- Two sections the same POSTs can leave beside the data merge alike. -/
theorem merge_unique {sections : List Section} (hs : PostsAgree sections)
    {data m m' : Section} (htype : data.contentType.isSome)
    (hpos : Timestamp.zero < data.timestamp)
    (h : PostedBy sections data m) (h' : PostedBy sections data m') :
    merge isSysMeta data m = merge isSysMeta data m' := by
  obtain ⟨p, hp, hpts, hprest⟩ := h.base
  obtain ⟨q, hq, hqts, hqrest⟩ := h'.base
  have hts : m.timestamp = m'.timestamp :=
    le_antisymm (hpts ▸ h'.newest p hp) (hqts ▸ h.newest q hq)
  have hrest : m.rest = m'.rest := by
    rw [← hprest, ← hqrest]
    exact hs.same p hp q hq (by rw [hpts, hqts, hts])
  -- the stored types may differ only below the data's own timestamp
  have hle : ∀ {a b : Section}, PostedBy sections data a → PostedBy sections data b →
      data.timestamp ≤ ctypeTimestamp a → ctypeTimestamp a ≤ ctypeTimestamp b := by
    intro a b ha hb hdata
    have hsome := ctype_some (hpos.trans_le hdata)
    rcases ha.type_from with ⟨-, hnone⟩ | ⟨r, hr, hrts, -⟩
    · simp [hnone] at hsome
    · have heq : ctypeTimestamp r = ctypeTimestamp a := by unfold ctypeTimestamp; rw [hrts]
      exact heq ▸ hb.type_newest r hr (heq ▸ hdata)
  by_cases hdata : data.timestamp ≤ ctypeTimestamp m
  · have heq : ctypeTimestamp m = ctypeTimestamp m' :=
      le_antisymm (hle h h' hdata) (hle h' h (hdata.trans (hle h h' hdata)))
    have hm := ctype_some (hpos.trans_le hdata)
    have hm' := ctype_some (hpos.trans_le (heq ▸ hdata))
    have hctt : m.contentTypeTimestamp = m'.contentTypeTimestamp := by rw [hm, hm', heq]
    have hct : m.contentType = m'.contentType := by
      rcases h.type_from with ⟨-, hnone⟩ | ⟨r, hr, hrts, hrct⟩
      · simp [hnone] at hm
      rcases h'.type_from with ⟨-, hnone⟩ | ⟨r', hr', hrts', hrct'⟩
      · simp [hnone] at hm'
      rw [← hrct, ← hrct']
      exact hs.type_of r hr r' hr' (by rw [hrts, hm]; rfl) (by rw [hrts, hrts', hctt])
    rw [Section.ext hts hct hctt hrest]
  · have hdata' : ¬ data.timestamp ≤ ctypeTimestamp m' := fun hd => hdata (hd.trans (hle h' h hd))
    unfold merge
    simp only [htype, gt_iff_lt, not_le.mp hdata, not_le.mp hdata', and_self, if_true, hts, hrest]

theorem Reflects.data_pos {requests : List Request} {h : Held} (hr : Reflects requests h) :
    Timestamp.zero < h.blob.dataSection.timestamp :=
  Timestamp.pos_of_tick (hr.ts ▸ hr.pos)

/-- Whatever reflects the same requests shows the same. -/
theorem shown_unique {requests : List Request} (hwf : WellFormed requests) {h h' : Held}
    (hr : Reflects requests h) (hr' : Reflects requests h') :
    shown isSysMeta h = shown isSysMeta h' := by
  have hts : h.ts = h'.ts := Nat.le_antisymm
    (hr.ts ▸ hr'.newest _ hr.holder) (hr'.ts ▸ hr.newest _ hr'.holder)
  have hholder : (h.deleted, h.blob.dataSection) = (h'.deleted, h'.blob.dataSection) :=
    List.inj_on_of_nodup_map hwf.distinct hr.holder hr'.holder
      (hr.ts.symm.trans (hts.trans hr'.ts))
  obtain ⟨hdel, hdata⟩ := Prod.mk.inj hholder
  unfold shown
  simp only [get_dataSection, hdel, hdata]
  congr 1
  split
  · rfl
  rename_i hlive
  have hput : h'.blob.dataSection.contentType.isSome := by
    have hmem := hr'.holder
    rw [Bool.eq_false_iff.mpr hlive] at hmem
    exact (hwf.put_type _ (mem_writes_put.mp hmem)).1
  have hget : (get isSysMeta h.blob).merged = (get isSysMeta h'.blob).merged := by
    cases hm : h.blob.metaSection with
    | none =>
      cases hm' : h'.blob.metaSection with
      | none => simp only [MetadataModel.get, hm, hm', hdata]
      | some m' =>
        obtain ⟨p, hp, hpts, -⟩ := (hr'.posted m' hm').base
        have hold := hr.unposted hm p hp
        rw [hdata, hpts] at hold
        exact absurd (hr'.later m' hm') (not_lt.mpr hold)
    | some m =>
      cases hm' : h'.blob.metaSection with
      | none =>
        obtain ⟨p, hp, hpts, -⟩ := (hr.posted m hm).base
        have hold := hr'.unposted hm' p hp
        rw [← hdata, hpts] at hold
        exact absurd (hr.later m hm) (not_lt.mpr hold)
      | some m' =>
        simp only [MetadataModel.get, hm, hm', hdata]
        exact merge_unique hwf.agree hput hr'.data_pos (hdata ▸ hr.posted m hm) (hr'.posted m' hm')
  have htype : (get isSysMeta h.blob).typeTs = (get isSysMeta h'.blob).typeTs := by
    change (get isSysMeta h.blob).merged.contentTypeTimestamp.getD h.blob.dataSection.timestamp =
      (get isSysMeta h'.blob).merged.contentTypeTimestamp.getD h'.blob.dataSection.timestamp
    rw [hget, hdata]
  have hmeta : (get isSysMeta h.blob).metaTs = (get isSysMeta h'.blob).metaTs :=
    congrArg Section.timestamp hget
  simp only [hget, htype, hmeta, get_dataTs, hdata]

end Swiftacular.RequestSets
