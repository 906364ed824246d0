import Swiftacular.ArrivalOrder
import Swiftacular.FileSelection

/-!
The blob beside Swift's own files. Both are given the same requests; the
blob folds each POST into one section, the files keep up to two. After every
request they show the same, unless the type of the newest POSTs carries the
very timestamp of the PUT that holds the name: the files then show the PUT's
type and the blob the POST's.
-/
namespace Swiftacular.FileAgreement

open EngineObjects Timestamps MetadataModel NameDecisions RequestSets OndiskFiles FileSelection

variable (dir : Directory) (isSysMeta : String → Bool) (name : Name)

/-- A request as Swift's own DiskFile takes it. -/
def decideFiles (files : List File) : Request → List File
  | .put m => writerPut dir name .data m files
  | .delete m => diskFileDelete dir name m.timestamp files
  | .post m => diskFileWriteMetadata dir name m files

def runFiles (requests : List Request) : List File := requests.foldl (decideFiles dir name) []

/-- What a name shows: the merged metadata without the name, and the three
timestamps a DiskFile reports. -/
inductive View
  | missing
  | deleted
  | broken
  | live (metadata : Section) (timestamp dataTimestamp contentTypeTimestamp : Timestamp)
  deriving DecidableEq

def withoutName (m : Section) : Section := { m with rest := m.rest.erase "name" }

def heldView : Option Held → View
  | none => .missing
  | some h =>
      if h.deleted then .deleted
      else
        let metadata := MetadataModel.get isSysMeta h.blob
        .live (withoutName metadata.merged) metadata.metaTs metadata.dataTs metadata.typeTs

def filesView (files : List File) : View :=
  match diskFileOpen dir isSysMeta files with
  | .ok o =>
      .live (withoutName o.metadata) o.metadata.timestamp o.datafileMetadata.timestamp
        (o.metadata.contentTypeTimestamp.getD o.datafileMetadata.timestamp)
  | .error .notExist => .missing
  | .error (.deleted _) => .deleted
  | .error .contractBroken => .broken

/-- The two models show the same after the requests. -/
def Agree (requests : List Request) : Prop :=
  heldView isSysMeta (run isSysMeta name none requests) =
    filesView dir isSysMeta (runFiles dir name requests)

instance (requests : List Request) : Decidable (Agree dir isSysMeta name requests) :=
  inferInstanceAs (Decidable (_ = _))

/-- The content type timestamp the name of a POST's file gives back. -/
def nameCtype (p : Section) : Timestamp := ctypeOrZero dir (fileOf name .posted p)

/-- The names of the `.meta` files order the types as their timestamps do. -/
structure NamesOrder (requests : List Request) : Prop where
  among : ∀ p ∈ posts requests, ∀ q ∈ posts requests,
    nameCtype dir name p < nameCtype dir name q ↔ ctypeTimestamp p < ctypeTimestamp q
  against : ∀ p ∈ posts requests, ∀ w ∈ writes requests,
    w.2.timestamp < nameCtype dir name p ↔ w.2.timestamp < ctypeTimestamp p

/-- The newest type a POST brought has the timestamp of the PUT that holds
the name, and the newest POSTs do not carry it. -/
def Tie (requests : List Request) : Prop :=
  ∃ m, (false, m) ∈ writes requests ∧
    (∀ w ∈ writes requests, w.2.timestamp.tick ≤ m.timestamp.tick) ∧
    (∃ p ∈ posts requests, ctypeTimestamp p = m.timestamp) ∧
    (∀ p ∈ posts requests, ctypeTimestamp p ≤ m.timestamp) ∧
    ∀ p ∈ posts requests, (∀ q ∈ posts requests, q.timestamp ≤ p.timestamp) →
      ctypeTimestamp p < m.timestamp

variable {dir isSysMeta name}

/-- `p` brings an older type than `q`, or the same in a POST no newer. -/
def TypedBefore (p q : Section) : Prop :=
  ctypeTimestamp p < ctypeTimestamp q ∨
    ctypeTimestamp p = ctypeTimestamp q ∧ p.timestamp ≤ q.timestamp

theorem TypedBefore.le {p q : Section} (h : TypedBefore p q) :
    ctypeTimestamp p ≤ ctypeTimestamp q := by
  rcases h with h | h
  · exact h.le
  · exact h.1.le

theorem TypedBefore.trans {p q r : Section} (h : TypedBefore p q) (h' : TypedBefore q r) :
    TypedBefore p r := by
  rcases h with h | ⟨h, hts⟩
  · exact Or.inl (h.trans_le h'.le)
  · rcases h' with h' | ⟨h', hts'⟩
    · exact Or.inl (h ▸ h')
    · exact Or.inr ⟨h.trans h', hts.trans hts'⟩

theorem typedBefore_refl (p : Section) : TypedBefore p p := Or.inr ⟨rfl, le_refl _⟩

def writeFile (name : Name) (w : Bool × Section) : File :=
  if w.1 then fileOf name .ts (Section.stamped w.2.timestamp) else fileOf name .data w.2

@[simp] theorem fileOf_timestamp (ext : Ext) (m : Section) :
    (fileOf name ext m).timestamp = m.timestamp := rfl

@[simp] theorem fileOf_ext (ext : Ext) (m : Section) :
    (fileOf name ext m).filename.ext = ext := rfl

variable (name) in
@[simp] theorem writeFile_timestamp (w : Bool × Section) :
    (writeFile name w).timestamp = w.2.timestamp := by
  unfold writeFile
  split <;> rfl

variable (name) in
theorem writeFile_ext (w : Bool × Section) : (writeFile name w).filename.ext ≠ .posted := by
  unfold writeFile
  split <;> simp

/-- The directory has, of the requests so far, the PUT or DELETE that counts
and among the POSTs' files those that still show. -/
structure Linked (dir : Directory) (name : Name) (decided : List Request) (w : Bool × Section)
    (files : List File) : Prop where
  member : w ∈ writes decided
  top : ∀ v ∈ writes decided, v.2.timestamp.tick ≤ w.2.timestamp.tick
  holder : Newest (writeFile name w) files
  names : (files.map File.filename).Nodup
  posted : ∀ f ∈ files, f.filename.ext = .posted → ∃ p ∈ posts decided, f = fileOf name .posted p
  latest : ∀ p ∈ posts decided, w.2.timestamp < p.timestamp →
    ∃ q ∈ posts decided, fileOf name .posted q ∈ files ∧ p.timestamp ≤ q.timestamp
  ctype : ∀ p ∈ posts decided, w.2.timestamp ≤ ctypeTimestamp p →
    ∃ q ∈ posts decided, fileOf name .posted q ∈ files ∧ TypedBefore p q

theorem NamesOrder.eq_iff {decided : List Request} (h : NamesOrder dir name decided)
    {p q : Section} (hp : p ∈ posts decided) (hq : q ∈ posts decided) :
    nameCtype dir name p = nameCtype dir name q ↔ ctypeTimestamp p = ctypeTimestamp q := by
  constructor
  · intro heq
    exact le_antisymm (not_lt.mp fun hlt => ((h.among q hq p hp).mpr hlt).ne' heq)
      (not_lt.mp fun hlt => ((h.among p hp q hq).mpr hlt).ne heq)
  · intro heq
    exact le_antisymm (not_lt.mp fun hlt => ((h.among q hq p hp).mp hlt).ne' heq)
      (not_lt.mp fun hlt => ((h.among p hp q hq).mp hlt).ne heq)

theorem mem_link {file f : File} {files : List File} :
    f ∈ link file files ↔ f = file ∨ f ∈ files ∧ f.filename ≠ file.filename := by
  simp [link, List.mem_filter]

theorem link_nodup {file : File} {files : List File} (h : (files.map File.filename).Nodup) :
    ((link file files).map File.filename).Nodup := by
  rw [link, List.map_cons, List.nodup_cons]
  constructor
  · intro hmem
    obtain ⟨f, hf, heq⟩ := List.mem_map.mp hmem
    exact absurd heq (by simpa using (List.mem_filter.mp hf).2)
  · exact h.sublist (List.Sublist.map _ List.filter_sublist)

/-- A `.data` or `.ts` file beside those of other ticks. -/
theorem linked_write {decided : List Request} {w v : Bool × Section} {files : List File}
    (hl : Linked dir name decided w files) {r : Request} (hw : writes [r] = [v])
    (hp : posts [r] = []) (hne : v.2.timestamp.tick ≠ w.2.timestamp.tick) :
    ∃ w', Linked dir name (decided ++ [r]) w' (link (writeFile name v) files) := by
  have hposts : posts (decided ++ [r]) = posts decided := by
    rw [posts_append, hp, List.append_nil]
  have hwrites : writes (decided ++ [r]) = writes decided ++ [v] := by
    rw [writes_append, hw]
  have hkeep : ∀ q, fileOf name .posted q ∈ files →
      fileOf name .posted q ∈ link (writeFile name v) files := by
    intro q hq
    refine mem_link.mpr (Or.inr ⟨hq, fun heq => writeFile_ext name v ?_⟩)
    rw [← heq, fileOf_ext]
  have hposted : ∀ f ∈ link (writeFile name v) files, f.filename.ext = .posted →
      ∃ p ∈ posts decided, f = fileOf name .posted p := by
    intro f hf hext
    rcases mem_link.mp hf with rfl | ⟨hf, -⟩
    · exact absurd hext (writeFile_ext _ v)
    · exact hl.posted f hf hext
  have hothers : ∀ f ∈ link (writeFile name v) files, f.filename.ext ≠ .posted →
      f = writeFile name v ∨ f = writeFile name w ∨ f.timestamp < w.2.timestamp := by
    intro f hf hext
    rcases mem_link.mp hf with rfl | ⟨hf, -⟩
    · exact Or.inl rfl
    · by_cases heq : f = writeFile name w
      · exact Or.inr (Or.inl heq)
      · exact Or.inr (Or.inr (writeFile_timestamp name w ▸ hl.holder.older f hf hext heq))
  by_cases hlt : w.2.timestamp.tick < v.2.timestamp.tick
  · have hlater : w.2.timestamp < v.2.timestamp := Timestamp.lt_of_tick hlt
    refine ⟨v, ?_, ?_, ⟨mem_link.mpr (Or.inl rfl), writeFile_ext _ v, ?_⟩, link_nodup hl.names,
      by rwa [hposts], ?_, ?_⟩
    · rw [hwrites]
      exact List.mem_append_right _ (List.mem_singleton_self _)
    · intro u hu
      rw [hwrites, List.mem_append, List.mem_singleton] at hu
      rcases hu with hu | rfl
      · exact (hl.top u hu).trans hlt.le
      · exact le_refl _
    · intro f hf hext hne
      rw [writeFile_timestamp]
      rcases hothers f hf hext with rfl | rfl | hold
      · exact absurd rfl hne
      · rwa [writeFile_timestamp]
      · exact hold.trans hlater
    · rw [hposts]
      intro p hp hlt'
      obtain ⟨q, hq, hmem, hle⟩ := hl.latest p hp (hlater.trans hlt')
      exact ⟨q, hq, hkeep q hmem, hle⟩
    · rw [hposts]
      intro p hp hle
      obtain ⟨q, hq, hmem, hle'⟩ := hl.ctype p hp (hlater.le.trans hle)
      exact ⟨q, hq, hkeep q hmem, hle'⟩
  · have hearlier : v.2.timestamp < w.2.timestamp := Timestamp.lt_of_tick (by omega)
    refine ⟨w, ?_, ?_, ⟨?_, writeFile_ext _ w, ?_⟩, link_nodup hl.names, by rwa [hposts], ?_, ?_⟩
    · rw [hwrites]
      exact List.mem_append_left _ hl.member
    · intro u hu
      rw [hwrites, List.mem_append, List.mem_singleton] at hu
      rcases hu with hu | rfl
      · exact hl.top u hu
      · omega
    · refine mem_link.mpr (Or.inr ⟨hl.holder.mem, fun heq => hearlier.ne ?_⟩)
      have hts : (writeFile name w).timestamp = (writeFile name v).timestamp :=
        congrArg FileName.timestamp heq
      rw [writeFile_timestamp, writeFile_timestamp] at hts
      exact hts.symm
    · intro f hf hext hne
      rw [writeFile_timestamp]
      rcases hothers f hf hext with rfl | rfl | hold
      · rwa [writeFile_timestamp]
      · exact absurd rfl hne
      · exact hold
    · rw [hposts]
      intro p hp hlt'
      obtain ⟨q, hq, hmem, hle⟩ := hl.latest p hp hlt'
      exact ⟨q, hq, hkeep q hmem, hle⟩
    · rw [hposts]
      intro p hp hle
      obtain ⟨q, hq, hmem, hle'⟩ := hl.ctype p hp hle
      exact ⟨q, hq, hkeep q hmem, hle'⟩

/-- A `.meta` file beside the others, or in the place of one that says the same. -/
theorem linked_post {decided : List Request} {w : Bool × Section} {files : List File}
    (hl : Linked dir name decided w files) {p : Section}
    (hnames : NamesOrder dir name (decided ++ [.post p])) :
    Linked dir name (decided ++ [.post p]) w (link (fileOf name .posted p) files) := by
  have hposts : posts (decided ++ [.post p]) = posts decided ++ [p] := posts_append ..
  have hwrites : writes (decided ++ [.post p]) = writes decided := by
    rw [writes_append]
    exact List.append_nil _
  have hp : p ∈ posts (decided ++ [.post p]) := by rw [hposts]; simp
  have hwiden : ∀ q ∈ posts decided, q ∈ posts (decided ++ [.post p]) := by
    intro q hq
    rw [hposts]
    exact List.mem_append_left _ hq
  -- a file of the same name has the same timestamps
  have hkeep : ∀ q ∈ posts decided, fileOf name .posted q ∈ files →
      ∃ q' ∈ posts (decided ++ [.post p]),
        fileOf name .posted q' ∈ link (fileOf name .posted p) files ∧
        q.timestamp ≤ q'.timestamp ∧ TypedBefore q q' := by
    intro q hq hmem
    by_cases hsame : (fileOf name .posted q).filename = (fileOf name .posted p).filename
    · have hts : q.timestamp = p.timestamp := congrArg FileName.timestamp hsame
      have hct : nameCtype dir name q = nameCtype dir name p := by
        unfold nameCtype ctypeOrZero ctypeOf File.timestamp
        rw [hsame]
      have heq := (hnames.eq_iff (hwiden q hq) hp).mp hct
      exact ⟨p, hp, mem_link.mpr (Or.inl rfl), hts.le, Or.inr ⟨heq, hts.le⟩⟩
    · exact ⟨q, hwiden q hq, mem_link.mpr (Or.inr ⟨hmem, hsame⟩), le_refl _, typedBefore_refl q⟩
  refine ⟨hwrites ▸ hl.member, hwrites ▸ hl.top, ⟨?_, writeFile_ext _ w, ?_⟩, link_nodup hl.names,
    ?_, ?_, ?_⟩
  · refine mem_link.mpr (Or.inr ⟨hl.holder.mem, fun heq => writeFile_ext name w ?_⟩)
    rw [heq, fileOf_ext]
  · intro f hf hext hne
    rcases mem_link.mp hf with rfl | ⟨hf, -⟩
    · exact absurd (fileOf_ext _ _) hext
    · exact hl.holder.older f hf hext hne
  · intro f hf hext
    rcases mem_link.mp hf with rfl | ⟨hf, -⟩
    · exact ⟨p, hp, rfl⟩
    · obtain ⟨q, hq, rfl⟩ := hl.posted f hf hext
      exact ⟨q, hwiden q hq, rfl⟩
  · intro q hq hlt
    rw [hposts, List.mem_append, List.mem_singleton] at hq
    rcases hq with hq | rfl
    · obtain ⟨s, hs, hmem, hle⟩ := hl.latest q hq hlt
      obtain ⟨s', hs', hmem', hle', -⟩ := hkeep s hs hmem
      exact ⟨s', hs', hmem', hle.trans hle'⟩
    · exact ⟨q, hp, mem_link.mpr (Or.inl rfl), le_refl _⟩
  · intro q hq hle
    rw [hposts, List.mem_append, List.mem_singleton] at hq
    rcases hq with hq | rfl
    · obtain ⟨s, hs, hmem, hle'⟩ := hl.ctype q hq hle
      obtain ⟨s', hs', hmem', -, hle''⟩ := hkeep s hs hmem
      exact ⟨s', hs', hmem', hle'.trans hle''⟩
    · exact ⟨q, hp, mem_link.mpr (Or.inl rfl), typedBefore_refl q⟩

/-- The files kept beside the holder `w`, by the POSTs they are of: the
newest POST, and with it the one of the newest type from the holder on. -/
inductive KeptPosts (name : Name) (sections : List Section) (w : Bool × Section) :
    List File → Prop
  | none (hold : ∀ p ∈ sections, p.timestamp < w.2.timestamp) : KeptPosts name sections w []
  | one (a : Section) (ha : a ∈ sections) (hlater : w.2.timestamp < a.timestamp)
      (hnewest : ∀ p ∈ sections, p.timestamp ≤ a.timestamp)
      (hctype : ∀ p ∈ sections, w.2.timestamp ≤ ctypeTimestamp p → TypedBefore p a) :
      KeptPosts name sections w [fileOf name .posted a]
  | two (a b : Section) (ha : a ∈ sections) (hb : b ∈ sections)
      (hlater : w.2.timestamp < a.timestamp) (hne : b.timestamp ≠ a.timestamp)
      (hbefore : ctypeTimestamp a < ctypeTimestamp b)
      (hnewest : ∀ p ∈ sections, p.timestamp ≤ a.timestamp)
      (hctype : ∀ p ∈ sections, w.2.timestamp ≤ ctypeTimestamp p → TypedBefore p b) :
      KeptPosts name sections w [fileOf name .posted a, fileOf name .posted b]

theorem kept_posts {decided : List Request} {w : Bool × Section} {files kept : List File}
    (hl : Linked dir name decided w files) (hwf : WellFormed decided)
    (hnames : NamesOrder dir name decided)
    (hk : Kept dir (fun f => (writeFile name w).timestamp < f.timestamp)
      (files.filter fun f => f.filename.ext = .posted) kept) :
    KeptPosts name (posts decided) w kept := by
  simp only [writeFile_timestamp] at hk
  have hpost : ∀ {f}, f ∈ files.filter (fun f => f.filename.ext = .posted) →
      ∃ p ∈ posts decided, f = fileOf name .posted p := by
    intro f hf
    obtain ⟨hf, hext⟩ := List.mem_filter.mp hf
    exact hl.posted f hf (of_decide_eq_true hext)
  have hfile : ∀ {p}, fileOf name .posted p ∈ files →
      fileOf name .posted p ∈ files.filter (fun f => f.filename.ext = .posted) :=
    fun hp => List.mem_filter.mpr ⟨hp, by simp⟩
  have hle : ∀ {p q}, p ∈ posts decided → q ∈ posts decided →
      nameCtype dir name p ≤ nameCtype dir name q → ctypeTimestamp p ≤ ctypeTimestamp q :=
    fun hp hq h => not_lt.mp fun hlt => absurd ((hnames.among _ hq _ hp).mpr hlt) (not_lt.mpr h)
  have hapart : ∀ p ∈ posts decided, ¬ w.2.timestamp < p.timestamp →
      p.timestamp < w.2.timestamp := by
    intro p hp hnot
    exact Timestamp.lt_of_tick (Nat.lt_of_le_of_ne (Timestamp.tick_le (not_lt.mp hnot))
      (hwf.apart p hp w hl.member))
  have hnewest : ∀ a : Section, w.2.timestamp < a.timestamp →
      (∀ f ∈ files.filter (fun f => f.filename.ext = .posted), f.timestamp ≤ a.timestamp) →
      ∀ p ∈ posts decided, p.timestamp ≤ a.timestamp := by
    intro a hlater hall p hp
    by_cases hnew : w.2.timestamp < p.timestamp
    · obtain ⟨q, -, hmem, hpq⟩ := hl.latest p hp hnew
      exact hpq.trans (hall _ (hfile hmem))
    · exact (hapart p hp hnew).le.trans hlater.le
  have hctype : ∀ b ∈ posts decided,
      (∀ f ∈ files.filter (fun f => f.filename.ext = .posted),
        TypeLe dir f (fileOf name .posted b) ∨
        ∃ c ∈ files.filter (fun f => f.filename.ext = .posted),
          ¬ w.2.timestamp < c.timestamp ∧ ctypeOrZero dir f ≤ ctypeOrZero dir c) →
      ∀ p ∈ posts decided, w.2.timestamp ≤ ctypeTimestamp p → TypedBefore p b := by
    intro b hb hall p hp hfrom
    obtain ⟨q, hq, hmem, hpq⟩ := hl.ctype p hp hfrom
    rcases hall _ (hfile hmem) with (hqb | ⟨hqb, hts⟩) | ⟨c, hc, hnot, hqc⟩
    · exact hpq.trans (Or.inl ((hnames.among q hq b hb).mp hqb))
    · exact hpq.trans (Or.inr ⟨(hnames.eq_iff hq hb).mp hqb, hts⟩)
    · obtain ⟨s, hs, rfl⟩ := hpost hc
      have hold : ctypeTimestamp q < w.2.timestamp :=
        ((hle hq hs hqc).trans (ctype_le hwf.agree hs)).trans_lt (hapart s hs hnot)
      exact absurd (hfrom.trans hpq.le) (not_le.mpr hold)
  cases hk with
  | none hold =>
    refine KeptPosts.none fun p hp => hapart p hp fun hlater => ?_
    obtain ⟨q, -, hmem, hpq⟩ := hl.latest p hp hlater
    exact hold _ (hfile hmem) (hlater.trans_le hpq)
  | one a ha hlater hnew hct =>
    obtain ⟨p, hp, rfl⟩ := hpost ha
    exact KeptPosts.one p hp hlater (hnewest p hlater hnew) (hctype p hp hct)
  | two a b ha hb hlater _ hne hbefore hnew hct =>
    obtain ⟨p, hp, rfl⟩ := hpost ha
    obtain ⟨q, hq, rfl⟩ := hpost hb
    exact KeptPosts.two p q hp hq hlater hne ((hnames.among p hp q hq).mp hbefore)
      (hnewest p hlater hnew) (hctype q hq hct)

/-- Cleaning up removes nothing that still shows. -/
theorem linked_cleanup {decided : List Request} {w : Bool × Section} {files : List File}
    (hl : Linked dir name decided w files) (hwf : WellFormed decided)
    (hnames : NamesOrder dir name decided) :
    Linked dir name decided w (cleanupOndiskFiles dir files) := by
  obtain ⟨hholder, kept, hk, hkept⟩ := cleanup_keeps hl.holder hl.names
  have hsub : ∀ f ∈ cleanupOndiskFiles dir files, f ∈ files :=
    fun f hf => List.mem_of_mem_filter hf
  have hposts := kept_posts hl hwf hnames hk
  refine ⟨hl.member, hl.top,
    ⟨hholder, writeFile_ext _ w, fun f hf => hl.holder.older f (hsub f hf)⟩,
    hl.names.sublist (List.Sublist.map _ List.filter_sublist),
    fun f hf => hl.posted f (hsub f hf), ?_, ?_⟩
  · intro p hp hlater
    cases hposts with
    | none hold => exact absurd hlater (not_lt.mpr (hold p hp).le)
    | one a ha _ hnewest _ => exact ⟨a, ha, hkept _ (by simp), hnewest p hp⟩
    | two a b ha _ _ _ _ hnewest _ => exact ⟨a, ha, hkept _ (by simp), hnewest p hp⟩
  · intro p hp hfrom
    cases hposts with
    | none hold =>
      exact absurd (hfrom.trans (ctype_le hwf.agree hp)) (not_le.mpr (hold p hp))
    | one a ha _ _ hctype => exact ⟨a, ha, hkept _ (by simp), hctype p hp hfrom⟩
    | two a b _ hb _ _ _ _ hctype => exact ⟨b, hb, hkept _ (by simp), hctype p hp hfrom⟩

/-! What an open shows of a linked directory. -/

def named (name : Name) (m : Section) : Section := { m with rest := m.rest.insert "name" name }

def liveView (m : Section) (data : Timestamp) : View :=
  .live (withoutName m) m.timestamp data (m.contentTypeTimestamp.getD data)

theorem erase_insert (d : Dict) (key value : String) :
    (d.insert key value).erase key = d.erase key := by
  apply Std.ExtTreeMap.ext_getElem?
  intro a
  simp only [Std.ExtTreeMap.getElem?_erase, Std.ExtTreeMap.getElem?_insert]
  split <;> simp_all

theorem erase_union (d e : Dict) (keep : String → String → Bool) (key value : String) :
    (d.insert key value ∪ (e.insert key value).filter keep).erase key =
      (d ∪ e.filter keep).erase key := by
  apply Std.ExtTreeMap.ext_getElem?
  intro a
  simp only [Std.ExtTreeMap.getElem?_erase, Std.ExtTreeMap.getElem?_union,
    Std.ExtTreeMap.getElem?_filter, Std.ExtTreeMap.getElem?_insert]
  split <;> simp_all

theorem liveView_named (m : Section) (data : Timestamp) :
    liveView (named name m) data = liveView m data := by
  simp only [liveView, withoutName, named, erase_insert]

/-- The two ways to merge agree on what they are given alike. -/
theorem constructed {m s : Section} (hpos : Timestamp.zero < m.timestamp) {metaFile : File}
    {ctypeFile : Option File}
    (hs : metafileMetadata m.timestamp metaFile ctypeFile = named name s) :
    let o := constructFromDataFile isSysMeta (named name m) (some metaFile) ctypeFile
    liveView o.metadata o.datafileMetadata.timestamp =
      liveView (merge isSysMeta m s) m.timestamp := by
  have hs' : metafileMetadata (named name m).timestamp metaFile ctypeFile = named name s := hs
  simp only [constructFromDataFile, hs']
  have hiff : (s.contentTypeTimestamp.all (m.timestamp > ·)) = true ↔
      m.timestamp > ctypeTimestamp s := by
    unfold ctypeTimestamp
    cases s.contentTypeTimestamp with
    | none => simpa using hpos
    | some t => simp
  unfold merge
  by_cases htype : m.contentType.isSome ∧ m.timestamp > ctypeTimestamp s
  · rw [if_pos htype, if_pos ⟨htype.1, hiff.mpr htype.2⟩]
    simp only [liveView, withoutName, named, erase_union]
  · rw [if_neg htype, if_neg fun h => htype ⟨h.1, hiff.mp h.2⟩]
    simp only [liveView, withoutName, named, erase_union]

theorem filesView_deleted {decided : List Request} {m : Section} {files : List File}
    (hl : Linked dir name decided (true, m) files) :
    filesView dir isSysMeta files = .deleted := by
  have hn := newest_perm hl.holder (dir.listdir_perm files)
  have hchosen : Chosen dir _ _ (survivors dir (dir.listdir files)) := survivors_chosen hn
  obtain ⟨hnone, hts⟩ := hchosen.ts rfl
  have hget : getOndiskFiles dir (dir.listdir files) =
      ⟨none, none, some (writeFile name (true, m)), none,
        (survivors dir (dir.listdir files)).1.obsolete⟩ := by
    simp only [getOndiskFiles, hnone, hts, List.head?_cons]
  simp only [filesView, diskFileOpen, hget]
  rfl

variable (isSysMeta) in
/-- What an open shows of a name a PUT holds. -/
theorem filesView_live {decided : List Request} {m : Section} {files : List File}
    (hl : Linked dir name decided (false, m) files) (hwf : WellFormed decided)
    (hnames : NamesOrder dir name decided) :
    ∃ kept, KeptPosts name (posts decided) (false, m) kept ∧
      let o := constructFromDataFile isSysMeta (named name m) kept.head?
        (kept.getLast?.filter fun f => (ctypeOf dir f).any (· > m.timestamp))
      filesView dir isSysMeta files = liveView o.metadata o.datafileMetadata.timestamp := by
  have hperm := dir.listdir_perm files
  have hchosen : Chosen dir _ _ (survivors dir (dir.listdir files)) :=
    survivors_chosen (newest_perm hl.holder hperm)
  obtain ⟨hsome, -⟩ := hchosen.data rfl
  refine ⟨_, kept_posts hl hwf hnames (kept_perm hchosen.posted (hperm.filter _)), ?_⟩
  have hget : getOndiskFiles dir (dir.listdir files) =
      ⟨some (writeFile name (false, m)), (survivors dir (dir.listdir files)).1.metaFiles.head?, none,
        (survivors dir (dir.listdir files)).1.metaFiles.getLast?.filter fun f =>
          (ctypeOf dir f).any (· > m.timestamp),
        (survivors dir (dir.listdir files)).1.obsolete⟩ := by
    simp only [getOndiskFiles, hsome]
    rfl
  simp only [filesView, diskFileOpen, hget]
  rfl

theorem ctypeOf_any (f : File) (t : Timestamp) :
    (ctypeOf dir f).any (· > t) = true ↔ t < ctypeOrZero dir f := by
  unfold ctypeOrZero
  cases ctypeOf dir f with
  | none => simpa using Timestamp.zero_le t
  | some u => simp

/-- A second file's type, newer than the data and than the newest POST's,
goes into what the newest one says. -/
theorem metafileMetadata_ctype {sections : List Section} (hagree : PostsAgree sections)
    {t : Timestamp} {a b : Section} (hb : b ∈ sections) (hne : b.timestamp ≠ a.timestamp)
    (hbefore : ctypeTimestamp a < ctypeTimestamp b) (htype : t < ctypeTimestamp b) :
    metafileMetadata t (fileOf name .posted a) (some (fileOf name .posted b)) =
      named name { a with
        contentType := b.contentType, contentTypeTimestamp := b.contentTypeTimestamp } := by
  have hsome := ctype_some htype
  have hfilename : (fileOf name .posted b).filename ≠ (fileOf name .posted a).filename :=
    fun heq => hne (congrArg FileName.timestamp heq)
  have hct : b.contentType.isSome := (hagree.typed b hb).mpr (by rw [hsome]; rfl)
  have hlater : laterText b.contentTypeTimestamp a.contentTypeTimestamp = true := by
    rw [hsome]
    cases ha : a.contentTypeTimestamp with
    | none => rfl
    | some u =>
      have hu : ctypeTimestamp a = u := by simp [ctypeTimestamp, ha]
      simpa [laterText, hu] using hbefore
  have hnew : b.contentTypeTimestamp.any (· > t) = true := by
    rw [hsome]
    simpa using htype
  have hall : (fileOf name .posted b).metadata.contentType.isSome = true ∧
      laterText (fileOf name .posted b).metadata.contentTypeTimestamp
        (fileOf name .posted a).metadata.contentTypeTimestamp = true ∧
      (fileOf name .posted b).metadata.contentTypeTimestamp.any (· > t) = true :=
    ⟨hct, hlater, hnew⟩
  simp only [metafileMetadata]
  rw [if_pos hfilename, mergeContentTypeMetadata, if_pos hall]
  rfl

/-- The tie is with the PUT that holds the name. -/
theorem tie_holder {decided : List Request} (hwf : WellFormed decided) {w : Bool × Section}
    (hw : w ∈ writes decided) (htop : ∀ v ∈ writes decided, v.2.timestamp.tick ≤ w.2.timestamp.tick)
    (ht : Tie decided) :
    w.1 = false ∧ (∃ p ∈ posts decided, ctypeTimestamp p = w.2.timestamp) ∧
      (∀ p ∈ posts decided, ctypeTimestamp p ≤ w.2.timestamp) ∧
      ∀ p ∈ posts decided, (∀ q ∈ posts decided, q.timestamp ≤ p.timestamp) →
        ctypeTimestamp p < w.2.timestamp := by
  obtain ⟨m, hm, hmtop, hsome, hall, hnewest⟩ := ht
  have heq : w = (false, m) := List.inj_on_of_nodup_map hwf.distinct hw hm
    (Nat.le_antisymm (hmtop w hw) (htop _ hm))
  subst heq
  exact ⟨rfl, hsome, hall, hnewest⟩

variable (isSysMeta) in
/-- A PUT's files show the PUT alone, or what POSTs leave beside it; and in a
tie the newest POST without its type. -/
theorem filesView_shown {decided : List Request} {m : Section} {files : List File}
    (hl : Linked dir name decided (false, m) files) (hwf : WellFormed decided)
    (hnames : NamesOrder dir name decided) (hpos : Timestamp.zero < m.timestamp) :
    (filesView dir isSysMeta files = liveView m m.timestamp ∧ ¬ Tie decided ∧
      ∀ p ∈ posts decided, p.timestamp < m.timestamp) ∨
    ∃ s, filesView dir isSysMeta files = liveView (merge isSysMeta m s) m.timestamp ∧
      (∃ p ∈ posts decided, m.timestamp < p.timestamp) ∧
      (PostedBy (posts decided) m s ∧ ¬ Tie decided ∨
        ctypeTimestamp s < m.timestamp ∧ Tie decided) := by
  obtain ⟨kept, hkept, hview⟩ := filesView_live isSysMeta hl hwf hnames
  have htie : Tie decided → (∃ p ∈ posts decided, ctypeTimestamp p = m.timestamp) ∧
      (∀ p ∈ posts decided, ctypeTimestamp p ≤ m.timestamp) ∧
      ∀ p ∈ posts decided, (∀ q ∈ posts decided, q.timestamp ≤ p.timestamp) →
        ctypeTimestamp p < m.timestamp := fun ht => (tie_holder hwf hl.member hl.top ht).2
  cases hkept with
  | none hold =>
    refine Or.inl ⟨hview.trans (liveView_named m m.timestamp), fun ht => ?_, hold⟩
    obtain ⟨⟨p, hp, hpm⟩, -, -⟩ := htie ht
    exact absurd (ctype_le hwf.agree hp) (not_le.mpr (hpm ▸ hold p hp))
  | one a ha hlater hnewest hctype =>
    have hfile : metafileMetadata m.timestamp (fileOf name .posted a)
        ((some (fileOf name .posted a)).filter fun f => (ctypeOf dir f).any (· > m.timestamp)) =
        named name a := by
      rw [Option.filter_some]
      split
      · simp only [metafileMetadata, ne_eq, not_true_eq_false, if_false]
        rfl
      · rfl
    refine Or.inr ⟨a, hview.trans (constructed hpos hfile), ⟨a, ha, hlater⟩, Or.inl ⟨?_, fun ht => ?_⟩⟩
    · exact ⟨⟨a, ha, rfl, rfl⟩, hnewest, Or.inr ⟨a, ha, rfl, rfl⟩,
        fun p hp hle => (hctype p hp hle).le⟩
    · obtain ⟨⟨p, hp, hpm⟩, -, hless⟩ := htie ht
      exact absurd ((hctype p hp hpm.ge).le.trans_lt (hless a ha hnewest)) (by simp [hpm])
  | two a b ha hb hlater hne hbefore hnewest hctype =>
    by_cases htype : m.timestamp < ctypeTimestamp b
    · let s : Section := { a with
        contentType := b.contentType, contentTypeTimestamp := b.contentTypeTimestamp }
      have hfile : metafileMetadata m.timestamp (fileOf name .posted a)
          ((some (fileOf name .posted b)).filter fun f => (ctypeOf dir f).any (· > m.timestamp)) =
          named name s := by
        rw [Option.filter_some, if_pos ((ctypeOf_any _ _).mpr
          ((hnames.against b hb _ hl.member).mpr htype))]
        exact metafileMetadata_ctype hwf.agree hb hne hbefore htype
      refine Or.inr ⟨s, hview.trans (constructed hpos hfile), ⟨a, ha, hlater⟩, Or.inl ⟨?_, fun ht => ?_⟩⟩
      · exact ⟨⟨a, ha, rfl, rfl⟩, hnewest, Or.inr ⟨b, hb, rfl, rfl⟩,
          fun p hp hle => (hctype p hp hle).le⟩
      · exact absurd ((htie ht).2.1 b hb) (not_le.mpr htype)
    · have hfile : metafileMetadata m.timestamp (fileOf name .posted a)
          ((some (fileOf name .posted b)).filter fun f => (ctypeOf dir f).any (· > m.timestamp)) =
          named name a := by
        rw [Option.filter_some, if_neg fun h => htype
          ((hnames.against b hb _ hl.member).mp ((ctypeOf_any _ _).mp h))]
        rfl
      refine Or.inr ⟨a, hview.trans (constructed hpos hfile), ⟨a, ha, hlater⟩, ?_⟩
      have hle := not_lt.mp htype
      have hold : ∀ p ∈ posts decided, ctypeTimestamp p ≤ ctypeTimestamp b ∨
          ctypeTimestamp p < m.timestamp := by
        intro p hp
        by_cases hfrom : m.timestamp ≤ ctypeTimestamp p
        · exact Or.inl (hctype p hp hfrom).le
        · exact Or.inr (not_le.mp hfrom)
      by_cases heq : ctypeTimestamp b = m.timestamp
      · refine Or.inr ⟨heq ▸ hbefore, m, hl.member, hl.top, ⟨b, hb, heq⟩, fun p hp => ?_,
          fun p hp hmost => not_le.mp fun hfrom => ?_⟩
        · rcases hold p hp with h | h
          · exact heq ▸ h
          · exact h.le
        · -- a newest POST of that type would have been kept in place of `b`
          rcases hctype p hp hfrom with hlt | ⟨-, hts⟩
          · exact absurd (hfrom.trans_lt hlt) (not_lt.mpr hle)
          · exact hne (le_antisymm (hnewest b hb) ((hmost a ha).trans hts))
      · have hlt : ctypeTimestamp b < m.timestamp := lt_of_le_of_ne hle heq
        have hnone : ∀ p ∈ posts decided, ctypeTimestamp p < m.timestamp := by
          intro p hp
          rcases hold p hp with h | h
          · exact h.trans_lt hlt
          · exact h
        refine Or.inl ⟨⟨⟨a, ha, rfl, rfl⟩, hnewest, Or.inr ⟨a, ha, rfl, rfl⟩, fun p hp hfrom => ?_⟩,
          fun ht => ?_⟩
        · exact absurd hfrom (not_le.mpr (hnone p hp))
        · obtain ⟨⟨p, hp, hpm⟩, -, -⟩ := htie ht
          exact absurd (hnone p hp) (by simp [hpm])

/-- Where the blob reflects the requests and the files are linked by them, the
two show the same exactly where there is no tie. -/
theorem agree_iff {decided : List Request} {h : Held} {w : Bool × Section} {files : List File}
    (hr : Reflects decided h) (hl : Linked dir name decided w files) (hwf : WellFormed decided)
    (hnames : NamesOrder dir name decided) :
    heldView isSysMeta (some h) = filesView dir isSysMeta files ↔ ¬ Tie decided := by
  have heq : (h.deleted, h.blob.dataSection) = w :=
    List.inj_on_of_nodup_map hwf.distinct hr.holder hl.member
      (Nat.le_antisymm (hl.top _ hr.holder) (hr.ts ▸ hr.newest w hl.member))
  have hpos := hr.data_pos
  have hlive : h.deleted = false → heldView isSysMeta (some h) =
      liveView (MetadataModel.get isSysMeta h.blob).merged h.blob.dataSection.timestamp := by
    intro hdel
    simp only [heldView, hdel, Bool.false_eq_true, if_false]
    rfl
  obtain ⟨deleted, m⟩ := w
  obtain ⟨hdel, hdata⟩ := Prod.mk.inj heq
  cases deleted with
  | true =>
    constructor
    · intro _ ht
      have hput := (tie_holder hwf hl.member hl.top ht).1
      contradiction
    · intro _
      rw [filesView_deleted hl]
      simp only [heldView, hdel, if_true]
  | false =>
    rw [hlive hdel, hdata]
    have htype : m.contentType.isSome := (hwf.put_type m (mem_writes_put.mp hl.member)).1
    rcases filesView_shown isSysMeta hl hwf hnames (hdata ▸ hpos) with
      ⟨hview, hnot, hold⟩ | ⟨s, hview, hlater, hcase⟩
    · have hnone : h.blob.metaSection = none := by
        cases hm : h.blob.metaSection with
        | none => rfl
        | some posted =>
          obtain ⟨p, hp, hpts, -⟩ := (hr.posted posted hm).base
          have hlt := hr.later posted hm
          rw [hdata, ← hpts] at hlt
          exact absurd hlt (not_lt.mpr (hold p hp).le)
      rw [hview]
      simp only [MetadataModel.get, hnone, hdata, hnot, not_false_iff]
    · obtain ⟨posted, hm⟩ : ∃ posted, h.blob.metaSection = some posted := by
        cases hm : h.blob.metaSection with
        | some posted => exact ⟨posted, rfl⟩
        | none =>
          obtain ⟨p, hp, hlt⟩ := hlater
          exact absurd (hdata ▸ hr.unposted hm p hp) (not_le.mpr hlt)
      have hpost : PostedBy (posts decided) m posted := hdata ▸ hr.posted posted hm
      have hmerged : (MetadataModel.get isSysMeta h.blob).merged = merge isSysMeta m posted := by
        simp only [MetadataModel.get, hm, hdata]
      rw [hview, hmerged]
      rcases hcase with ⟨hs, hnot⟩ | ⟨hold, ht⟩
      · rw [merge_unique hwf.agree htype (hdata ▸ hpos) hpost hs]
        exact ⟨fun _ => hnot, fun _ => rfl⟩
      · refine ⟨fun hsame => ?_, fun hnot => absurd ht hnot⟩
        obtain ⟨-, ⟨p, hp, hpm⟩, -, -⟩ := tie_holder hwf hl.member hl.top ht
        have hfrom : m.timestamp ≤ ctypeTimestamp posted := hpm ▸ hpost.type_newest p hp hpm.ge
        have hsome := ctype_some ((hdata ▸ hpos).trans_le hfrom)
        have hleft : (merge isSysMeta m posted).contentTypeTimestamp =
            some (ctypeTimestamp posted) := by
          unfold merge
          rw [if_neg fun hc => absurd hc.2 (not_lt.mpr hfrom), hsome]
        have hright : (merge isSysMeta m s).contentTypeTimestamp = none := by
          unfold merge
          rw [if_pos ⟨htype, hold⟩]
        simp only [liveView, View.live.injEq] at hsame
        have hboth := congrArg Section.contentTypeTimestamp hsame.1
        rw [withoutName, withoutName, hleft, hright] at hboth
        contradiction

theorem namesOrder_left {left right : List Request} (h : NamesOrder dir name (left ++ right)) :
    NamesOrder dir name left := by
  have hposts : ∀ {p}, p ∈ posts left → p ∈ posts (left ++ right) := by
    intro p hp
    rw [posts_append]
    exact List.mem_append_left _ hp
  refine ⟨fun p hp q hq => h.among p (hposts hp) q (hposts hq),
    fun p hp w hw => h.against p (hposts hp) w ?_⟩
  rw [writes_append]
  exact List.mem_append_left _ hw

/-- One request keeps the directory linked. -/
theorem decideFiles_linked {decided : List Request} {w : Bool × Section} {files : List File}
    (hl : Linked dir name decided w files) (r : Request) (hwf : WellFormed (decided ++ [r]))
    (hnames : NamesOrder dir name (decided ++ [r])) :
    ∃ w', Linked dir name (decided ++ [r]) w' (decideFiles dir name files r) := by
  have hne : ∀ v, writes [r] = [v] → v.2.timestamp.tick ≠ w.2.timestamp.tick := by
    intro v hv heq
    have hdistinct := hwf.distinct
    rw [writes_append, hv, List.map_append, List.nodup_append] at hdistinct
    exact hdistinct.2.2 _ (List.mem_map_of_mem hl.member) _ (by simp) heq.symm
  cases r with
  | put m =>
    obtain ⟨w', hl'⟩ := @linked_write _ _ _ _ (false, m) _ hl (.put m) rfl rfl (hne _ rfl)
    exact ⟨w', linked_cleanup hl' hwf hnames⟩
  | delete m =>
    obtain ⟨w', hl'⟩ := @linked_write _ _ _ _ (true, m) _ hl (.delete m) rfl rfl (hne _ rfl)
    exact ⟨w', linked_cleanup hl' hwf hnames⟩
  | post m => exact ⟨w, linked_cleanup (linked_post hl hnames) hwf hnames⟩

/-- A run of requests keeps the directory linked. -/
theorem foldl_linked {decided : List Request} {w : Bool × Section} {files : List File}
    (hl : Linked dir name decided w files) (requests : List Request)
    (hwf : WellFormed (decided ++ requests)) (hnames : NamesOrder dir name (decided ++ requests)) :
    ∃ w', Linked dir name (decided ++ requests) w'
      (requests.foldl (decideFiles dir name) files) := by
  induction requests generalizing decided w files with
  | nil => exact ⟨w, by rwa [List.append_nil]⟩
  | cons r rest ih =>
    have hsplit : decided ++ r :: rest = (decided ++ [r]) ++ rest := by simp
    rw [hsplit] at hwf hnames ⊢
    obtain ⟨w', hl'⟩ := decideFiles_linked hl r (wellFormed_left hwf) (namesOrder_left hnames)
    exact ih hl' hwf hnames

/-- The directory after a first PUT and any more requests. -/
theorem runFiles_linked {first : Section} {requests : List Request}
    (hwf : WellFormed (.put first :: requests))
    (hnames : NamesOrder dir name (.put first :: requests)) :
    ∃ w, Linked dir name (.put first :: requests) w (runFiles dir name (.put first :: requests)) := by
  have hstart : Linked dir name [.put first] (false, first)
      (link (fileOf name .data first) []) := by
    have hone : link (fileOf name .data first) [] = [writeFile name (false, first)] := rfl
    rw [hone]
    refine ⟨by simp [writes], by simp [writes], ⟨by simp, writeFile_ext _ _, ?_⟩, by simp, ?_, ?_, ?_⟩
    · intro f hf _ hne
      exact absurd (List.mem_singleton.mp hf) hne
    · intro f hf hext
      rw [List.mem_singleton.mp hf] at hext
      exact absurd hext (writeFile_ext _ _)
    · intro p hp
      simp [posts] at hp
    · intro p hp
      simp [posts] at hp
  have hsplit : Request.put first :: requests = [.put first] ++ requests := rfl
  have hclean := linked_cleanup hstart (wellFormed_left (hsplit ▸ hwf))
    (namesOrder_left (hsplit ▸ hnames))
  exact foldl_linked hclean requests hwf hnames

/-- After a first PUT with a positive tick, the two agree exactly without a tie. -/
theorem agree_run {first : Section} {requests : List Request}
    (hwf : WellFormed (.put first :: requests))
    (hnames : NamesOrder dir name (.put first :: requests)) (hpos : 0 < first.timestamp.tick) :
    Agree dir isSysMeta name (.put first :: requests) ↔ ¬ Tie (.put first :: requests) := by
  obtain ⟨w, hl⟩ := runFiles_linked hwf hnames
  have hheld : decideRequest isSysMeta name none (.put first) =
      some ⟨first.timestamp.tick, false, put none first⟩ := by
    have hnew : ¬ first.timestamp.tick ≤ heldTs none := Nat.not_le_of_lt hpos
    rw [decideRequest_put, if_neg hnew]
    rfl
  obtain ⟨h, hrun, hr⟩ := ArrivalOrder.run_reflects (ArrivalOrder.reflects_first hheld) requests hwf
  have hrun' : run isSysMeta name none (.put first :: requests) = some h := by
    rw [run_cons, hheld, hrun]
  unfold Agree
  rw [hrun']
  exact agree_iff hr hl hwf hnames

/-- A type whose timestamp is no PUT's makes no tie. -/
theorem not_tie {requests : List Request} (h : ∀ p ∈ posts requests, ∀ m,
    (false, m) ∈ writes requests → ctypeTimestamp p ≠ m.timestamp) : ¬ Tie requests := by
  rintro ⟨m, hm, -, ⟨p, hp, hpm⟩, -⟩
  exact h p hp m hm hpm

/-- After every step of a sequence that starts with a PUT the two show the
same, exactly where the first PUT's tick is positive and no step ends in a tie. -/
theorem file_agreement {first : Section} {requests : List Request}
    (hwf : WellFormed (.put first :: requests))
    (hnames : NamesOrder dir name (.put first :: requests)) :
    (∀ steps, steps <+: .put first :: requests → Agree dir isSysMeta name steps) ↔
      0 < first.timestamp.tick ∧ ∀ steps, steps <+: .put first :: requests → ¬ Tie steps := by
  have hbegin : ∀ {steps}, steps <+: .put first :: requests → steps ≠ [] →
      ∃ rest, steps = .put first :: rest ∧ WellFormed (.put first :: rest) ∧
        NamesOrder dir name (.put first :: rest) := by
    intro steps hsteps hne
    cases steps with
    | nil => contradiction
    | cons r rest =>
      obtain ⟨rfl, -⟩ := List.cons_prefix_cons.mp hsteps
      obtain ⟨more, hmore⟩ := hsteps
      exact ⟨rest, rfl, wellFormed_left (hmore ▸ hwf), namesOrder_left (hmore ▸ hnames)⟩
  constructor
  · intro hagree
    have hpos : 0 < first.timestamp.tick := by
      refine Nat.pos_of_ne_zero fun hzero => ?_
      obtain ⟨rest, heq, hwf1, hnames1⟩ := @hbegin [.put first] (by simp) (by simp)
      obtain rfl := (List.cons.inj heq).2
      obtain ⟨w, hl⟩ := runFiles_linked hwf1 hnames1
      obtain rfl : w = (false, first) := by simpa [writes] using hl.member
      obtain ⟨kept, -, hview⟩ := filesView_live isSysMeta hl hwf1 hnames1
      have hmissing : heldView isSysMeta (run isSysMeta name none [.put first]) = .missing := by
        rw [run_cons, decideRequest_put, if_pos (by rw [hzero]; exact Nat.zero_le _)]
        rfl
      have hsame := hagree [.put first] (by simp)
      unfold Agree at hsame
      rw [hmissing, hview] at hsame
      contradiction
    refine ⟨hpos, fun steps hsteps ht => ?_⟩
    cases hne : steps with
    | nil =>
      subst hne
      obtain ⟨m, hm, -⟩ := ht
      simp [writes] at hm
    | cons r rest =>
      obtain ⟨rest', rfl, hwf1, hnames1⟩ := hbegin hsteps (by simp [hne])
      exact (agree_run hwf1 hnames1 hpos).mp (hagree _ hsteps) ht
  · rintro ⟨hpos, hnone⟩ steps hsteps
    cases hne : steps with
    | nil =>
      have hempty : dir.listdir [] = [] := List.perm_nil.mp (dir.listdir_perm [])
      simp only [Agree, run, runFiles, List.foldl_nil, filesView, diskFileOpen, hempty]
      rfl
    | cons r rest =>
      obtain ⟨rest', heq, hwf1, hnames1⟩ := hbegin hsteps (by simp [hne])
      rw [← hne, heq]
      exact (agree_run hwf1 hnames1 hpos).mpr (heq ▸ hnone steps hsteps)

/-- A directory listed as it is kept, with types decoded to the offset of the
file's own timestamp. -/
def plainDirectory : Directory where
  listdir files := files
  listdir_perm files := List.Perm.refl files
  text _ := ""
  decode timestamp raw := ⟨raw, timestamp.offset⟩

/-- A DELETE between a PUT and a newer one, with POSTs that outlive both. -/
theorem file_agreement_example :
    Agree plainDirectory (fun _ => false) "a/c/o"
      [.put ⟨⟨1, 0⟩, some "text/plain", none, ∅⟩,
        .post ⟨⟨6, 0⟩, some "text/html", some ⟨5, 0⟩, ∅⟩, .delete (.stamped ⟨2, 0⟩),
        .post ⟨⟨7, 0⟩, none, none, ∅⟩, .put ⟨⟨3, 0⟩, some "text/css", none, ∅⟩] := by
  refine (file_agreement ?_ ?_).mpr ⟨by decide, fun steps hsteps => not_tie fun p hp m hm => ?_⟩
    _ (List.prefix_refl _)
  · refine ⟨?_, ?_, ?_, ?_⟩
    · simp
    · simp [writes, Section.stamped]
    · simp [writes, posts, Section.stamped]
    · refine ⟨?_, ?_, ?_, ?_⟩ <;> simp [posts]
      decide
  · refine ⟨?_, ?_⟩
    · simp [posts]
      decide
    · simp [posts, writes]
      decide
  · obtain ⟨more, hmore⟩ := hsteps
    have hpost := congrArg posts hmore
    have hwrite := congrArg writes hmore
    rw [posts_append] at hpost
    rw [writes_append] at hwrite
    have hp' := List.mem_append_left (posts more) hp
    have hm' := List.mem_append_left (writes more) hm
    rw [hpost] at hp'
    rw [hwrite] at hm'
    simp only [posts, writes, List.mem_cons, List.not_mem_nil, or_false, Prod.mk.injEq] at hp' hm'
    rcases hp' with rfl | rfl <;> simp at hm' <;> rcases hm' with rfl | rfl <;> decide

/-- The type of a POST with the PUT's own timestamp is lost from the files by
the next POST, and kept in the blob. -/
theorem tie_differs :
    ¬ Agree plainDirectory (fun _ => false) "a/c/o"
      [.put ⟨⟨3, 0⟩, some "text/plain", none, ∅⟩,
        .post ⟨⟨5, 0⟩, some "text/html", some ⟨3, 0⟩, ∅⟩, .post ⟨⟨6, 0⟩, none, none, ∅⟩] := by
  decide

end Swiftacular.FileAgreement
