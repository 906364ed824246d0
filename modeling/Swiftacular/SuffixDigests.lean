import Swiftacular.FileAgreement
import Swiftacular.HashRuns

/-!
What a suffix directory hashes to: for each object, by its name, the timestamps
of the files that a clean-up chooses and does not reclaim by their age, as one
text through MD5. Replicas whose objects took the same requests hash the same,
in whatever order the requests came to each and whatever its listings, as long
as nothing of them is reclaimed; so what two replicas have cached of a suffix
differs only where one of them is out of date.
-/
namespace Swiftacular.SuffixDigests

open Timestamps MetadataModel NameDecisions RequestSets OndiskFiles FileSelection FileAgreement

/-- A suffix directory: the names of its hash directories and their files. -/
abbrev SuffixDir (N : Type*) := List (N × List File)

section Hashing

variable {N H : Type*} [LinearOrder N] (internal : Timestamp → String) (md5 : String → H)
  (dir : Directory) (reclaimable : Timestamp → Bool)

/-- `results['possible_reclaim']`: the `.meta` files that have no data. -/
def possibleReclaim (files : List File) : List File :=
  match survivors dir files with
  | (e, none) => e.metaFiles
  | (_, some _) => []

/-- What `cleanup_ondisk_files` reports and what it leaves. A tombstone that is
old enough goes, and so do the strays that are. -/
def reclaimOndiskFiles (files : List File) : Results × List File :=
  let listed := sortNames dir (dir.listdir files)
  let results := getOndiskFiles dir listed
  let aged := results.tsInfo.filter fun f => reclaimable f.timestamp
  let strays := (possibleReclaim dir listed).filter fun f => reclaimable f.timestamp
  let obsolete := results.obsolete ++ strays
  ({ results with tsInfo := results.tsInfo.filter fun f => !reclaimable f.timestamp, obsolete },
    files.filter fun f => f.filename ∉ (aged.toList ++ obsolete).map File.filename)

/-- What one object's files add, in the order they are added. -/
def updatesOf (r : Results) : List String :=
  (r.metaInfo.map fun f => internal f.timestamp ++ ".meta").toList ++
    (r.tsInfo.map fun f => internal f.timestamp ++ ".ts").toList ++
    (r.dataInfo.map fun f => internal f.timestamp ++ ".data").toList ++
    (r.ctypeInfo.map fun f => internal (ctypeOrZero dir f) ++ "_ctype").toList

/-- The object's part, where the clean-up leaves it any file. -/
def objectUpdates (files : List File) : Option (List String) :=
  let (results, left) := reclaimOndiskFiles dir reclaimable files
  if left = [] then none else some (updatesOf internal dir results)

/-- `_hash_suffix_dir` over the sorted listing; `none` where nothing is left. -/
def hashSuffixDir (path : SuffixDir N) : Option (List String) :=
  let sorted := path.insertionSort fun a b => a.1 ≤ b.1
  let hashes := sorted.filterMap fun object => objectUpdates internal dir reclaimable object.2
  if hashes = [] then none else some hashes.flatten

def hashSuffix (path : SuffixDir N) : Option H :=
  (hashSuffixDir internal dir reclaimable path).map fun updates => md5 (String.join updates)

end Hashing

section Objects

variable {internal : Timestamp → String} {dir dir' : Directory}
  {reclaimable reclaimable' : Timestamp → Bool} {name : EngineObjects.Name}

/-- What is chosen of a listing is of the listing. -/
theorem chosen_mem {files : List File} {f : File}
    (h : f ∈ (getOndiskFiles dir files).tsInfo ∨ f ∈ possibleReclaim dir files) : f ∈ files := by
  have hall : f ∈ (survivors dir files).1.metaFiles ∨ f ∈ (survivors dir files).1.tsFiles →
      f ∈ files := by
    intro hf
    refine (@survivors_perm dir files).mem_iff.mp ?_
    simp only [Exts.all, List.mem_append]
    tauto
  unfold getOndiskFiles possibleReclaim at h
  cases hs : survivors dir files with
  | mk e dataInfo =>
    rw [hs] at h hall
    cases dataInfo with
    | some d => rcases h with h | h <;> contradiction
    | none =>
      rcases h with h | h
      · exact hall (Or.inr (List.mem_of_mem_head? h))
      · exact hall (Or.inl h)

/-- Where nothing is old enough to be reclaimed, a clean-up is one without. -/
theorem reclaim_fresh {files : List File} (h : ∀ f ∈ files, reclaimable f.timestamp = false) :
    reclaimOndiskFiles dir reclaimable files =
      (getOndiskFiles dir (sortNames dir (dir.listdir files)), cleanupOndiskFiles dir files) := by
  have hlisted : ∀ f ∈ sortNames dir (dir.listdir files), reclaimable f.timestamp = false :=
    fun f hf => h f ((dir.listdir_perm files).mem_iff.mp ((List.perm_insertionSort _ _).mem_iff.mp hf))
  have hstrays : (possibleReclaim dir (sortNames dir (dir.listdir files))).filter
      (fun f => reclaimable f.timestamp) = [] := by
    refine List.filter_eq_nil_iff.mpr fun f hf => ?_
    rw [hlisted f (chosen_mem (Or.inr hf))]
    exact Bool.false_ne_true
  have haged : (getOndiskFiles dir (sortNames dir (dir.listdir files))).tsInfo.filter
      (fun f => reclaimable f.timestamp) = none := by
    refine Option.filter_eq_none_iff.mpr fun f hf => ?_
    rw [hlisted f (chosen_mem (Or.inl hf))]
    exact Bool.false_ne_true
  have hkept : (getOndiskFiles dir (sortNames dir (dir.listdir files))).tsInfo.filter
      (fun f => !reclaimable f.timestamp) =
        (getOndiskFiles dir (sortNames dir (dir.listdir files))).tsInfo := by
    cases hts : (getOndiskFiles dir (sortNames dir (dir.listdir files))).tsInfo with
    | none => rfl
    | some f => rw [Option.filter_some, hlisted f (chosen_mem (Or.inl hts)), Bool.not_false,
        if_pos rfl]
  simp only [reclaimOndiskFiles, hstrays, haged, hkept, List.append_nil, Option.toList_none,
    List.nil_append]
  rfl

def timestampOf : Request → Timestamp
  | .put m | .delete m | .post m => m.timestamp

theorem writerPut_timestamp {ext : Ext} {m : Section} {files : List File} {f : File}
    (hf : f ∈ OndiskFiles.writerPut dir name ext m files) :
    f.timestamp = m.timestamp ∨ f ∈ files := by
  unfold OndiskFiles.writerPut cleanupOndiskFiles at hf
  rcases mem_link.mp (List.mem_of_mem_filter hf) with rfl | ⟨hold, -⟩
  · exact Or.inl rfl
  · exact Or.inr hold

theorem decideFiles_timestamp {r : Request} {files : List File} {f : File}
    (hf : f ∈ decideFiles dir name files r) : f.timestamp = timestampOf r ∨ f ∈ files := by
  cases r with
  | put m => exact @writerPut_timestamp dir name .data m files f hf
  | delete m =>
    exact @writerPut_timestamp dir name .ts (Section.stamped m.timestamp) files f hf
  | post m => exact @writerPut_timestamp dir name .posted m files f hf

/-- Every file has the timestamp of a request. -/
theorem runFiles_timestamp {requests : List Request} {f : File}
    (hf : f ∈ runFiles dir name requests) : ∃ r ∈ requests, f.timestamp = timestampOf r := by
  induction requests using List.reverseRecOn with
  | nil => contradiction
  | append_singleton earlier r ih =>
    rw [runFiles, List.foldl_append] at hf
    rcases decideFiles_timestamp hf with hts | hold
    · exact ⟨r, List.mem_append_right earlier (List.mem_singleton_self r), hts⟩
    · obtain ⟨q, hq, hts⟩ := ih hold
      exact ⟨q, List.mem_append_left [r] hq, hts⟩

theorem namesOrder_perm {left right : List Request} (h : NamesOrder dir name left)
    (hperm : left.Perm right) : NamesOrder dir name right := by
  have hposts : ∀ {p}, p ∈ posts right → p ∈ posts left := (posts_perm hperm).mem_iff.mpr
  exact ⟨fun p hp q hq => h.among p (hposts hp) q (hposts hq),
    fun p hp w hw => h.against p (hposts hp) w ((writes_perm hperm).mem_iff.mpr hw)⟩

theorem nameCtype_decode (hdecode : dir.decode = dir'.decode) (p : Section) :
    nameCtype dir name p = nameCtype dir' name p := by
  simp only [nameCtype, ctypeOrZero, ctypeOf, hdecode]

theorem namesOrder_decode (hdecode : dir.decode = dir'.decode) {requests : List Request}
    (h : NamesOrder dir name requests) : NamesOrder dir' name requests := by
  have hsame : ∀ p, nameCtype dir name p = nameCtype dir' name p := nameCtype_decode hdecode
  refine ⟨fun p hp q hq => ?_, fun p hp w hw => ?_⟩
  · rw [← hsame, ← hsame]
    exact h.among p hp q hq
  · rw [← hsame]
    exact h.against p hp w hw

/-- A first PUT or DELETE alone. -/
theorem linked_first {r : Request} {v : Bool × Section} (hw : writes [r] = [v])
    (hp : posts [r] = []) : Linked dir name [r] v (link (writeFile name v) []) := by
  have hone : link (writeFile name v) [] = [writeFile name v] := rfl
  rw [hone]
  refine ⟨by simp [hw], by simp [hw], ⟨by simp, writeFile_ext _ _, ?_⟩, by simp, ?_, ?_, ?_⟩
  · intro f hf _ hne
    exact absurd (List.mem_singleton.mp hf) hne
  · intro f hf hext
    rw [List.mem_singleton.mp hf] at hext
    exact absurd hext (writeFile_ext _ _)
  · intro p hpost
    simp [hp] at hpost
  · intro p hpost
    simp [hp] at hpost

/-- The first of the requests is a PUT or a DELETE. -/
def Begins : List Request → Prop
  | .put _ :: _ => True
  | .delete _ :: _ => True
  | _ => False

instance : ∀ requests, Decidable (Begins requests)
  | [] => isFalse id
  | .put _ :: _ => isTrue trivial
  | .delete _ :: _ => isTrue trivial
  | .post _ :: _ => isFalse id

theorem runFiles_begun {requests : List Request} (hbegins : Begins requests)
    (hwf : WellFormed requests) (hnames : NamesOrder dir name requests) :
    ∃ w, Linked dir name requests w (runFiles dir name requests) := by
  cases requests with
  | nil => contradiction
  | cons r rest =>
    have hsplit : r :: rest = [r] ++ rest := rfl
    have hwf' := wellFormed_left (hsplit ▸ hwf)
    have hnames' := namesOrder_left (hsplit ▸ hnames)
    cases r with
    | put m =>
      have hfirst : Linked dir name [.put m] (false, m) _ := linked_first rfl rfl
      exact foldl_linked (linked_cleanup hfirst hwf' hnames') rest hwf hnames
    | delete m =>
      have hfirst : Linked dir name [.delete m] (true, m) _ := linked_first rfl rfl
      exact foldl_linked (linked_cleanup hfirst hwf' hnames') rest hwf hnames
    | post m => contradiction

/-- The newest POST later than the holder, if there is one, comes first. -/
theorem kept_head {sections : List Section} {w : Bool × Section} {kept : List File}
    (hk : KeptPosts name sections w kept) :
    (kept.head? = none ∧ ∀ p ∈ sections, p.timestamp < w.2.timestamp) ∨
      ∃ a ∈ sections, kept.head? = some (fileOf name .posted a) ∧
        w.2.timestamp < a.timestamp ∧ ∀ p ∈ sections, p.timestamp ≤ a.timestamp := by
  cases hk with
  | none hold => exact Or.inl ⟨rfl, hold⟩
  | one a ha hlater hnewest _ => exact Or.inr ⟨a, ha, rfl, hlater, hnewest⟩
  | two a b ha _ hlater _ _ hnewest _ => exact Or.inr ⟨a, ha, rfl, hlater, hnewest⟩

/-- The type that counts is the newest of all that are newer than the holder. -/
theorem kept_ctype {decided : List Request} {w : Bool × Section} {kept : List File}
    (hk : KeptPosts name (posts decided) w kept) (hwf : WellFormed decided)
    (hnames : NamesOrder dir name decided) (hw : w ∈ writes decided) :
    let ctype := kept.getLast?.filter fun f => (ctypeOf dir f).any (· > w.2.timestamp)
    (ctype = none ∧ ∀ p ∈ posts decided, ctypeTimestamp p ≤ w.2.timestamp) ∨
      ∃ b ∈ posts decided, ctype = some (fileOf name .posted b) ∧
        w.2.timestamp < ctypeTimestamp b ∧
        ∀ p ∈ posts decided, ctypeTimestamp p ≤ ctypeTimestamp b := by
  have hlast : ∀ b ∈ posts decided,
      (∀ p ∈ posts decided, w.2.timestamp ≤ ctypeTimestamp p → TypedBefore p b) →
      let ctype := (some (fileOf name .posted b)).filter
        fun f => (ctypeOf dir f).any (· > w.2.timestamp)
      (ctype = none ∧ ∀ p ∈ posts decided, ctypeTimestamp p ≤ w.2.timestamp) ∨
        ∃ b ∈ posts decided, ctype = some (fileOf name .posted b) ∧
          w.2.timestamp < ctypeTimestamp b ∧
          ∀ p ∈ posts decided, ctypeTimestamp p ≤ ctypeTimestamp b := by
    intro b hb hmost
    by_cases htype : w.2.timestamp < ctypeTimestamp b
    · refine Or.inr ⟨b, hb, ?_, htype, fun p hp => ?_⟩
      · rw [Option.filter_some,
          if_pos ((ctypeOf_any _ _).mpr ((hnames.against b hb _ hw).mpr htype))]
      · by_cases hfrom : w.2.timestamp ≤ ctypeTimestamp p
        · exact (hmost p hp hfrom).le
        · exact (not_le.mp hfrom).le.trans htype.le
    · refine Or.inl ⟨?_, fun p hp => not_lt.mp fun hlt => ?_⟩
      · rw [Option.filter_some,
          if_neg fun h => htype ((hnames.against b hb _ hw).mp ((ctypeOf_any _ _).mp h))]
      · exact htype (hlt.trans_le (hmost p hp hlt.le).le)
  cases hk with
  | none hold =>
    exact Or.inl ⟨rfl, fun p hp => (ctype_le hwf.agree hp).trans (hold p hp).le⟩
  | one a ha _ _ hctype => exact hlast a ha hctype
  | two a b _ hb _ _ _ _ hctype => exact hlast b hb hctype

/-- What is hashed of the files that are linked. -/
theorem linked_updates {decided : List Request} {w : Bool × Section} {files : List File}
    (hl : Linked dir name decided w files) (hwf : WellFormed decided)
    (hnames : NamesOrder dir name decided)
    (hfresh : ∀ f ∈ files, reclaimable f.timestamp = false) :
    ∃ kept, KeptPosts name (posts decided) w kept ∧
      objectUpdates internal dir reclaimable files = some (
        if w.1 then [internal w.2.timestamp ++ ".ts"]
        else ((kept.head?.map fun f => internal f.timestamp ++ ".meta").toList ++
          [internal w.2.timestamp ++ ".data"]) ++
          ((kept.getLast?.filter fun f => (ctypeOf dir f).any (· > w.2.timestamp)).map
            fun f => internal (ctypeOrZero dir f) ++ "_ctype").toList) := by
  have hleft : cleanupOndiskFiles dir files ≠ [] :=
    List.ne_nil_of_mem (cleanup_keeps hl.holder hl.names).1
  have hperm : (sortNames dir (dir.listdir files)).Perm files :=
    (List.perm_insertionSort _ _).trans (dir.listdir_perm files)
  have hchosen : Chosen dir _ _ (survivors dir (sortNames dir (dir.listdir files))) :=
    survivors_chosen (newest_perm hl.holder hperm)
  refine ⟨_, kept_posts hl hwf hnames (kept_perm hchosen.posted (hperm.filter _)), ?_⟩
  obtain ⟨deleted, m⟩ := w
  rw [objectUpdates, reclaim_fresh hfresh]
  dsimp only
  rw [if_neg hleft]
  cases deleted with
  | true =>
    obtain ⟨hnone, hts⟩ := hchosen.ts rfl
    simp only [getOndiskFiles, hnone, hts, List.head?_cons, updatesOf]
    rfl
  | false =>
    obtain ⟨hsome, -⟩ := hchosen.data rfl
    simp only [getOndiskFiles, hsome, updatesOf]
    simp [writeFile]

/-- An object's part of the hash does not tell in which order its requests came. -/
theorem objectUpdates_agree (hdecode : dir.decode = dir'.decode) {left right : List Request}
    (hperm : left.Perm right) (hleft : Begins left) (hright : Begins right)
    (hwf : WellFormed left) (hnames : NamesOrder dir name left)
    (hfresh : ∀ r ∈ left, reclaimable (timestampOf r) = false)
    (hfresh' : ∀ r ∈ left, reclaimable' (timestampOf r) = false) :
    objectUpdates internal dir reclaimable (runFiles dir name left) =
      objectUpdates internal dir' reclaimable' (runFiles dir' name right) := by
  have hwf' := wellFormed_perm hwf hperm
  have hnames' := namesOrder_decode hdecode (namesOrder_perm hnames hperm)
  have hposts : ∀ {p}, p ∈ posts right ↔ p ∈ posts left := (posts_perm hperm).mem_iff.symm
  have hwrites : ∀ {v}, v ∈ writes right ↔ v ∈ writes left := (writes_perm hperm).mem_iff.symm
  obtain ⟨w, hl⟩ := runFiles_begun hleft hwf hnames
  obtain ⟨w', hl'⟩ := runFiles_begun hright hwf' hnames'
  -- the PUT or DELETE that counts is the one of the newest tick
  obtain rfl : w = w' := List.inj_on_of_nodup_map hwf.distinct hl.member (hwrites.mp hl'.member)
    (Nat.le_antisymm (hl'.top w (hwrites.mpr hl.member)) (hl.top w' (hwrites.mp hl'.member)))
  obtain ⟨kept, hk, hupdates⟩ := @linked_updates internal _ reclaimable _ _ _ _ hl hwf hnames
    fun f hf => by
      obtain ⟨r, hr, hts⟩ := runFiles_timestamp hf
      exact hts ▸ hfresh r hr
  obtain ⟨kept', hk', hupdates'⟩ := @linked_updates internal _ reclaimable' _ _ _ _ hl' hwf' hnames'
    fun f hf => by
      obtain ⟨r, hr, hts⟩ := runFiles_timestamp hf
      exact hts ▸ hfresh' r (hperm.mem_iff.mpr hr)
  rw [hupdates, hupdates']
  have hhead : kept.head?.map File.timestamp = kept'.head?.map File.timestamp := by
    rcases kept_head hk with ⟨hnone, hold⟩ | ⟨a, ha, hsome, hlater, hnewest⟩
    · rcases kept_head hk' with ⟨hnone', -⟩ | ⟨a', ha', -, hlater', -⟩
      · rw [hnone, hnone']
      · exact absurd (hold a' (hposts.mp ha')) (not_lt.mpr hlater'.le)
    · rcases kept_head hk' with ⟨-, hold'⟩ | ⟨a', ha', hsome', -, hnewest'⟩
      · exact absurd (hold' a (hposts.mpr ha)) (not_lt.mpr hlater.le)
      · rw [hsome, hsome']
        exact congrArg some (le_antisymm (hnewest' a (hposts.mpr ha)) (hnewest a' (hposts.mp ha')))
  have hctype : ((kept.getLast?.filter fun f => (ctypeOf dir f).any (· > w.2.timestamp)).map
        (ctypeOrZero dir)) =
      (kept'.getLast?.filter fun f => (ctypeOf dir' f).any (· > w.2.timestamp)).map
        (ctypeOrZero dir') := by
    rcases kept_ctype hk hwf hnames hl.member with ⟨hnone, hold⟩ | ⟨b, hb, hsome, hlater, hmost⟩
    · rcases kept_ctype hk' hwf' hnames' hl'.member with ⟨hnone', -⟩ | ⟨b', hb', -, hlater', -⟩
      · rw [hnone, hnone']
        rfl
      · exact absurd hlater' (not_lt.mpr (hold b' (hposts.mp hb')))
    · rcases kept_ctype hk' hwf' hnames' hl'.member with ⟨-, hold'⟩ | ⟨b', hb', hsome', -, hmost'⟩
      · exact absurd hlater (not_lt.mpr (hold' b (hposts.mpr hb)))
      · rw [hsome, hsome']
        have hsame : ctypeTimestamp b = ctypeTimestamp b' :=
          le_antisymm (hmost' b (hposts.mpr hb)) (hmost b' (hposts.mp hb'))
        exact congrArg some (((hnames.eq_iff hb (hposts.mp hb')).mpr hsame).trans
          (nameCtype_decode hdecode b'))
  have hmeta : (kept.head?.map fun f => internal f.timestamp ++ ".meta") =
      kept'.head?.map fun f => internal f.timestamp ++ ".meta" := by
    have hmap := congrArg (Option.map fun t => internal t ++ ".meta") hhead
    rwa [Option.map_map, Option.map_map] at hmap
  have htype := congrArg (Option.map fun t => internal t ++ "_ctype") hctype
  rw [Option.map_map, Option.map_map] at htype
  rw [hmeta]
  exact congrArg (fun ctype => some (if w.1 = true then _ else _ ++ Option.toList ctype)) htype

end Objects

section Replicas

open SuffixHashes HashInvariant HashSteps HashRuns StepRuns

variable {N H : Type*} [LinearOrder N] {internal : Timestamp → String} {md5 : String → H}
  {dir dir' : Directory} {reclaimable reclaimable' : Timestamp → Bool}

/-- Of what is listed only the names and the parts of the objects count. -/
theorem hashSuffixDir_agree {path path' : SuffixDir N}
    (hperm : (path.map fun o => (o.1, objectUpdates internal dir reclaimable o.2)).Perm
      (path'.map fun o => (o.1, objectUpdates internal dir' reclaimable' o.2)))
    (hdistinct : (path.map Prod.fst).Nodup) :
    hashSuffixDir internal dir reclaimable path = hashSuffixDir internal dir' reclaimable' path' := by
  have hparts : ∀ (d : Directory) (aged : Timestamp → Bool) (p : SuffixDir N),
      (p.insertionSort fun a b => a.1 ≤ b.1).filterMap
          (fun o => objectUpdates internal d aged o.2) =
        ((p.map fun o => (o.1, objectUpdates internal d aged o.2)).insertionSort
          fun a b => a.1 ≤ b.1).filterMap Prod.snd := by
    intro d aged p
    rw [← List.map_insertionSort (fun a b : N × List File => a.1 ≤ b.1)
      (fun a b : N × Option (List String) => a.1 ≤ b.1) _ p fun _ _ _ _ => Iff.rfl,
      List.filterMap_map]
    rfl
  have hsorted : ∀ l : List (N × Option (List String)),
      (l.insertionSort fun a b => a.1 ≤ b.1).Pairwise fun a b => a.1 ≤ b.1 := by
    intro l
    have htotal : Std.Total fun a b : N × Option (List String) => a.1 ≤ b.1 :=
      ⟨fun a b => le_total a.1 b.1⟩
    have htrans : IsTrans (N × Option (List String)) fun a b => a.1 ≤ b.1 :=
      ⟨fun _ _ _ hab hbc => hab.trans hbc⟩
    exact List.pairwise_insertionSort _ l
  have heq := List.Perm.eq_of_pairwise (fun a b ha hb hab hba => ?_) (hsorted _) (hsorted _)
    (((List.perm_insertionSort _ _).trans hperm).trans (List.perm_insertionSort _ _).symm)
  · simp only [hashSuffixDir, hparts, heq]
  · have hkeys : (path.map fun o => (o.1, objectUpdates internal dir reclaimable o.2)).map Prod.fst =
        path.map Prod.fst := by
      rw [List.map_map]
      rfl
    exact List.inj_on_of_nodup_map (hkeys ▸ hdistinct)
      ((List.perm_insertionSort _ _).mem_iff.mp ha)
      (hperm.mem_iff.mpr ((List.perm_insertionSort _ _).mem_iff.mp hb)) (le_antisymm hab hba)

/-- An object of a suffix, and the requests that were made of it. -/
structure Wanted (N : Type*) where
  hash : N
  name : EngineObjects.Name
  requests : List Request

/-- A replica took the requests in an order of its own. -/
def Took (dir : Directory) (object : Wanted N) (o : N × List File) : Prop :=
  o.1 = object.hash ∧ ∃ order, object.requests.Perm order ∧ Begins order ∧
    o.2 = runFiles dir object.name order

def Replica (dir : Directory) (objects : List (Wanted N)) (path : SuffixDir N) : Prop :=
  ∃ listed, path.Perm listed ∧ List.Forall₂ (Took dir) objects listed

/-- What is asked of the requests of every object. -/
structure Sound (dir : Directory) (objects : List (Wanted N)) : Prop where
  distinct : (objects.map Wanted.hash).Nodup
  formed : ∀ o ∈ objects, WellFormed o.requests
  names : ∀ o ∈ objects, NamesOrder dir o.name o.requests

/-- No request is old enough for its file to be reclaimed. -/
def Fresh (reclaimable : Timestamp → Bool) (objects : List (Wanted N)) : Prop :=
  ∀ o ∈ objects, ∀ r ∈ o.requests, reclaimable (timestampOf r) = false

omit [LinearOrder N] in
theorem took_agree (hdecode : dir.decode = dir'.decode) {object : Wanted N} {o o' : N × List File}
    (hwf : WellFormed object.requests) (hnames : NamesOrder dir object.name object.requests)
    (hfresh : ∀ r ∈ object.requests, reclaimable (timestampOf r) = false)
    (hfresh' : ∀ r ∈ object.requests, reclaimable' (timestampOf r) = false)
    (h : Took dir object o) (h' : Took dir' object o') :
    (o.1, objectUpdates internal dir reclaimable o.2) =
      (o'.1, objectUpdates internal dir' reclaimable' o'.2) := by
  obtain ⟨hkey, order, hperm, hbegins, hfiles⟩ := h
  obtain ⟨hkey', order', hperm', hbegins', hfiles'⟩ := h'
  rw [hkey, hkey', hfiles, hfiles', objectUpdates_agree hdecode (hperm.symm.trans hperm') hbegins
    hbegins' (wellFormed_perm hwf hperm) (namesOrder_perm hnames hperm)
    (fun r hr => hfresh r (hperm.mem_iff.mpr hr)) fun r hr => hfresh' r (hperm.mem_iff.mpr hr)]

omit [LinearOrder N] in
theorem took_keys {objects : List (Wanted N)} {listed : SuffixDir N}
    (h : List.Forall₂ (Took dir) objects listed) :
    listed.map Prod.fst = objects.map Wanted.hash := by
  induction h with
  | nil => rfl
  | cons hfirst _ ih => rw [List.map_cons, List.map_cons, ih, hfirst.1]

omit [LinearOrder N] in
theorem took_updates (hdecode : dir.decode = dir'.decode) {objects : List (Wanted N)}
    {listed listed' : SuffixDir N} (hwf : ∀ o ∈ objects, WellFormed o.requests)
    (hnames : ∀ o ∈ objects, NamesOrder dir o.name o.requests) (hfresh : Fresh reclaimable objects)
    (hfresh' : Fresh reclaimable' objects) (h : List.Forall₂ (Took dir) objects listed)
    (h' : List.Forall₂ (Took dir') objects listed') :
    (listed.map fun o => (o.1, objectUpdates internal dir reclaimable o.2)) =
      listed'.map fun o => (o.1, objectUpdates internal dir' reclaimable' o.2) := by
  induction h generalizing listed' with
  | nil =>
    cases h'
    rw [List.map_nil, List.map_nil]
  | cons hfirst _ ih =>
    cases h' with
    | cons hfirst' hrest' =>
      have hone := @took_agree _ internal _ _ reclaimable reclaimable' hdecode _ _ _
        (hwf _ (List.mem_cons_self ..)) (hnames _ (List.mem_cons_self ..))
        (hfresh _ (List.mem_cons_self ..)) (hfresh' _ (List.mem_cons_self ..)) hfirst hfirst'
      have hothers := ih (fun o ho => hwf o (List.mem_cons_of_mem _ ho))
        (fun o ho => hnames o (List.mem_cons_of_mem _ ho))
        (fun o ho => hfresh o (List.mem_cons_of_mem _ ho))
        (fun o ho => hfresh' o (List.mem_cons_of_mem _ ho)) hrest'
      exact congrArg₂ List.cons hone hothers

/-- Replicas of the same objects hash the same. -/
theorem replicas_hash (hdecode : dir.decode = dir'.decode) {objects : List (Wanted N)}
    {path path' : SuffixDir N} (hsound : Sound dir objects) (hfresh : Fresh reclaimable objects)
    (hfresh' : Fresh reclaimable' objects) (h : Replica dir objects path)
    (h' : Replica dir' objects path') :
    hashSuffix internal md5 dir reclaimable path = hashSuffix internal md5 dir' reclaimable' path' := by
  obtain ⟨listed, hperm, htook⟩ := h
  obtain ⟨listed', hperm', htook'⟩ := h'
  have hdistinct : (path.map Prod.fst).Nodup := by
    rw [(hperm.map Prod.fst).nodup_iff, took_keys htook]
    exact hsound.distinct
  have hsame : (path.map fun o => (o.1, objectUpdates internal dir reclaimable o.2)).Perm
      (path'.map fun o => (o.1, objectUpdates internal dir' reclaimable' o.2)) := by
    refine (hperm.map _).trans ?_
    rw [took_updates hdecode hsound.formed hsound.names hfresh hfresh' htook htook']
    exact (hperm'.map _).symm
  rw [hashSuffix, hashSuffix, hashSuffixDir_agree hsame hdistinct]

/-- Hashing as `_hash_suffix` does it. No text of MD5 is empty. -/
def suffixHasher (internal : Timestamp → String) (md5 : String → H) (dir : Directory)
    (reclaimable : Timestamp → Bool) : Hasher (SuffixDir N) H :=
  ⟨hashSuffix internal md5 dir reclaimable, fun _ => false⟩

variable [DecidableEq H]

/-- A partition, reached from a trusted start, in which the cached hash of a
suffix has nothing to wait for. -/
structure Settled (hasher : Hasher (SuffixDir N) H) (w : Partition (SuffixDir N) H)
    (s : SuffixHashes.Name) : Prop where
  reached : ∃ dirs pickle invalid actions, Trusted hasher (start dirs pickle invalid) ∧
    Along (Partition.step hasher) Allows (start dirs pickle invalid) actions ∧
      run (Partition.step hasher) (start dirs pickle invalid) actions = some w
  told : w.told s = w.changes s
  quiet : s ∉ named w.lines
  valid : (readHashes w.pickle).valid = some true
  hashed : (readHashes w.pickle).get s ≠ some none

omit [LinearOrder N] in
theorem Settled.holds {hasher : Hasher (SuffixDir N) H} {w : Partition (SuffixDir N) H}
    {s : SuffixHashes.Name} (h : Settled hasher w s) : Holds hasher w := by
  obtain ⟨dirs, pickle, invalid, actions, htrusted, hallows, hrun⟩ := h.reached
  exact holds_run (holds_start htrusted) hallows hrun

/-- Two replicas of a suffix whose objects took the same requests have the same
hash of it in their caches, once both have settled and while nothing of it is
old enough to be reclaimed on either. -/
theorem replicas_cached (hdecode : dir.decode = dir'.decode) {objects : List (Wanted N)}
    (hsound : Sound dir objects) (hfresh : Fresh reclaimable objects)
    (hfresh' : Fresh reclaimable' objects) {w w' : Partition (SuffixDir N) H}
    {s : SuffixHashes.Name} (hs : validSuffix s = true)
    (hw : Settled (suffixHasher internal md5 dir reclaimable) w s)
    (hw' : Settled (suffixHasher internal md5 dir' reclaimable') w' s) {path path' : SuffixDir N}
    (hpath : w.dirs.lookup s = some path) (hpath' : w'.dirs.lookup s = some path')
    (htook : Replica dir objects path) (htook' : Replica dir' objects path') :
    ((readHashes w.pickle).get s).join = ((readHashes w'.pickle).get s).join := by
  rw [cached_right hw.holds hs hw.told hw.quiet hw.valid hw.hashed,
    cached_right hw'.holds hs hw'.told hw'.quiet hw'.valid hw'.hashed, Partition.digestOf,
    Partition.digestOf, hpath, hpath']
  exact replicas_hash hdecode hsound hfresh hfresh' htook htook'

/-! Two replicas that took a PUT, a POST and a newer PUT the other way around. -/

def olderPut : Request := .put ⟨⟨1, 0⟩, some "text/plain", none, ∅⟩

def retyped : Request := .post ⟨⟨6, 0⟩, some "text/html", some ⟨5, 0⟩, ∅⟩

def newerPut : Request := .put ⟨⟨3, 0⟩, some "text/css", none, ∅⟩

def wanted : List (Wanted ℕ) := [⟨0, "a/c/o", [olderPut, retyped, newerPut]⟩]

/-- A directory listed from its other end. -/
def reversedDirectory : Directory where
  listdir files := files.reverse
  listdir_perm files := files.reverse_perm
  text := plainDirectory.text
  decode := plainDirectory.decode

/-- The suffix is filled and told of, and one call hashes it. -/
def filling (path : SuffixDir ℕ) : List (Event (SuffixDir ℕ) String) :=
  [.change abc (some path), .invalidate abc, .getHashes 0 [] false, .turn 0 .lock,
    .turn 0 (.combine 1), .turn 0 .clear, .turn 0 .look, .turn 0 .list, .turn 0 .begin,
    .turn 0 (.hash (.hashed "6.meta3.data5_ctype")), .turn 0 (.finish 2)]

def forwards : SuffixDir ℕ :=
  [(0, runFiles plainDirectory "a/c/o" [olderPut, retyped, newerPut])]

def backwards : SuffixDir ℕ :=
  [(0, runFiles reversedDirectory "a/c/o" [newerPut, retyped, olderPut])]

/-- What is from before the first of the PUTs is reclaimed. -/
def aged (t : Timestamp) : Bool := t.tick < 1

def shownHasher (dir : Directory) : Hasher (SuffixDir ℕ) String :=
  suffixHasher (fun t => toString t.tick) (fun text => text) dir aged

theorem wanted_sound : Sound plainDirectory wanted := by
  refine ⟨by decide, fun o ho => ?_, fun o ho => ?_⟩
  · obtain rfl := List.mem_singleton.mp ho
    refine ⟨?_, ?_, ?_, ?_⟩
    · simp [olderPut, retyped, newerPut]
    · simp [writes, olderPut, retyped, newerPut]
    · simp [writes, posts, olderPut, retyped, newerPut]
    · refine ⟨?_, ?_, ?_, ?_⟩ <;> simp [posts, olderPut, retyped, newerPut]
      decide
  · obtain rfl := List.mem_singleton.mp ho
    refine ⟨?_, ?_⟩
    · simp [posts, olderPut, retyped, newerPut]
    · simp [posts, writes, olderPut, retyped, newerPut]
      decide

theorem filled {dir : Directory} {path : SuffixDir ℕ}
    (hallows : Along (Partition.step (shownHasher dir)) Allows (start [] .missing none) (filling path))
    (hpath : (run (Partition.step (shownHasher dir)) (start [] .missing none) (filling path)).bind
      (fun w => w.dirs.lookup abc) = some path)
    (hend : (run (Partition.step (shownHasher dir)) (start [] .missing none) (filling path)).map
      (fun w => ((readHashes w.pickle).get abc, (readHashes w.pickle).valid, w.told abc,
        w.changes abc, w.lines)) =
      some (some (some "6.meta3.data5_ctype"), some true, 2, 2, [])) :
    ∃ w, Settled (shownHasher dir) w abc ∧ w.dirs.lookup abc = some path := by
  obtain ⟨w, hw, hpath⟩ := Option.bind_eq_some_iff.mp hpath
  rw [hw] at hend
  simp only [Option.map_some, Option.some.injEq, Prod.mk.injEq] at hend
  obtain ⟨hget, hvalid, htold, hchanges, hlines⟩ := hend
  have htrusted : Trusted (shownHasher dir) (start [] .missing none) :=
    ⟨fun s hs => absurd hs (by simp [start, Partition.listdir]),
      fun hvalid => absurd hvalid (by simp [start, readHashes])⟩
  exact ⟨w, ⟨⟨_, _, _, _, htrusted, hallows, hw⟩, htold.trans hchanges.symm,
    by simp [hlines, SuffixHashes.named], hvalid, by simp [hget]⟩, hpath⟩

theorem replicas_cached_swapped : ∃ w w',
    Settled (shownHasher plainDirectory) w abc ∧ Settled (shownHasher reversedDirectory) w' abc ∧
      w.dirs.lookup abc = some forwards ∧ w'.dirs.lookup abc = some backwards ∧
      ((readHashes w.pickle).get abc).join = ((readHashes w'.pickle).get abc).join := by
  obtain ⟨w, hw, hpath⟩ := @filled plainDirectory forwards (by decide) (by decide) (by decide)
  obtain ⟨w', hw', hpath'⟩ := @filled reversedDirectory backwards (by decide) (by decide) (by decide)
  have htook : Replica plainDirectory wanted forwards :=
    ⟨forwards, List.Perm.refl _, .cons ⟨rfl, _, List.Perm.refl _, by decide, rfl⟩ .nil⟩
  have hswap : [olderPut, retyped, newerPut].Perm [newerPut, retyped, olderPut] :=
    (List.reverse_perm [newerPut, retyped, olderPut])
  have htook' : Replica reversedDirectory wanted backwards :=
    ⟨backwards, List.Perm.refl _, .cons ⟨rfl, _, hswap, by decide, rfl⟩ .nil⟩
  have hdecode : plainDirectory.decode = reversedDirectory.decode := rfl
  have hfresh : Fresh aged wanted := by
    intro o ho
    obtain rfl := List.mem_singleton.mp ho
    decide
  exact ⟨w, w', hw, hw', hpath, hpath',
    replicas_cached hdecode wanted_sound hfresh hfresh (by decide) hw hw' hpath hpath' htook
      htook'⟩

end Replicas

end Swiftacular.SuffixDigests
