import Swiftacular.DecisionOrder
import Swiftacular.DeviceJournal
import Swiftacular.SyncedCalls

/-!
What a request was told outlasts a crash. It is told once all that its answer
rests on is durable; what survives is at least that, and whatever was decided
on the name after it left the answer true.
-/
namespace Swiftacular.DurableAnswers

open EntryStore EngineObjects Versions EngineRuns StepRuns LiveObjects HeldEntries PreparedLog
  DeviceRuns DeviceEngine DeviceWorld DeviceSteps DeviceDecisions DeviceInvariant DecisionOrder
  SyncedCalls MetadataModel Timestamps Sweep CrashSweep DeviceJournal

section Definitions

variable (conf : Conf)

/-- The blob of a header, as it was dumped or as it is read. -/
def Blobbed (header : Bytes) (blob : Blob) : Prop :=
  conf.loads header = some blob ∨ header = conf.dumps blob

/-- The POST is in the blob, or something no older is in its place. -/
def Honours (m : Section) (blob : Blob) : Prop :=
  m.timestamp ≤ blob.dataSection.timestamp ∨ ∃ posted, blob.metaSection = some posted ∧
    m.timestamp ≤ posted.timestamp ∧ ctypeTimestamp m ≤ ctypeTimestamp posted

/-- What an answer says of what holds the name. -/
def Upheld : Answer → Option View → Prop
  | .wrote ts, held => ∃ v, held = some v ∧ ts ≤ v.ts
  | .posted m true, held => ∃ v blob, held = some v ∧ Blobbed conf v.header blob ∧ Honours m blob
  | .posted _ false, _ => True

def Positive (goal : Goal) : Prop := ∀ ts, settles goal = some ts → 0 < ts

/-- A section that is one POST's with the type of another. -/
def Overlaid (posts : Section → Prop) (m : Section) : Prop :=
  ∃ p q, posts p ∧ posts q ∧ m = { p with
    contentType := q.contentType
    contentTypeTimestamp := q.contentTypeTimestamp }

/-- What holds a name was put at the timestamp its metadata has, and what was
posted to it was posted by someone. -/
def Sourced (posts : Section → Prop) (held : Option View) : Prop :=
  ∀ v blob, held = some v → conf.loads v.header = some blob →
    v.ts = blob.dataSection.timestamp.tick ∧ ∀ m, blob.metaSection = some m → Overlaid posts m

/-- A PUT or DELETE comes with the timestamp its metadata has, as the writer
and the DiskFile make them. -/
def Consistent : Goal → Prop
  | .put _ ts metadata => ts = metadata.timestamp.tick
  | .delete ts metadata => ∀ m, metadata = some m → ts = m.timestamp.tick
  | .post _ => True

/-- What anyone posted, in this run or before it. -/
def Posted (r : Record) (actions : List Action) (m : Section) : Prop :=
  (∃ t, .ask t (.post m) ∈ actions) ∨ ∃ name v blob, view r [] name = some v ∧
    conf.loads v.header = some blob ∧ blob.metaSection = some m

/-- What a run's callers keep to, what is in the store it starts with, and that
`json.loads` reads what `json.dumps` made for it. -/
structure Promised (r : Record) (actions : List Action) (log : List Txn) : Prop where
  positive : ∀ a ∈ actions, Admits Positive a
  consistent : ∀ a ∈ actions, Admits Consistent a
  started : ∀ name v blob, view r [] name = some v → conf.loads v.header = some blob →
    v.ts = blob.dataSection.timestamp.tick
  reads : ∀ name k v blob, view r (log.take k) name = some v → v.header = conf.dumps blob →
    conf.loads v.header = some blob

/-- What a search finds in the store: an Object, with its timestamp and metadata. -/
def Recovered (t : EngineObjects.Store) (name : Name) (v : View) : Prop :=
  ((Backend.find 0 name).open t).2 = .ok () ∧ ((Backend.find 0 name).open t).1.state = .active ∧
    ((Backend.find 0 name).open t).1.ts = v.ts ∧ (t (ordinary name)).map Entry.header = some v.header

/-- What the store has after a crash, of what requests were told before it. -/
structure Lasting (posts : Section → Prop) (w : World) (t : EngineObjects.Store) : Prop where
  wrote : ∀ name ts, .answered name (.wrote ts) ∈ w.events → ∃ v, Recovered t name v ∧ ts ≤ v.ts
  posted : ∀ name m, .answered name (.posted m true) ∈ w.events → ∃ v blob, Recovered t name v ∧
    conf.loads v.header = some blob ∧ v.ts = blob.dataSection.timestamp.tick ∧ Honours m blob ∧
      ∀ m', blob.metaSection = some m' → Overlaid posts m'

end Definitions

variable {conf : Conf} {G : Goal → Prop} {r : Record} {s t : EngineObjects.Store} {c : Core}
  {w w' : World} {name : Name}

/-! What decisions leave true. -/

theorem honours_post {blob : Blob} {m : Section} {result : Option Blob}
    (h : post (some (get conf.isSysMeta blob)) m = .ok result) :
    Honours m (result.getD blob) := by
  rcases post_cases h with ⟨hle, rfl⟩ | ⟨newer, typed, -, -, hlatest, hresult⟩
  · exact Or.inl hle
  · obtain ⟨hts, hctype⟩ := hlatest m (Or.inl rfl)
    rw [hresult]
    exact Or.inr ⟨_, rfl, hts, hctype⟩

/-- What the requests of a run are told is so at their decision. -/
theorem promises_upheld (hG : ∀ goal, G goal → Positive goal) : Promises conf G (Upheld conf) := by
  refine ⟨fun v goal ts hgoal hts => ?_, fun v m result _ hloads hpost => ?_, fun m v => trivial⟩
  · have hpos := hG goal hgoal ts hts
    have hwrote : ∀ x : View, x.ts = ts →
        Upheld conf (.wrote ts) (if ts ≤ (v.map View.ts).getD 0 then v else some x) := by
      intro x hx
      split
      · rename_i hle
        cases v with
        | none => exact absurd hle (Nat.not_le_of_lt hpos)
        | some y => exact ⟨y, rfl, hle⟩
      · exact ⟨x, rfl, hx.ge⟩
    cases goal with
    | put own ts' metadata =>
      obtain rfl := Option.some.inj hts
      exact hwrote _ rfl
    | delete ts' metadata =>
      obtain rfl := Option.some.inj hts
      exact hwrote _ rfl
    | post metadata => contradiction
  · obtain ⟨blob, hblob⟩ := hloads
    have hprev : previous conf (some v.header) = some (get conf.isSysMeta blob) := by
      unfold previous
      rw [Option.bind_some, hblob]
      rfl
    rw [hprev] at hpost
    have hhonours := honours_post hpost
    cases result with
    | none =>
      refine ⟨v, blob, ?_, Or.inl hblob, hhonours⟩
      simp only [decided, Option.map_some, hprev, hpost]
    | some next =>
      refine ⟨{ v with header := conf.dumps next }, next, ?_, Or.inr rfl, hhonours⟩
      simp only [decided, Option.map_some, hprev, hpost]

/-- From one transaction to the next a name stays as it is, or is decided on. -/
theorem view_step (h : Engaged conf G r s c) {k : ℕ} (hk : k < c.log.length) (name : Name) :
    view r (c.log.take (k + 1)) name = view r (c.log.take k) name ∨ ∃ goal, G goal ∧
      view r (c.log.take (k + 1)) name = decided conf (view r (c.log.take k) name) goal := by
  have hget : c.log[k]? = some (c.log.get ⟨k, hk⟩) := List.getElem?_eq_getElem hk
  have htake : c.log.take (k + 1) = c.log.take k ++ [c.log.get ⟨k, hk⟩] :=
    List.take_succ_eq_append_getElem hk
  unfold view
  rw [htake, Record.after_concat]
  by_cases htouch : Touches name (c.log.get ⟨k, hk⟩)
  · exact Or.inr (h.written k _ hget name htouch)
  · rw [held_untouched _ htouch]
    exact Or.inl rfl

/-- What every decision leaves true of a name stays true along the log. -/
theorem view_keeps (h : Engaged conf G r s c) {P : Option View → Prop}
    (hstep : ∀ k goal, G goal → P (view r (c.log.take k) name) →
      view r (c.log.take (k + 1)) name = decided conf (view r (c.log.take k) name) goal →
        P (view r (c.log.take (k + 1)) name)) {i j : ℕ} (hij : i ≤ j)
    (hi : P (view r (c.log.take i) name)) : P (view r (c.log.take j) name) := by
  induction j, hij using Nat.le_induction with
  | base => exact hi
  | succ j hij ih =>
    by_cases hj : j < c.log.length
    · rcases view_step h hj name with hsame | ⟨goal, hgoal, hdecided⟩
      · rw [hsame]
        exact ih
      · exact hstep j goal hgoal ih hdecided
    · rw [List.take_of_length_le (by omega : c.log.length ≤ j + 1)]
      rwa [List.take_of_length_le (by omega : c.log.length ≤ j)] at ih

/-- A timestamp that a name has reached. -/
theorem wrote_decided {ts : ℕ} {v : Option View} (h : Upheld conf (.wrote ts) v) (goal : Goal) :
    Upheld conf (.wrote ts) (decided conf v goal) := by
  obtain ⟨x, rfl, hx⟩ := h
  have hwrite : ∀ y : View, Upheld conf (.wrote ts)
      (if y.ts ≤ ((some x).map View.ts).getD 0 then some x else some y) := by
    intro y
    split
    · exact ⟨x, rfl, hx⟩
    · rename_i hnewer
      have hlt : x.ts < y.ts := Nat.lt_of_not_le hnewer
      exact ⟨y, rfl, by omega⟩
  cases goal with
  | put own ts' metadata => exact hwrite ⟨ts', false, _⟩
  | delete ts' metadata => exact hwrite ⟨ts', true, _⟩
  | post metadata =>
    simp only [decided]
    split
    · exact ⟨_, rfl, hx⟩
    · exact ⟨x, rfl, hx⟩

/-- What holds a name, and what was read of it before it was decided on. -/
theorem previous_some {held : Option View} {md : Metadata}
    (h : previous conf (held.map View.header) = some md) :
    ∃ v blob, held = some v ∧ conf.loads v.header = some blob ∧ md = get conf.isSysMeta blob := by
  unfold previous at h
  obtain ⟨blob, hblob, rfl⟩ := Option.map_eq_some_iff.mp h
  obtain ⟨header, hheader, hloads⟩ := Option.bind_eq_some_iff.mp hblob
  obtain ⟨v, rfl, rfl⟩ := Option.map_eq_some_iff.mp hheader
  exact ⟨v, blob, rfl, hloads, rfl⟩

theorem sourced_decided {posts : Section → Prop} {held : Option View} {goal : Goal}
    (h : Sourced conf posts held) (hgoal : Consistent goal) (hposts : ∀ p, goal = .post p → posts p)
    (hround : ∀ v b, decided conf held goal = some v → v.header = conf.dumps b →
      conf.loads v.header = some b) : Sourced conf posts (decided conf held goal) := by
  have hwrite : ∀ (ts : ℕ) (deleted : Bool) (data : Section), ts = data.timestamp.tick →
      (∀ v b, (if ts ≤ (held.map View.ts).getD 0 then held else some ⟨ts, deleted,
        conf.dumps (MetadataModel.put (previous conf (held.map View.header)) data)⟩) = some v →
          v.header = conf.dumps b → conf.loads v.header = some b) →
      Sourced conf posts (if ts ≤ (held.map View.ts).getD 0 then held else some ⟨ts, deleted,
        conf.dumps (MetadataModel.put (previous conf (held.map View.header)) data)⟩) := by
    intro ts deleted data hts hround
    split at hround
    · rename_i hle
      rwa [if_pos hle]
    · rename_i hnewer
      rw [if_neg hnewer]
      intro v blob hv hloads
      obtain rfl := Option.some.inj hv
      obtain rfl := Option.some.inj (hloads.symm.trans (hround _ _ rfl rfl))
      refine ⟨by rw [put_dataSection]; exact hts, fun m hm => ?_⟩
      obtain ⟨hbind, -⟩ := (put_metaSection _ _ _).mp hm
      obtain ⟨md, hmd, hsection⟩ := Option.bind_eq_some_iff.mp hbind
      obtain ⟨v, blob, hv, hloads, rfl⟩ := previous_some hmd
      exact (h v blob hv hloads).2 m hsection
  cases goal with
  | put own ts data => exact hwrite ts false data hgoal hround
  | delete ts data =>
    refine hwrite ts true (data.getD (Section.stamped ⟨ts, 0⟩)) ?_ hround
    cases data with
    | none => rfl
    | some m => exact hgoal m rfl
  | post p =>
    simp only [decided] at hround ⊢
    split at hround
    · rename_i b hpost
      intro v next hv hloads
      obtain ⟨v₀, hv₀, rfl⟩ := Option.map_eq_some_iff.mp hv
      obtain rfl := Option.some.inj (hloads.symm.trans (hround _ b hv rfl))
      cases hprev : previous conf (held.map View.header) with
      | none =>
        rw [hprev] at hpost
        simp [MetadataModel.post] at hpost
      | some md =>
        obtain ⟨v, blob, hheld, hblob, rfl⟩ := previous_some hprev
        obtain rfl := Option.some.inj (hv₀.symm.trans hheld)
        obtain ⟨hts, hmeta⟩ := h v₀ blob hheld hblob
        rw [hprev] at hpost
        rcases post_cases hpost with ⟨-, hnone⟩ | ⟨newer, typed, hnewer, htyped, -, hresult⟩
        · contradiction
        · have hnew : ∃ p q, posts p ∧ posts q ∧ newer = { p with
              contentType := q.contentType
              contentTypeTimestamp := q.contentTypeTimestamp } := by
            rcases hnewer with rfl | hstored
            · exact ⟨newer, newer, hposts _ rfl, hposts _ rfl, rfl⟩
            · exact hmeta newer hstored
          have htype : ∃ q, posts q ∧ typed.contentType = q.contentType ∧
              typed.contentTypeTimestamp = q.contentTypeTimestamp := by
            rcases htyped with rfl | hstored
            · exact ⟨typed, hposts _ rfl, rfl, rfl⟩
            · obtain ⟨-, q, -, hq, rfl⟩ := hmeta typed hstored
              exact ⟨q, hq, rfl, rfl⟩
          obtain ⟨p', q', hp', hq', rfl⟩ := hnew
          obtain ⟨q, hq, hct, hctts⟩ := htype
          obtain rfl : next = _ := hresult
          refine ⟨hts, fun m hm => ?_⟩
          obtain rfl := Option.some.inj hm
          exact ⟨p', q, hp', hq, by rw [hct, hctts]⟩
    · exact h

/-- What a POST left of itself, after the next decision. -/
theorem honours_decided {posts : Section → Prop} {held : Option View} {goal : Goal} {m : Section}
    (hs : Sourced conf posts held) (hgoal : Consistent goal)
    (hround : ∀ v b, held = some v → v.header = conf.dumps b → conf.loads v.header = some b)
    (h : Upheld conf (.posted m true) held) :
    Upheld conf (.posted m true) (decided conf held goal) := by
  obtain ⟨v, blob, rfl, hblob, hhonours⟩ := h
  have hloads : conf.loads v.header = some blob := hblob.elim (fun hl => hl) (hround v blob rfl)
  have hprev : previous conf ((some v).map View.header) = some (get conf.isSysMeta blob) := by
    unfold previous
    rw [Option.map_some, Option.bind_some, hloads]
    rfl
  have hsame : Upheld conf (.posted m true) (some v) := ⟨v, blob, rfl, Or.inl hloads, hhonours⟩
  have hwrite : ∀ (ts : ℕ) (deleted : Bool) (data : Section), ts = data.timestamp.tick →
      Upheld conf (.posted m true) (if ts ≤ ((some v).map View.ts).getD 0 then some v
        else some ⟨ts, deleted, conf.dumps
          (MetadataModel.put (previous conf ((some v).map View.header)) data)⟩) := by
    intro ts deleted data hts
    split
    · exact hsame
    · rename_i hnewer
      refine ⟨_, _, rfl, Or.inr rfl, ?_⟩
      rw [hprev]
      have hlt : blob.dataSection.timestamp < data.timestamp := by
        refine Timestamp.lt_of_tick ?_
        rw [← hts, ← (hs v blob rfl hloads).1]
        exact Nat.lt_of_not_le hnewer
      unfold Honours
      rw [put_dataSection]
      rcases hhonours with hold | ⟨posted, hmeta, hle, hctype⟩
      · exact Or.inl (hold.trans hlt.le)
      · by_cases hlater : posted.timestamp > data.timestamp
        · exact Or.inr ⟨posted, (put_metaSection _ _ _).mpr ⟨hmeta, hlater⟩, hle, hctype⟩
        · exact Or.inl (hle.trans (not_lt.mp hlater))
  cases goal with
  | put own ts data => exact hwrite ts false data hgoal
  | delete ts data =>
    refine hwrite ts true (data.getD (Section.stamped ⟨ts, 0⟩)) ?_
    cases data with
    | none => rfl
    | some m => exact hgoal m rfl
  | post p =>
    simp only [decided]
    rw [hprev]
    split
    · rename_i b hpost
      refine ⟨_, b, rfl, Or.inr rfl, ?_⟩
      rcases post_cases hpost with ⟨-, hnone⟩ | ⟨newer, typed, -, -, hlatest, hresult⟩
      · contradiction
      · obtain rfl : b = _ := hresult
        rcases hhonours with hold | ⟨posted, hmeta, hle, hctype⟩
        · exact Or.inl hold
        · obtain ⟨hts, htype⟩ := hlatest posted (Or.inr hmeta)
          exact Or.inr ⟨_, rfl, hle.trans hts, hctype.trans htype⟩
    · exact hsame

/-! What a crash leaves. -/

/-- What a run's requests decide. -/
def Asked (posts : Section → Prop) (goal : Goal) : Prop :=
  Positive goal ∧ Consistent goal ∧ ∀ p, goal = .post p → posts p

theorem admits_asked {actions : List Action} {log : List Txn} (h : Promised conf r actions log)
    {a : Action} (ha : a ∈ actions) : Admits (Asked (Posted conf r actions)) a := by
  have hpositive := h.positive a ha
  have hconsistent := h.consistent a ha
  cases a with
  | ask t ask =>
    cases ask with
    | put ts metadata => exact fun own => ⟨hpositive own, hconsistent own, fun p heq => by contradiction⟩
    | delete ts metadata => exact ⟨hpositive, hconsistent, fun p heq => by contradiction⟩
    | post metadata =>
      refine ⟨hpositive, hconsistent, fun p heq => ?_⟩
      obtain rfl := Goal.post.inj heq
      exact Or.inl ⟨t, ha⟩
    | «open» | info | create | write | iterate => trivial
  | request | go | move | resume | commit | kill | reap | release => trivial

/-- What the swept store shows of a name is what was prepared for it first. -/
theorem seen_swept (h : Engaged conf G r s c) (crash : Crash conf.collection s c.log)
    {listings : List (List Address)} {ops : List Op} (hclean : clean crash.disk listings = .ok ops)
    (hswept : applyAll crash.disk ops = some t) (name : Name) :
    seen t name = view r (c.log.take (crash.cut (conf.collection name))) name := by
  obtain ⟨u, hu, hdisk⟩ := disk_prefix h.named crash (conf.collection name)
  have hsame : t (ordinary name) = u (ordinary name) :=
    (clean_keeps hclean hswept rfl).trans (hdisk _ rfl)
  refine seen_shown ?_
  rw [hsame]
  exact h.kept.shows _ u hu name

theorem recovered_seen {v : View} (h : seen t name = some v) : Recovered t name v := by
  obtain ⟨e, he, hseen⟩ := Option.bind_eq_some_iff.mp h
  obtain ⟨k, hk, rfl⟩ := Option.map_eq_some_iff.mp hseen
  unfold Recovered
  rw [find_held he hk, he]
  exact ⟨rfl, rfl, rfl, rfl⟩

theorem sourced_view {actions : List Action} {posts : Section → Prop}
    (h : Engaged conf (Asked posts) r s c) (hp : Promised conf r actions c.log)
    (hstart : ∀ name, Sourced conf posts (view r [] name)) (k : ℕ) (name : Name) :
    Sourced conf posts (view r (c.log.take k) name) := by
  refine view_keeps h (fun i goal hgoal hs hdecided => ?_) (Nat.zero_le k) (hstart name)
  rw [hdecided]
  refine sourced_decided hs hgoal.2.1 hgoal.2.2 fun v b hv hheader => ?_
  rw [← hdecided] at hv
  exact hp.reads name _ v b hv hheader

/-- Whatever the sweep leaves of a crash bears out what requests were told. -/
theorem lasting_swept {posts : Section → Prop} (h : Running conf (Asked posts) (Upheld conf) r s w)
    (hsourced : ∀ k name, Sourced conf posts (view r (w.core.log.take k) name))
    (hreads : ∀ name k v blob, view r (w.core.log.take k) name = some v →
      v.header = conf.dumps blob → conf.loads v.header = some blob)
    (crash : Crash conf.collection s w.core.log) (hcut : ∀ c, w.durable c ≤ crash.cut c)
    {listings : List (List Address)} {ops : List Op} (hclean : clean crash.disk listings = .ok ops)
    (hswept : applyAll crash.disk ops = some t) : Lasting conf posts w t := by
  have hengaged := h.grounded.engaged
  have hseen := seen_swept hengaged crash hclean hswept
  refine ⟨fun name ts he => ?_, fun name m he => ?_⟩
  · obtain ⟨k, hk, -, hupheld⟩ := h.told _ he
    obtain ⟨v, hv, hts⟩ := view_keeps hengaged
      (fun i goal _ hi hdecided => hdecided ▸ wrote_decided hi goal) (hk.trans (hcut _)) hupheld
    exact ⟨v, recovered_seen ((hseen name).trans hv), hts⟩
  · obtain ⟨k, hk, -, hupheld⟩ := h.told _ he
    obtain ⟨v, blob, hv, hblob, hhonours⟩ := view_keeps hengaged (P := Upheld conf (.posted m true))
      (fun i goal hgoal hi hdecided => hdecided ▸ honours_decided (hsourced i name) hgoal.2.1
        (fun v b hv => hreads name i v b hv) hi) (hk.trans (hcut _)) hupheld
    have hloads : conf.loads v.header = some blob :=
      hblob.elim (fun hl => hl) (hreads name _ v blob hv)
    obtain ⟨hts, hmeta⟩ := hsourced _ name v blob hv hloads
    exact ⟨v, blob, recovered_seen ((hseen name).trans hv), hloads, hts, hhonours, hmeta⟩

theorem durable_answers (hs : Swept r s) (last : UInt64) {before after : List Action}
    (hbefore : (World.start s last).run conf before = some w) (hafter : w.run conf after = some w')
    (hp : Promised conf r (before ++ after) w'.core.log)
    (hspaced : Along (World.step conf) (Spaced conf) (World.start s last) (before ++ after))
    (crash : Crash conf.collection s w'.core.log) (hcut : ∀ c, w'.durable c ≤ crash.cut c)
    {listed : Collection → List Address} (hlisted : Lists conf.collection crash.disk listed) :
    (∃ ops t, clean crash.disk ((List.finRange _).map listed) = .ok ops ∧
      applyAll crash.disk ops = some t ∧ Lasting conf (Posted conf r (before ++ after)) w' t) ∧
        Synced conf w w' := by
  have hA : Promises conf (Asked (Posted conf r (before ++ after))) (Upheld conf) :=
    promises_upheld fun goal hgoal => hgoal.1
  have hw := running_started hA hs last
    (fun a ha => admits_asked hp (List.mem_append_left after ha)) hbefore
  have hadmits : ∀ a ∈ after, Admits (Asked (Posted conf r (before ++ after))) a :=
    fun a ha => admits_asked hp (List.mem_append_right before ha)
  have h := running_run hA hw hadmits hafter
  have hsourced := sourced_view h.grounded.engaged hp fun name v blob hv hloads =>
    ⟨hp.started name v blob hv hloads, fun m hm => ⟨m, m, Or.inr ⟨name, v, blob, hv, hloads, hm⟩,
      Or.inr ⟨name, v, blob, hv, hloads, hm⟩, rfl⟩⟩
  have hrun : (World.start s last).run conf (before ++ after) = some w' :=
    (run_append ..).trans (Option.bind_eq_some_iff.mpr ⟨w, hbefore, hafter⟩)
  obtain ⟨ops, t, hclean, hswept, -⟩ := clean_sweeps
    (fun a => disk_restorable (journal_run hs last hspaced hrun) crash) hlisted.listed
  exact ⟨⟨ops, t, hclean, hswept, lasting_swept h hsourced hp.reads crash hcut hclean hswept⟩,
    synced_run hA hw hadmits hafter⟩

/-! Runs on one name that dump the blobs of a table. -/

/-- Whether a PUT or DELETE has a timestamp, the one of its metadata. -/
def stamped : Action → Bool
  | .ask _ (.put ts metadata) => 0 < ts ∧ ts = metadata.timestamp.tick
  | .ask _ (.delete ts metadata) => 0 < ts ∧ metadata.all fun m => ts = m.timestamp.tick
  | _ => true

theorem admits_stamped {a : Action} (h : stamped a = true) :
    Admits Positive a ∧ Admits Consistent a := by
  cases a with
  | ask t ask =>
    cases ask with
    | put ts metadata =>
      obtain ⟨hpos, hts⟩ := of_decide_eq_true h
      exact ⟨fun own ts' hts' => Option.some.inj hts' ▸ hpos, fun own => hts⟩
    | delete ts metadata =>
      obtain ⟨hpos, hts⟩ := of_decide_eq_true h
      refine ⟨fun ts' hts' => Option.some.inj hts' ▸ hpos, fun m hm => ?_⟩
      subst hm
      exact of_decide_eq_true hts
    | post metadata => exact ⟨fun ts hts => by contradiction, trivial⟩
    | «open» | info | create | write | iterate => exact ⟨trivial, trivial⟩
  | request | go | move | resume | commit | kill | reap | release => exact ⟨trivial, trivial⟩

/-- What such a run dumped, it reads back. -/
theorem tabled_reads {texts : List (Blob × String)}
    (hread : ∀ p ∈ texts, (tabled texts).loads (bytesOf p.2) = some p.1) {blob : Blob}
    (h : (tabled texts).dumps blob ≠ []) :
    (tabled texts).loads ((tabled texts).dumps blob) = some blob := by
  cases hlookup : texts.lookup blob with
  | none =>
    simp only [tabled, hlookup, Option.map_none, Option.getD_none, ne_eq, not_true_eq_false] at h
  | some text =>
    obtain ⟨before, after, rfl, -⟩ := List.lookup_eq_some_iff.mp hlookup
    have hdumps : (tabled (before ++ (blob, text) :: after)).dumps blob = bytesOf text := by
      simp only [tabled, hlookup, Option.map_some, Option.getD_some]
    rw [hdumps]
    exact hread (blob, text) (List.mem_append_right before List.mem_cons_self)

/-- A run on one name, of whose views every one has bytes, keeps what is promised. -/
theorem promised_tabled {texts : List (Blob × String)} {actions : List Action} {log : List Txn}
    (hread : ∀ p ∈ texts, (tabled texts).loads (bytesOf p.2) = some p.1)
    (hstamped : ∀ a ∈ actions, stamped a = true) (hnamed : ∀ t ∈ log, Named t)
    (honly : ∀ t ∈ log, t.name = "a/c/o")
    (hbytes : ∀ k ≤ log.length, (view Record.empty (log.take k) "a/c/o").all
      fun v => v.header ≠ []) : Promised (tabled texts) Record.empty actions log := by
  refine ⟨fun a ha => (admits_stamped (hstamped a ha)).1,
    fun a ha => (admits_stamped (hstamped a ha)).2, fun name v blob hv => by contradiction,
    fun name k v blob hv hheader => ?_⟩
  have hsome : v.header ≠ [] := by
    by_cases hname : name = "a/c/o"
    · have hall := hbytes (min k log.length) (Nat.min_le_right ..)
      rw [← List.take_eq_take_min, ← hname, hv] at hall
      exact of_decide_eq_true hall
    · unfold view at hv
      rw [held_after (fun u hu => hnamed u (List.mem_of_mem_take hu))
        fun u hu heq => hname (heq.symm.trans (honly u (List.mem_of_mem_take hu)))] at hv
      contradiction
  rw [hheader] at hsome ⊢
  exact tabled_reads hread hsome

/-! Two PUTs, with a GET that still has the Object of the first when the second
is answered, and a writer that is not done when the GET ends. Its estimate is
what the clock gives it. -/

def first : Section := Section.stamped ⟨200, 0⟩

def second : Section := Section.stamped ⟨300, 0⟩

def lines : List (Blob × String) :=
  [(⟨first, none⟩, "\x7b\"data\": \x7b\"X-Timestamp\": \"0000000000.00200\"\x7d\x7d"),
    (⟨second, none⟩, "\x7b\"data\": \x7b\"X-Timestamp\": \"0000000000.00300\"\x7d\x7d")]

def puttingFirst : List Action :=
  [.request "a/c/o", .ask 0 .open, .go 0 0, .go 1 0, .move 1, .resume 1 0, .go 0 0, .go 0 0,
    .ask 0 (.create 5), .ask 0 (.put 200 first), .go 0 0] ++ List.replicate 11 (.move 0) ++
    [.commit home 2, .resume 0 0, .kill 0, .reap 0]

def puttingSecond : List Action :=
  [.request "a/c/o", .ask 2 .open, .go 2 0, .request "a/c/o", .ask 3 .open, .go 3 0,
    .ask 3 (.create 5), .ask 3 (.put 300 second), .go 3 0, .go 3 0] ++
    List.replicate 3 (.move 3) ++ [.resume 3 0] ++ List.replicate 3 (.move 3) ++ [.resume 3 0] ++
    List.replicate 13 (.move 3) ++ [.commit home 4, .resume 3 0, .kill 3, .reap 3]

/-- A chunk is written before the first Object is released, and another after it. -/
def writing (us : UInt64) : List Action :=
  [.request "a/c/o", .ask 4 .open, .go 4 0, .ask 4 (.create us), .ask 4 (.write [1])] ++
    List.replicate 7 (.move 4) ++
    [.resume 4 0, .kill 2, .reap 2, .release 1, .ask 4 (.write [2])] ++ List.replicate 7 (.move 4)

def replacing (us : UInt64) : List Action := puttingFirst ++ (puttingSecond ++ writing us)

/-- At two milliseconds the estimate is the timestamp of the first PUT. -/
def crowded : World :=
  ((World.start (fun _ => none) 0).run (tabled lines) (replacing 2000)).get (by decide +kernel)

theorem crowded_run :
    (World.start (fun _ => none) 0).run (tabled lines) (replacing 2000) = some crowded :=
  (Option.some_get _).symm

def roomy : World :=
  ((World.start (fun _ => none) 0).run (tabled lines) (replacing 2500)).get (by decide +kernel)

theorem roomy_run : (World.start (fun _ => none) 0).run (tabled lines) (replacing 2500) = some roomy :=
  (Option.some_get _).symm

theorem replacing_stamped (us : UInt64) : ∀ a ∈ replacing us, stamped a = true := by
  have hfirst : ∀ a ∈ puttingFirst, stamped a = true := by decide +kernel
  have hsecond : ∀ a ∈ puttingSecond, stamped a = true := by decide +kernel
  intro a ha
  rcases List.mem_append.mp ha with ha | ha
  · exact hfirst a ha
  rcases List.mem_append.mp ha with ha | ha
  · exact hsecond a ha
  rcases List.mem_append.mp ha with ha | ha
  · rcases List.mem_append.mp ha with ha | ha
    · rcases List.mem_append.mp ha with ha | ha
      · simp only [List.mem_cons, List.not_mem_nil, or_false] at ha
        rcases ha with h | h | h | h | h <;> rw [h] <;> rfl
      · rw [List.eq_of_mem_replicate ha]
        rfl
    · simp only [List.mem_cons, List.not_mem_nil, or_false] at ha
      rcases ha with h | h | h | h | h <;> rw [h] <;> rfl
  · rw [List.eq_of_mem_replicate ha]
    rfl

/-- Where the run's transactions write. -/
def touched : List Address :=
  [temporary "a/c/o" 1, temporary "a/c/o" 2, temporary "a/c/o" 200, temporary "a/c/o" 250,
    ordinary "a/c/o"]

theorem within_empty (a : Address) (h : ((fun _ => none : EngineObjects.Store) a).isSome) :
    a ∈ touched := by contradiction

/-- All that the run prepared, made. -/
def crowdedDisk : EngineObjects.Store :=
  (applyAll (fun _ => none) (opsOf (crowded.core.log.take 7))).get (by decide +kernel)

theorem crowdedDisk_made :
    applyAll (fun _ => none) (opsOf (crowded.core.log.take 7)) = some crowdedDisk :=
  (Option.some_get _).symm

def crowdedCrash : Crash (tabled lines).collection (fun _ => none) crowded.core.log :=
  crashAt home (le_refl 7) (by rw [crowdedDisk_made]; rfl) crowdedDisk_made

/-- Whether the second PUT was told that it is done. -/
def told : Event → Bool
  | .answered name (.wrote ts) => name = "a/c/o" ∧ ts = 300
  | _ => false

theorem answered_told (h : w.events.any told = true) : .answered "a/c/o" (.wrote 300) ∈ w.events := by
  obtain ⟨e, he, htold⟩ := List.any_eq_true.mp h
  cases e with
  | answered name answer =>
    cases answer with
    | wrote ts =>
      obtain ⟨rfl, rfl⟩ := of_decide_eq_true htold
      exact he
    | posted m found => contradiction
  | searched | decided | raised | broken | yielded => contradiction

/-- The writer's second chunk makes an entry without attributes, which no sweep
gets past; the PUT that was answered is behind it. -/
theorem answers_unreachable :
    (World.start (fun _ => none) 0).run (tabled lines) (replacing 2000) = some crowded ∧
      Promised (tabled lines) Record.empty (replacing 2000) crowded.core.log ∧
      .answered "a/c/o" (.wrote 300) ∈ crowded.events ∧
      ∃ (crash : Crash (tabled lines).collection (fun _ => none) crowded.core.log)
        (listed : Collection → List Address), (∀ c, crowded.durable c ≤ crash.cut c) ∧
        Lists (tabled lines).collection crash.disk listed ∧
        ∀ ops, clean crash.disk ((List.finRange _).map listed) ≠ .ok ops := by
  refine ⟨crowded_run, promised_tabled (by decide +kernel) (replacing_stamped 2000)
      (running_any swept_empty 0 crowded_run).grounded.engaged.named (by decide +kernel)
      (by decide +kernel), answered_told (by decide +kernel), crowdedCrash,
    listing crowdedDisk home touched, by decide +kernel,
    lists_listing (fun _ => made_within within_empty crowdedDisk_made (by decide +kernel)) (by decide +kernel),
    fun ops h => ?_⟩
  have hclean : clean crowdedDisk ((List.finRange _).map (listing crowdedDisk home touched)) =
      .error .undecodable := by decide +kernel
  exact absurd (hclean.symm.trans h) (by simp)

/-! The same run half a millisecond later. The crash takes the second chunk, and
the sweep the first. -/

def roomyDisk : EngineObjects.Store :=
  (applyAll (fun _ => none) (opsOf (roomy.core.log.take 6))).get (by decide +kernel)

theorem roomyDisk_made :
    applyAll (fun _ => none) (opsOf (roomy.core.log.take 6)) = some roomyDisk :=
  (Option.some_get _).symm

def roomyCrash : Crash (tabled lines).collection (fun _ => none) roomy.core.log :=
  crashAt home (Nat.le_succ 6) (by decide +kernel) roomyDisk_made

theorem roomy_spaced : Along (World.step (tabled lines)) (Spaced (tabled lines))
    (World.start (fun _ => none) 0) (replacing 2500) :=
  spaced_of_checked swept_empty 0 (by decide +kernel)

theorem durable_answers_roomy : ∃ u t,
    (World.start (fun _ => none) 0).run (tabled lines) puttingFirst = some u ∧
    applyAll roomyDisk [.remove (temporary "a/c/o" 250)] = some t ∧
    Lasting (tabled lines) (Posted (tabled lines) Record.empty (replacing 2500)) roomy t ∧
      Synced (tabled lines) u roomy := by
  obtain ⟨u, hu, hrest⟩ := StepRuns.run_append_some roomy_run
  have hpromised : Promised (tabled lines) Record.empty (replacing 2500) roomy.core.log :=
    promised_tabled (by decide +kernel) (replacing_stamped 2500)
      (running_any swept_empty 0 roomy_run).grounded.engaged.named (by decide +kernel)
      (by decide +kernel)
  have hclean : clean roomyDisk ((List.finRange _).map (listing roomyDisk home touched)) =
      .ok [.remove (temporary "a/c/o" 250)] := by decide +kernel
  have hlisted : Lists (tabled lines).collection roomyDisk (listing roomyDisk home touched) :=
    lists_listing (fun _ => made_within within_empty roomyDisk_made (by decide +kernel)) (by decide +kernel)
  obtain ⟨⟨ops, t, hops, hswept, hlasting⟩, hsynced⟩ := durable_answers swept_empty 0 hu hrest
    hpromised roomy_spaced roomyCrash (by decide +kernel) hlisted
  obtain rfl := Except.ok.inj (hclean.symm.trans hops)
  exact ⟨u, t, hu, hswept, hlasting, hsynced⟩

end Swiftacular.DurableAnswers
