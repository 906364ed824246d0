import Swiftacular.DeviceSearches

/-!
The decisions. One is made against the Object the map has, which stands for
what holds the name, and against all the metadata of that. What it writes
comes after everything else that touched the name, and whoever was reading the
Object before finds that its version went on or that it was replaced.
-/
namespace Swiftacular.DeviceDecisions

open Function EntryStore EngineObjects Versions EngineRuns LiveObjects HeldEntries PreparedLog
  DeviceRuns DeviceEngine DeviceWorld DeviceSteps DeviceSearches MetadataModel

section Definitions

variable (conf : Conf) (G : Goal → Prop) (A : Answer → Option View → Prop)

/-- A thread about to decide. -/
structure Ready (r : Record) (w : World) (t : ℕ) (th : Thread) (goal : Goal) (prev : ℕ) (p : Object)
    (read : Option Bytes) : Prop where
  thread : w.threads t = some th
  search : ¬ Searches th
  native : ∀ i stage, th.native ≠ some (.sync i stage)
  aims : th.frame.bind Frame.goal = some goal
  slot : w.objects th.name = some (.object prev)
  object : w.core.heap prev = some p
  reads : read = (view r w.core.log th.name).map View.header
  settled : Settled conf w th.name
  loads : ∀ header, read = some header → ∃ blob, conf.loads header = some blob

/-- What a decision that writes does to the engine: the Object `id` has the name
afterwards, and the Object the map had before it is retired, where it is another. -/
structure Overwrites (w w' : World) (name : Name) (prev id : ℕ) (p o : Object) : Prop where
  log : ∃ more, w'.core.log = w.core.log ++ more
  others : ∀ n k, n ≠ name → TouchedAt w'.core.log n k → TouchedAt w.core.log n k
  last : ∃ k, w.core.log.length ≤ k ∧ k + 1 = w'.core.log.length ∧ TouchedAt w'.core.log name k ∧
    o.done = some k
  new : w'.core.heap id = some o
  holds : o.name = name ∧ o.state = .active
  retired : id ≠ prev → w'.core.heap prev = some (Backend.retire p)
  same : ∀ i, i ≠ id → i ≠ prev → w'.core.heap i = w.core.heap i
  fresh : w.core.fresh ≤ w'.core.fresh
  kept : id = prev → p.name = o.name ∧ p.state = .active
  versions : (∀ i, w.versions i ≤ w'.versions i) ∧ (∀ i, i ≠ prev → w'.versions i = w.versions i) ∧
    (id = prev → w.versions prev < w'.versions prev)

/-- The timestamp a PUT or DELETE gives the name. -/
def settles : Goal → Option ℕ
  | .put _ ts _ => some ts
  | .delete ts _ => some ts
  | .post _ => none

/-- What is answered is so once the decision is made. -/
structure Promises : Prop where
  wrote : ∀ v goal ts, G goal → settles goal = some ts → A (.wrote ts) (decided conf v goal)
  posted : ∀ v metadata result, G (.post metadata) → (∃ blob, conf.loads v.header = some blob) →
    MetadataModel.post (previous conf (some v.header)) metadata = .ok result →
      A (.posted metadata true) (decided conf (some v) (.post metadata))
  unfound : ∀ metadata v, A (.posted metadata false) v

/-- The next version is there with its metadata, and only the thread that makes it knows it. -/
structure Prepares (r : Record) (s : Store) (w : World) (t : ℕ) (th : Thread) (core : Core)
    (next : ℕ) (n : Object) (blob : Bytes) : Prop where
  engaged : Engaged conf G r s core
  drafted : Drafted r s core next n blob
  object : core.heap next = some n
  writes : n.state = .inWrite ∧ n.name = th.name
  same : ∀ i, i ≠ next → core.heap i = w.core.heap i
  quiet : Quiet conf w { w with core }
  before : w.core.fresh ≤ next ∨ ∃ q, w.core.heap next = some q ∧ Writing q
  alone : ∀ u uth, u ≠ t → w.threads u = some uth → ¬ uth.keeps next
  mine : th.held ≠ some next ∧ th.own ≠ some next

end Definitions

variable {conf : Conf} {G : Goal → Prop} {A : Answer → Option View → Prop} {r : Record} {s : Store}
  {w w' : World} {t prev id : ℕ} {th : Thread} {goal : Goal} {p o : Object} {read : Option Bytes}

/-! What a thread that is about to decide knows. -/

theorem Ready.mapped (hr : Ready conf r w t th goal prev p read) (h : Grounded conf G r s w) :
    p.name = th.name ∧
      (p.state = .active ∨ p.state = .missing ∧ (r.after w.core.log).held th.name = none) :=
  h.mapped th.name prev p hr.slot hr.object

theorem Ready.holds (hr : Ready conf r w t th goal prev p read) (h : Grounded conf G r s w) :
    Holds (r.after w.core.log) p := by
  obtain ⟨hname, hactive | ⟨hmiss, hnone⟩⟩ := hr.mapped h
  · exact holds_active h.engaged.stands hr.object hactive
  · unfold Holds
    rw [hname, hnone]
    exact hmiss

/-- The Object has the timestamp of what holds the name, and none where nothing does. -/
theorem Ready.ts (hr : Ready conf r w t th goal prev p read) (h : Grounded conf G r s w) :
    ((view r w.core.log th.name).map View.ts).getD 0 = p.ts := by
  obtain ⟨hname, hactive | ⟨hmiss, hnone⟩⟩ := hr.mapped h
  · obtain ⟨v, hv, hstat⟩ := (h.engaged.stands.drafts prev p hr.object).holding hactive
    rw [hname] at hv
    unfold view
    rw [hv]
    exact congrArg Stat.ts hstat
  · unfold view
    rw [hnone]
    exact ((h.engaged.plain prev p hr.object).2 (Or.inl hmiss)).symm

/-- No other live Object holds the name. -/
theorem Ready.only (hr : Ready conf r w t th goal prev p read) (h : Grounded conf G r s w) {i : ℕ}
    {q : Object} (hq : w.core.heap i = some q) (hname : q.name = th.name) (hactive : q.state = .active) :
    i = prev := by
  obtain ⟨hpname, hpactive | ⟨-, hnone⟩⟩ := hr.mapped h
  · exact h.engaged.stands.one i prev q p hq hr.object hactive hpactive (hname.trans hpname.symm)
  · obtain ⟨v, hv, -⟩ := (h.engaged.stands.drafts i q hq).holding hactive
    rw [hname, hnone] at hv
    contradiction

theorem retire_cases (p : Object) : (Backend.retire p).name = p.name ∧
    (Backend.retire p).done = p.done ∧ (Backend.retire p).ts = p.ts ∧
      (p.state = .active ∧ (Backend.retire p).state = .old ∨
        p.state ≠ .active ∧ Backend.retire p = p) := by
  unfold Backend.retire
  split
  · rename_i hactive
    exact ⟨rfl, rfl, rfl, Or.inl ⟨hactive, rfl⟩⟩
  · rename_i hnot
    exact ⟨rfl, rfl, rfl, Or.inr ⟨hnot, rfl⟩⟩

/-! What a decision that writes leaves alone. -/

/-- An Object after such a decision. -/
theorem Overwrites.cases (ho : Overwrites w w' th.name prev id p o) {i : ℕ} {q : Object}
    (hq : w'.core.heap i = some q) : i = id ∧ q = o ∨
      i = prev ∧ id ≠ prev ∧ q = Backend.retire p ∨
      i ≠ id ∧ i ≠ prev ∧ w.core.heap i = some q := by
  by_cases hi : i = id
  · subst hi
    exact Or.inl ⟨rfl, Option.some.inj (hq.symm.trans ho.new)⟩
  · by_cases hp : i = prev
    · subst hp
      have hne : id ≠ i := fun heq => hi heq.symm
      exact Or.inr (Or.inl ⟨rfl, hne, Option.some.inj (hq.symm.trans (ho.retired hne))⟩)
    · exact Or.inr (Or.inr ⟨hi, hp, (ho.same i hi hp).symm.trans hq⟩)

theorem Overwrites.to {v : World} {name : Name} (ho : Overwrites w v name prev id p o)
    (hcore : w'.core = v.core) (hversions : w'.versions = v.versions) :
    Overwrites w w' name prev id p o := by
  obtain ⟨hlog, hothers, hlast, hnew, hholds, hretired, hsame, hfresh, hkept, hgrown⟩ := ho
  rw [← hcore] at hlog hothers hlast hnew hretired hsame hfresh
  rw [← hversions] at hgrown
  exact ⟨hlog, hothers, hlast, hnew, hholds, hretired, hsame, hfresh, hkept, hgrown⟩

theorem Overwrites.held (ho : Overwrites w w' th.name prev id p o) {n : Name} (hn : n ≠ th.name) :
    (r.after w'.core.log).held n = (r.after w.core.log).held n := by
  obtain ⟨more, hlog⟩ := ho.log
  rw [hlog, Record.after_append]
  refine held_quiet fun u hu htouch => ?_
  obtain ⟨k, hk⟩ := List.getElem?_of_mem hu
  have hat : TouchedAt w'.core.log n (w.core.log.length + k) := by
    refine ⟨u, ?_, htouch⟩
    rw [hlog, List.getElem?_append_right (by omega), Nat.add_sub_cancel_left, hk]
  have hlt := (ho.others n _ hn hat).lt
  omega

theorem grounded_overwrites (h : Grounded conf G r s w) (hr : Ready conf r w t th goal prev p read)
    (ho : Overwrites w w' th.name prev id p o) (hengaged : Engaged conf G r s w'.core)
    (hshown : Shown s w') (hobjects : w'.objects = update w.objects th.name (some (.object id)))
    (hfree : ∀ n, w.objects n = some (.object id) → id = prev)
    (hdurable : w'.durable = w.durable) (hhanded : w'.handed = w.handed) :
    Grounded conf G r s w' := by
  obtain ⟨more, hlog⟩ := ho.log
  obtain ⟨last, hlen, hlast, htouched, hdone⟩ := ho.last
  have hpname := (hr.mapped h).1
  obtain ⟨hrname, hrdone, -, hrstate⟩ := retire_cases p
  refine ⟨hengaged, hshown, ?_, fun n i hi => ?_, fun n i q hi hq => ?_, fun i q hq hold => ?_,
    fun i q hq hactive k hk => ?_⟩
  · rw [hdurable, hhanded]
    exact h.durable
  · rw [hobjects] at hi
    by_cases hn : n = th.name
    · subst hn
      rw [update_self] at hi
      obtain rfl : id = i := by simpa using hi
      exact hengaged.stands.lt_fresh ho.new
    · rw [update_of_ne hn] at hi
      exact (h.known n i hi).trans_le ho.fresh
  · rw [hobjects] at hi
    by_cases hn : n = th.name
    · subst hn
      rw [update_self] at hi
      obtain rfl : id = i := by simpa using hi
      obtain rfl := Option.some.inj (ho.new.symm.trans hq)
      exact ⟨ho.holds.1, Or.inl ho.holds.2⟩
    · rw [update_of_ne hn] at hi
      rw [ho.held hn]
      have hprev : i ≠ prev := by
        rintro rfl
        exact hn ((h.mapped n i p hi hr.object).1.symm.trans hpname)
      rcases ho.cases hq with ⟨rfl, -⟩ | ⟨rfl, -⟩ | ⟨-, -, hq⟩
      · exact absurd (hfree n hi) hprev
      · exact absurd rfl hprev
      · exact h.mapped n i q hi hq
  · rcases ho.cases hq with ⟨-, rfl⟩ | ⟨-, -, rfl⟩ | ⟨-, -, hq⟩
    · rw [ho.holds.2] at hold
      contradiction
    · refine ⟨last, by rwa [hrname, hpname], fun d hd => ?_⟩
      exact (h.engaged.done prev p d hr.object (hrdone ▸ hd)).trans_le hlen
    · obtain ⟨k, hk, hlater⟩ := h.superseded i q hq hold
      exact ⟨k, hlog ▸ hk.append more, hlater⟩
  · rw [hdurable]
    rcases ho.cases hq with ⟨-, rfl⟩ | ⟨-, -, rfl⟩ | ⟨-, hp, hq⟩
    · have hlt := hk.lt
      exact Or.inr ⟨last, hdone, by omega⟩
    · rcases hrstate with ⟨-, hs⟩ | ⟨hnot, hs⟩
      · rw [hs] at hactive
        contradiction
      · rw [hs] at hactive
        exact absurd hactive hnot
    · have hn : q.name ≠ th.name := fun hn => hp (hr.only h hq hn hactive)
      exact h.covered i q hq hactive k (ho.others q.name k hn hk)

/-- What becomes of an Object anyone kept before such a decision. -/
theorem Overwrites.becomes (ho : Overwrites w w' th.name prev id p o) (h : Grounded conf G r s w)
    (hr : Ready conf r w t th goal prev p read) {i : ℕ} {q : Object} (hq : w.core.heap i = some q)
    (hi : i = id → id = prev) : ∃ q', w'.core.heap i = some q' ∧ Becomes q q' ∧
      (Writing q → q' = q) ∧
        (q.name = th.name → q'.state = .active → w.versions i < w'.versions i) := by
  obtain ⟨last, hlen, -, -, hdone⟩ := ho.last
  obtain ⟨hpname, hpstate⟩ := hr.mapped h
  have hpfound : Found p := hpstate.elim (fun hs => Or.inr (Or.inl hs)) fun hs => Or.inl hs.1
  by_cases hid : i = id
  · obtain rfl : i = prev := hid.trans (hi hid)
    subst hid
    obtain rfl := Option.some.inj (hr.object.symm.trans hq)
    obtain ⟨hname, hactive⟩ := ho.kept rfl
    refine ⟨o, ho.new, ⟨hname.symm, fun _ => Or.inr (Or.inl ho.holds.2),
      fun _ => Or.inl ho.holds.2, fun k ⟨d, hd, hk⟩ => ?_⟩, fun hw => ?_,
      fun _ _ => ho.versions.2.2 rfl⟩
    · exact ⟨last, hdone, hk.trans ((h.engaged.done i p d hq hd).trans_le hlen).le⟩
    · exact absurd hw hpfound.not_writing
  · by_cases hp : i = prev
    · subst hp
      obtain rfl := Option.some.inj (hr.object.symm.trans hq)
      obtain ⟨hname, hdone', -, hstate⟩ := retire_cases p
      refine ⟨Backend.retire p, ho.retired fun heq => hid heq.symm, ⟨hname, fun hf => ?_,
        fun hread => ?_, fun k hk => by rwa [hdone']⟩, fun hw => absurd hw hpfound.not_writing,
        fun _ hactive => ?_⟩
      · rcases hstate with ⟨-, hs⟩ | ⟨-, hs⟩
        · exact Or.inr (Or.inr hs)
        · rwa [hs]
      · rcases hstate with ⟨-, hs⟩ | ⟨-, hs⟩
        · exact Or.inr hs
        · rwa [hs]
      · rcases hstate with ⟨-, hs⟩ | ⟨hnot, hs⟩
        · rw [hs] at hactive
          contradiction
        · rw [hs] at hactive
          exact absurd hactive hnot
    · exact ⟨q, (ho.same i hid hp).trans hq, .refl q, fun _ => rfl,
        fun hn hactive => absurd (hr.only h hq hn hactive) hp⟩

theorem manned_overwrites {a : Answer} (h : Manned conf G A r w) (hg : Grounded conf G r s w)
    (hr : Ready conf r w t th goal prev p read) (ho : Overwrites w w' th.name prev id p o)
    (hobjects : w'.objects = update w.objects th.name (some (.object id)))
    (hdurable : w'.durable = w.durable) (hnext : w'.next = w.next)
    (hthreads : w'.threads = update w.threads t (some (th.calls (.syncing id a) (.sync id .enter))))
    (halone : ∀ u uth, u ≠ t → w.threads u = some uth → uth.keeps id → id = prev)
    (hheld : th.held = some id → id = prev) (hown : th.own ≠ some id)
    (hanswer : A a (view r w'.core.log th.name)) : Manned conf G A r w' := by
  have hcrewed := (h.crewed t th hr.thread).2
  obtain ⟨last, hlen, hlast, -, hdone⟩ := ho.last
  have hreadable : Readable o := Or.inl ho.holds.2
  let th' := th.calls (.syncing id a) (.sync id .enter)
  have howns : ∀ i, th'.owns i → th.own = some i := by
    rintro i (hi | hi)
    · exact hi
    · contradiction
  have huses : ∀ i, Uses th' i → i = id := by
    rintro i ⟨-, hi | hi⟩ <;> exact (Option.some.inj hi).symm
  have hkeeps : ∀ i, th'.keeps i → i = id ∨ th.held = some i ∨ th.own = some i := by
    rintro i (hi | hi | hi | hi)
    · exact Or.inr (Or.inl hi)
    · exact Or.inr (Or.inr (howns i hi))
    · exact Or.inl (Option.some.inj hi).symm
    · exact Or.inl (Option.some.inj hi).symm
  have hsyncs : ∀ k, k ≤ last → Syncs w' th' k := fun k hk =>
    ⟨id, .enter, o, rfl, ho.new, hreadable, ⟨last, hdone, hk⟩, fun done heq => by contradiction⟩
  have hplaced : Placed conf A r w' th' := by
    refine ⟨.enter, last, rfl, by omega, hsyncs last (le_refl _), ?_⟩
    rw [hlast, List.take_length]
    exact hanswer
  have hbecomes : ∀ i, th.held = some i → ∃ q q', w.core.heap i = some q ∧
      w'.core.heap i = some q' ∧ q.name = th.name ∧ Becomes q q' := by
    intro i hi
    obtain ⟨q, hq, hname⟩ := hcrewed.alive i (Or.inl hi)
    obtain ⟨q', hq', hbec, -⟩ := ho.becomes hg hr hq fun heq => hheld (heq ▸ hi)
    exact ⟨q, q', hq, hq', hname, hbec⟩
  have howned : ∀ i, th.own = some i → ∃ q, w'.core.heap i = some q ∧ q.name = th.name ∧ Writing q ∧
      q.deleted = false := by
    intro i hi
    obtain ⟨q, hq, hname⟩ := hcrewed.alive i (keeps_owned (Or.inl hi))
    have hwriting := hcrewed.owned i q (Or.inl hi) hq
    obtain ⟨q', hq', -, hsame, -⟩ := ho.becomes hg hr hq fun heq => absurd (heq ▸ hi) hown
    rw [hsame hwriting] at hq'
    exact ⟨q, hq', hname, hwriting, hcrewed.undeleted i q (Or.inl hi) hq⟩
  have hcrewed' : Crewed conf G A r w' th' := by
    refine ⟨fun i hi => ?_, fun i q hi hq => ?_, fun i q hi hq => ?_, fun i q hi hq => ?_,
      fun g hg => by contradiction, fun i hi => by contradiction, fun hloaded i q hi hq => ?_,
      fun i q hi hq => ?_, hplaced⟩
    · rcases hkeeps i hi with rfl | hi | hi
      · exact ⟨o, ho.new, ho.holds.1⟩
      · obtain ⟨q, q', -, hq', hname, hbec⟩ := hbecomes i hi
        exact ⟨q', hq', hbec.name.trans hname⟩
      · obtain ⟨q, hq, hname, -⟩ := howned i hi
        exact ⟨q, hq, hname⟩
    · obtain ⟨q', hq', -, hwriting, -⟩ := howned i (howns i hi)
      obtain rfl := Option.some.inj (hq.symm.trans hq')
      exact hwriting
    · obtain ⟨q₀, q', hq₀, hq', -, hbec⟩ := hbecomes i hi
      obtain rfl := Option.some.inj (hq.symm.trans hq')
      exact hbec.found (hcrewed.holds i q₀ hi hq₀)
    · obtain rfl := huses i hi
      obtain rfl := Option.some.inj (hq.symm.trans ho.new)
      exact hreadable
    · obtain ⟨q₀, q', hq₀, hq', -, hbec⟩ := hbecomes i hi
      obtain rfl := Option.some.inj (hq.symm.trans hq')
      exact hbec.readable (hcrewed.loads hloaded i q₀ hi hq₀)
    · obtain ⟨q', hq', -, -, hdeleted⟩ := howned i (howns i hi)
      obtain rfl := Option.some.inj (hq.symm.trans hq')
      exact hdeleted
  refine @manned_decides conf G A r w w' t th th' id h ⟨hr.thread, hthreads, hnext, rfl, hcrewed',
    fun i hi => Or.inl (howns i hi), fun i hi => ?_, ⟨prev, hr.slot⟩, ?_, fun n hn => ?_, hdurable,
    fun n k hn hk => ho.others n k hn hk, fun u uth hut hu hn => ?_, fun u uth hut hu hn hs => ?_,
    fun i q hq hactive => ?_, fun k hk => hsyncs k ?_⟩ ?_
  · rcases hkeeps i hi with rfl | hi | hi
    · by_cases heq : i = prev
      · subst heq
        refine Or.inr fun u uth _ hu howns => ?_
        have hwriting := (h.crewed u uth hu).2.owned i p howns hr.object
        obtain ⟨-, hs | ⟨hs, -⟩⟩ := hr.mapped hg <;> rcases hwriting with hw | hw <;>
          rw [hs] at hw <;> contradiction
      · exact Or.inr fun u uth hut hu howns => heq (halone u uth hut hu (keeps_owned howns))
    · exact Or.inl (Or.inl hi)
    · exact Or.inl (keeps_owned (Or.inl hi))
  · rw [hobjects, update_self]
  · rw [hobjects, update_of_ne hn]
  · have hne : ∀ i, uth.keeps i → i ≠ prev := by
      rintro i hi rfl
      obtain ⟨q, hq, hname⟩ := (h.crewed u uth hu).2.alive i hi
      obtain rfl := Option.some.inj (hr.object.symm.trans hq)
      exact hn (hname.symm.trans (hr.mapped hg).1)
    refine ⟨fun i hi => ho.same i ?_ (hne i hi), fun i hi => ho.versions.2.1 i (hne i hi),
      ho.held hn, fun k hk => ho.others _ k hn hk, fun c => by rw [hdurable], ho.log⟩
    rintro rfl
    exact hne i hi (halone u uth hut hu hi)
  · have hucrewed := (h.crewed u uth hu).2
    refine ⟨fun i q hi hq => ?_, ho.versions.1, hs, ho.log⟩
    obtain ⟨q', hq', hbec, hsame, hnewer⟩ := ho.becomes hg hr hq fun heq =>
      halone u uth hut hu (heq ▸ hi)
    obtain ⟨q₀, hq₀, hname⟩ := hucrewed.alive i hi
    obtain rfl := Option.some.inj (hq.symm.trans hq₀)
    exact ⟨q', hq', hbec, fun howns => hsame (hucrewed.owned i q howns hq),
      hnewer (hname.trans hn)⟩
  · rcases ho.cases hq with ⟨rfl, rfl⟩ | ⟨rfl, -, rfl⟩ | ⟨-, hp, hq⟩
    · exact Or.inr ⟨ho.holds.1, rfl⟩
    · rcases (retire_cases p).2.2.2 with ⟨-, hs⟩ | ⟨hnot, hs⟩
      · rw [hs] at hactive
        contradiction
      · rw [hs] at hactive
        exact absurd hactive hnot
    · exact Or.inl ⟨hq, fun hn => hp (hr.only hg hq hn hactive)⟩
  · have hlt := hk.lt
    omega
  · exact not_searches rfl (by simp) (by simp)

/-! Any decision. -/

/-- How a decision is told. -/
def told (w : World) (th : Thread) (goal : Goal) (prev : ℕ) (read : Option Bytes) : Event :=
  .decided ⟨th.name, goal, w.lookup th.name, prev, w.core.heap prev, read, w.core.log.length⟩

theorem current_told (h : Grounded conf G r s w) (hr : Ready conf r w t th goal prev p read)
    (hlog : ∃ more, w'.core.log = w.core.log ++ more) :
    Tells conf A r w' (told w th goal prev read) := by
  obtain ⟨more, hlog⟩ := hlog
  have hlookup : w.lookup th.name = some (.object prev) := by
    simp only [World.lookup, hr.slot, hr.object, Option.map_some]
  have htake : w'.core.log.take w.core.log.length = w.core.log := by rw [hlog, List.take_left]
  have hlen : w.core.log.length ≤ w'.core.log.length := by
    rw [hlog, List.length_append]
    omega
  refine ⟨hlen, hlookup, ⟨p, hr.object, (hr.mapped h).1, ?_⟩, ?_⟩
  · dsimp only
    rw [htake]
    exact hr.holds h
  · dsimp only
    rw [htake]
    exact hr.reads

/-- A decision, whatever comes of it. -/
theorem running_decided (more : List Event) (h : Running conf G A r s w)
    (hr : Ready conf r w t th goal prev p read) (hgrounded : Grounded conf G r s w')
    (hmanned : Manned conf G A r w') (hlog : ∃ more, w'.core.log = w.core.log ++ more)
    (hheld : ∀ n, n ≠ th.name → (r.after w'.core.log).held n = (r.after w.core.log).held n)
    (hdecided : view r w'.core.log th.name = decided conf (view r w.core.log th.name) goal)
    (hdurable : ∀ c, w.durable c ≤ w'.durable c)
    (hevents : w'.events = w.events ++ told w th goal prev read :: more)
    (htold : ∀ e ∈ more, Tells conf A r w' e) (hquiet : ∀ n, ∀ e ∈ more, goalOn n e = none) :
    Running conf G A r s w' := by
  refine ⟨hgrounded, hmanned, fun e he => ?_, fun n => ?_⟩
  · rw [hevents] at he
    rcases List.mem_append.mp he with he | he
    · exact (h.told e he).later hlog hdurable
    · rcases List.mem_cons.mp he with rfl | he
      · exact current_told h.grounded hr hlog
      · exact htold e he
  · have hnone : more.filterMap (goalOn n) = [] := List.filterMap_eq_nil_iff.mpr (hquiet n)
    by_cases hn : n = th.name
    · subst hn
      have hgoal : goalOn th.name (told w th goal prev read) = some goal := if_pos rfl
      have hnext : decisions w' th.name = decisions w th.name ++ [goal] := by
        unfold decisions
        rw [hevents, List.filterMap_append, List.filterMap_cons, hgoal, hnone]
      rw [hnext, List.foldl_append, ← h.followed th.name, hdecided]
      rfl
    · have hgoal : goalOn n (told w th goal prev read) = none := if_neg fun heq => hn heq.symm
      have hsame : decisions w' n = decisions w n := by
        unfold decisions
        rw [hevents, List.filterMap_append, List.filterMap_cons, hgoal, hnone, List.append_nil]
      rw [hsame, ← h.followed n]
      unfold view
      rw [hheld n hn]

/-- A decision that writes, and the sync that follows it. -/
theorem running_overwrites {a : Answer} (h : Running conf G A r s w)
    (hr : Ready conf r w t th goal prev p read) (ho : Overwrites w w' th.name prev id p o)
    (hengaged : Engaged conf G r s w'.core) (hshown : Shown s w')
    (hobjects : w'.objects = update w.objects th.name (some (.object id)))
    (hfree : ∀ n, w.objects n = some (.object id) → id = prev)
    (hdurable : w'.durable = w.durable) (hhanded : w'.handed = w.handed) (hnext : w'.next = w.next)
    (hthreads : w'.threads = update w.threads t (some (th.calls (.syncing id a) (.sync id .enter))))
    (halone : ∀ u uth, u ≠ t → w.threads u = some uth → uth.keeps id → id = prev)
    (hheld : th.held = some id → id = prev) (hown : th.own ≠ some id)
    (hanswer : A a (view r w'.core.log th.name))
    (hdecided : view r w'.core.log th.name = decided conf (view r w.core.log th.name) goal)
    (hevents : w'.events = w.events ++ [told w th goal prev read]) : Running conf G A r s w' :=
  running_decided [] h hr
    (grounded_overwrites h.grounded hr ho hengaged hshown hobjects hfree hdurable hhanded)
    (manned_overwrites h.manned h.grounded hr ho hobjects hdurable hnext hthreads halone hheld hown
      hanswer)
    ho.log (fun _ hn => ho.held hn) hdecided (fun c => by rw [hdurable]) hevents
    (fun e he => by contradiction) fun n e he => by contradiction

/-! A decision that leaves the name as it is. -/

/-- What can be lost by now is not what holds a settled name. -/
theorem view_durable {name : Name} (hs : Settled conf w name) :
    view r (w.core.log.take (w.durable (conf.collection name))) name = view r w.core.log name := by
  have hsplit := Record.after_append r (w.core.log.take (w.durable (conf.collection name)))
    (w.core.log.drop (w.durable (conf.collection name)))
  rw [List.take_append_drop] at hsplit
  unfold view
  rw [hsplit]
  refine congrArg _ (held_quiet fun u hu htouch => ?_).symm
  obtain ⟨m, hm⟩ := List.getElem?_of_mem hu
  rw [List.getElem?_drop] at hm
  have hlt := hs _ ⟨u, hm, htouch⟩
  omega

/-- What is settled is answered right away. -/
theorem tells_settled {a : Answer} (h : Grounded conf G r s w) {name : Name}
    (hs : Settled conf w name) (ha : A a (view r w.core.log name)) :
    Tells conf A r w (.answered name a) := by
  have hlen := (h.durable (conf.collection name)).trans (h.shown.handed.1.trans h.shown.handed.2)
  exact ⟨_, le_refl _, hlen, by rw [view_durable hs]; exact ha⟩

theorem running_leaves (more : List Event) (h : Running conf G A r s w)
    (hr : Ready conf r w t th goal prev p read) (hq : Quiet conf w w')
    (hengaged : Engaged conf G r s w'.core) (hshown : Shown s w') (hobjects : w'.objects = w.objects)
    (hversions : w'.versions = w.versions) (hdurable : w'.durable = w.durable)
    (hhanded : w'.handed = w.handed) (hnext : w'.next = w.next)
    (hthreads : w'.threads = update w.threads t (some (th.enters .idle)))
    (hheap : ∀ u uth, u ≠ t → w.threads u = some uth → ∀ i, uth.keeps i →
      w'.core.heap i = w.core.heap i)
    (hmine : ∀ i, th.held = some i ∨ th.own = some i → w'.core.heap i = w.core.heap i)
    (hactive : ∀ i q, w'.core.heap i = some q → q.state = .active → w.core.heap i = some q)
    (hdecided : decided conf (view r w.core.log th.name) goal = view r w.core.log th.name)
    (hevents : w'.events = w.events ++ told w th goal prev read :: more)
    (htold : ∀ e ∈ more, Tells conf A r w' e) (hquiet : ∀ n, ∀ e ∈ more, goalOn n e = none) :
    Running conf G A r s w' := by
  have hle : ∀ c, w.durable c ≤ w'.durable c := fun c => by rw [hdurable]
  have hcrewed := (h.manned.crewed t th hr.thread).2
  have htakes : TakesUp conf G A r w th (th.enters .idle) :=
    takes_idle rfl rfl rfl rfl (fun i hi => Or.inl hi) fun hloaded => Or.inl ⟨hloaded, rfl⟩
  have hkeeps : ∀ i, (th.enters .idle).keeps i → th.held = some i ∨ th.own = some i := by
    rintro i (hi | (hi | hi) | hi | hi)
    · exact Or.inl hi
    · exact Or.inr hi
    · contradiction
    · contradiction
    · contradiction
  have hcalm : Calm conf r w w' (th.enters .idle) :=
    calm_quiet hq (fun i hi => hmine i (hkeeps i hi)) hversions hle
  have hidle : ¬ Searches (th.enters .idle) := not_searches rfl (by simp) (by simp)
  obtain ⟨txns, hlog, -⟩ := hq.log
  refine running_decided more h hr
    (grounded_quiet h.grounded hq hengaged hshown hobjects hdurable hhanded)
    (manned_step h.manned ⟨hr.thread, hthreads, fun uth heq => ?_, fun uth heq i hi => ?_,
      fun uth heq i hi => ?_, fun uth heq k hs => ?_⟩ hnext.ge hobjects hle
      (fun n k hk => hq.touched hk)
      (fun u uth hut hu => calm_quiet hq (hheap u uth hut hu) hversions hle)
      (fun i q hq' ha => Or.inl (hactive i q hq' ha)) (fun uth heq hs => ?_) fun uth heq hs => ?_)
    ⟨txns, hlog⟩ (fun n _ => hq.held r n) ?_ hle hevents htold hquiet
  · obtain rfl := Option.some.inj heq
    rw [hnext]
    exact ⟨(h.manned.crewed t th hr.thread).1, (htakes.crewed hcrewed hr.search).1.calm hcalm⟩
  · obtain rfl := Option.some.inj heq
    exact Or.inl ⟨th, rfl, htakes.owns i hi⟩
  · obtain rfl := Option.some.inj heq
    refine Or.inl ⟨th, rfl, ?_⟩
    rcases hkeeps i hi with hi | hi
    · exact Or.inl hi
    · exact keeps_owned (Or.inl hi)
  · obtain rfl := Option.some.inj heq
    obtain ⟨i, stage, heq⟩ := syncs_native hs
    exact absurd heq (hr.native i stage)
  · obtain rfl := Option.some.inj heq
    exact absurd hs hr.search
  · obtain rfl := Option.some.inj heq
    exact absurd hs hidle
  · rw [hdecided]
    unfold view
    rw [hq.held r]

/-- A decision that prepares nothing. -/
theorem running_unchanged (more : List Event) (h : Running conf G A r s w)
    (hr : Ready conf r w t th goal prev p read)
    (hdecided : decided conf (view r w.core.log th.name) goal = view r w.core.log th.name)
    (hcore : w'.core = w.core) (hshown : Shown s w') (hobjects : w'.objects = w.objects)
    (hversions : w'.versions = w.versions) (hdurable : w'.durable = w.durable)
    (hhanded : w'.handed = w.handed) (hnext : w'.next = w.next)
    (hthreads : w'.threads = update w.threads t (some (th.enters .idle)))
    (hevents : w'.events = w.events ++ told w th goal prev read :: more)
    (htold : ∀ e ∈ more, Tells conf A r w e) (hquiet : ∀ n, ∀ e ∈ more, goalOn n e = none) :
    Running conf G A r s w' := by
  have hq : Quiet conf w w' := by
    refine ⟨⟨[], by rw [hcore, List.append_nil], fun n u hu => by contradiction⟩, by rw [hcore],
      fun i q hq => Or.inl ?_⟩
    rwa [hcore] at hq
  refine running_leaves more h hr hq (hcore ▸ h.grounded.engaged) hshown hobjects hversions hdurable
    hhanded hnext hthreads (fun u uth _ _ i _ => by rw [hcore]) (fun i _ => by rw [hcore])
    (fun i q hq _ => by rwa [hcore] at hq) hdecided hevents (fun e he => ?_) hquiet
  exact (htold e he).later ⟨[], by rw [hcore, List.append_nil]⟩ fun c => by rw [hdurable]

/-! A decision that hands the name over. -/

/-- Nothing in the map is being written. -/
theorem Prepares.unmapped {core : Core} {next : ℕ} {n : Object} {blob : Bytes}
    (hp : Prepares conf G r s w t th core next n blob) (h : Grounded conf G r s w) {m : Name} :
    w.objects m ≠ some (.object next) := by
  intro hmap
  rcases hp.before with hge | ⟨q, hq, hwriting⟩
  · have hlt := h.known m next hmap
    omega
  · obtain ⟨-, hs | ⟨hs, -⟩⟩ := h.mapped m next q hmap hq <;> rcases hwriting with hw | hw <;>
      rw [hs] at hw <;> contradiction

theorem overwrites_put {core : Core} {next ts : ℕ} {n : Object} {blob : Bytes}
    (h : Grounded conf G r s w) (hr : Ready conf r w t th goal prev p read)
    (hp : Prepares conf G r s w t th core next n blob) (hgoal : G goal) (hlt : p.ts < ts)
    (hdecided : decided conf (view r w.core.log th.name) goal = some ⟨ts, n.deleted, blob⟩) :
    ∃ core₂ o, core.put next prev (some ts) = .ok core₂ ∧ Engaged conf G r s core₂ ∧
      view r core₂.log th.name = some ⟨ts, n.deleted, blob⟩ ∧
      Overwrites w { w with core := core₂ } th.name prev next p o := by
  obtain ⟨hpname, hpstate⟩ := hr.mapped h
  have hne : next ≠ prev := fun heq => hp.unmapped h (heq ▸ hr.slot)
  have hprev : core.heap prev = some p := (hp.same prev hne.symm).trans hr.object
  have hname : n.name = p.name := hp.writes.2.trans hpname.symm
  have hput := put_eq (p := 0) (some ts) hp.writes.1 (hpstate.imp_right And.left) hname
    (hp.engaged.plain next n hp.object).1 (hp.engaged.plain prev p hprev).1
  simp only [Option.getD_some, if_neg (Nat.not_le_of_lt hlt)] at hput
  let txn : Txn := ⟨n.name, Backend.handOverOps n p ts, .put next prev n.name ts⟩
  let core₂ := { core with heap := update core.heap prev (some (Backend.retire p)) }.prepared next
    (Backend.settle n ts) txn
  have hcore : core.put next prev (some ts) = .ok core₂ := by
    simp only [Core.put, hp.object, hprev, hput]
    rfl
  have hheld : (r.after core.log).held = (r.after w.core.log).held := funext (hp.quiet.held r)
  have hholds : Holds (r.after core.log) p := (hr.holds h).same (congrFun hheld p.name)
  have hview : ((r.after core.log).held n.name).map View.of = view r w.core.log th.name := by
    rw [hheld, hp.writes.2]
    rfl
  obtain ⟨hengaged, htouch⟩ := engaged_put hp.engaged hp.object hprev hput hholds hp.drafted hgoal
    (by rw [hview]; exact hdecided)
  obtain ⟨more, hlog, -⟩ := hp.quiet.log
  have hlog : core.log = w.core.log ++ more := hlog
  have hlog₂ : core₂.log = core.log ++ [txn] := rfl
  have hlast : core₂.log[core.log.length]? = some txn := by
    rw [hlog₂, List.getElem?_concat_length]
  refine ⟨core₂, { Backend.settle n ts with done := some core.log.length }, hcore, hengaged, ?_, ?_⟩
  · have hwritten := hengaged.written core.log.length txn hlast th.name
      ((htouch th.name).mpr hp.writes.2.symm)
    obtain ⟨⟨v, hv, hstat, hheader⟩, -⟩ := hp.drafted
    have hj : (r.after core.log).temp prev = none := by
      refine hp.engaged.stands.not_temp hprev ?_
      rcases hpstate with hs | ⟨hs, -⟩ <;> simp [InTemp, hs]
    unfold view
    rw [hlog₂, Record.after_concat]
    simp only [txn, Record.apply_put hv hj, hp.writes.2, Record.setHeld_self, Option.map_some,
      View.of, Version.placed, hheader, hstat]
  · refine ⟨⟨more ++ [txn], by rw [hlog₂, hlog, List.append_assoc]⟩, fun m k hm hk => ?_,
      ⟨core.log.length, ?_, ?_, ⟨txn, hlast, (htouch th.name).mpr hp.writes.2.symm⟩, rfl⟩,
      update_self .., ⟨hp.writes.2, rfl⟩, fun _ => ?_, fun i hi hi' => ?_, hp.quiet.fresh,
      fun heq => absurd heq hne, fun i => le_refl _, fun i _ => rfl, fun heq => absurd heq hne⟩
    · rcases @touched_concat m core.log txn k hk with hk | ⟨-, htouched⟩
      · exact hp.quiet.touched hk
      · exact absurd (((htouch m).mp htouched).trans hp.writes.2) hm
    · rw [hlog, List.length_append]
      omega
    · change _ = (core.log ++ [txn]).length
      rw [List.length_append, List.length_singleton]
    · exact (update_of_ne hne.symm _ _).trans (update_self ..)
    · exact ((update_of_ne hi _ _).trans (update_of_ne hi' _ _)).trans (hp.same i hi)

/-- A put that comes right after the metadata of its next version. -/
theorem running_handOver {core : Core} {next ts : ℕ} {n : Object} {blob : Bytes}
    (h : Running conf G A r s w) (hr : Ready conf r w t th goal prev p read)
    (hp : Prepares conf G r s w t th core next n blob) (hgoal : G goal)
    (hdecided : decided conf (view r w.core.log th.name) goal =
      if ts ≤ ((view r w.core.log th.name).map View.ts).getD 0 then view r w.core.log th.name
      else some ⟨ts, n.deleted, blob⟩)
    (hanswer : A (.wrote ts) (decided conf (view r w.core.log th.name) goal)) :
    Running conf G A r s
      (World.handOver { (w.note (told w th goal prev read)) with core } t th next prev ts) := by
  have hg := h.grounded
  obtain ⟨hpname, hpstate⟩ := hr.mapped hg
  have hne : next ≠ prev := fun heq => hp.unmapped hg (heq ▸ hr.slot)
  have hprev : core.heap prev = some p := (hp.same prev hne.symm).trans hr.object
  rw [hr.ts hg] at hdecided
  obtain ⟨more, hlog, -⟩ := hp.quiet.log
  by_cases hle : ts ≤ p.ts
  · rw [if_pos hle] at hdecided
    have hput := put_eq (p := 0) (some ts) hp.writes.1 (hpstate.imp_right And.left)
      (hp.writes.2.trans hpname.symm) (hp.engaged.plain next n hp.object).1
      (hp.engaged.plain prev p hprev).1
    simp only [Option.getD_some, if_pos hle] at hput
    have hcore : core.put next prev (some ts) = .error (.conflict "put" n.name ts p.ts) := by
      simp only [Core.put, hp.object, hprev, hput]
      rfl
    have hanswered : Tells conf A r w (.answered th.name (.wrote ts)) :=
      tells_settled hg hr.settled (hdecided ▸ hanswer)
    simp only [World.handOver, hcore]
    refine running_leaves [.raised (.conflict "put" n.name ts p.ts), .answered th.name (.wrote ts)] h hr
      ⟨hp.quiet.log, hp.quiet.fresh, hp.quiet.heap⟩ hp.engaged
      (hg.shown.append hlog rfl rfl rfl rfl) rfl rfl rfl rfl rfl rfl
      (fun u uth hut hu i hi => hp.same i ?_) (fun i hi => hp.same i ?_) (fun i q hq hactive => ?_)
      hdecided ?_ (fun e he => ?_) fun m e he => ?_
    · rintro rfl
      exact hp.alone u uth hut hu hi
    · rintro rfl
      rcases hi with hi | hi
      · exact hp.mine.1 hi
      · exact hp.mine.2 hi
    · by_cases hi : i = next
      · subst hi
        obtain rfl := Option.some.inj (hq.symm.trans hp.object)
        rw [hp.writes.1] at hactive
        contradiction
      · exact (hp.same i hi).symm.trans hq
    · simp [World.note, World.answer, World.set]
    · simp only [List.mem_cons, List.not_mem_nil, or_false] at he
      rcases he with rfl | rfl
      · exact id
      · exact hanswered.later ⟨more, hlog⟩ fun _ => le_refl _
    · simp only [List.mem_cons, List.not_mem_nil, or_false] at he
      rcases he with rfl | rfl <;> rfl
  · rw [if_neg hle] at hdecided
    obtain ⟨core₂, o, hcore, hengaged, hview, ho⟩ :=
      overwrites_put hg hr hp hgoal (Nat.lt_of_not_le hle) hdecided
    simp only [World.handOver, hcore]
    obtain ⟨more₂, hlog₂⟩ := ho.log
    refine running_overwrites (a := .wrote ts) h hr (ho.to rfl rfl) hengaged
      (hg.shown.append hlog₂ rfl rfl rfl rfl) rfl (fun m hmap => absurd hmap (hp.unmapped hg)) rfl rfl
      rfl rfl (fun u uth hut hu hi => absurd hi (hp.alone u uth hut hu))
      (fun hi => absurd hi hp.mine.1) hp.mine.2 ?_ ?_ rfl
    · exact (hview.trans hdecided.symm) ▸ hanswer
    · exact hview.trans hdecided.symm

/-- The metadata write before a put, of an Object only the thread knows. -/
theorem prepares_draft {c : Core} {next : ℕ} {q o₁ q' : Object} {blob : Bytes}
    {ops : List EngineObjects.Op} (hc : Engaged conf G r s c) (hlog : c.log = w.core.log)
    (hfresh : w.core.fresh ≤ c.fresh) (hsame : ∀ i, i ≠ next → c.heap i = w.core.heap i)
    (hq : c.heap next = some q) (hname : q.name = th.name)
    (hfrom : o₁ = q ∨ q.state = .preWrite ∧ o₁ = { q with deleted := true }) (hw : Writing o₁)
    (hm : o₁.writeMetadata blob = .ok (q', ops))
    (hbefore : w.core.fresh ≤ next ∨ ∃ p, w.core.heap next = some p ∧ Writing p)
    (halone : ∀ u uth, u ≠ t → w.threads u = some uth → ¬ uth.keeps next)
    (hmine : th.held ≠ some next ∧ th.own ≠ some next) :
    let n := { q' with done := some c.log.length }
    Prepares conf G r s w t th (c.prepared next q' ⟨q.name, ops, .header next q'.toStat blob⟩) next n
      blob ∧ n.deleted = o₁.deleted := by
  intro n
  obtain ⟨hengaged, hdrafted, hnext, hnone⟩ := engaged_draft hc hq hfrom hw hm
  have hname' : q'.name = th.name := by
    rw [hnext]
    rcases hfrom with rfl | ⟨-, rfl⟩ <;> exact hname
  have hstate : q'.state = .inWrite := by rw [hnext]
  refine ⟨⟨hengaged, hdrafted, update_self .., ⟨hstate, hname'⟩, fun i hi => ?_,
    ⟨⟨[⟨q.name, ops, .header next q'.toStat blob⟩], ?_, fun m u hu => ?_⟩, hfresh, fun i x hx => ?_⟩,
    hbefore, halone, hmine⟩, ?_⟩
  · exact (update_of_ne hi _ _).trans (hsame i hi)
  · change c.log ++ _ = _
    rw [hlog]
  · rw [List.mem_singleton.mp hu]
    exact hnone m
  · rcases heap_update hx with ⟨rfl, heq⟩ | ⟨hi, hx⟩
    · obtain rfl := Option.some.inj heq
      refine Or.inr ⟨?_, by simp [hstate], fun hactive => by simp [hstate] at hactive⟩
      rcases hbefore with hge | ⟨p, hp, hs | hs⟩
      · exact Or.inl hge
      · exact Or.inr ⟨p, hp, by simp [hs]⟩
      · exact Or.inr ⟨p, hp, by simp [hs]⟩
    · exact Or.inl ((hsame i hi).symm.trans hx)
  · change q'.deleted = o₁.deleted
    rw [hnext]

theorem prepares_put {own ts : ℕ} {metadata : Section} (blob : Bytes) (h : Running conf G A r s w)
    (hr : Ready conf r w t th (.put own ts metadata) prev p read) :
    ∃ core n, w.core.writeMetadata own blob = .ok core ∧
      Prepares conf G r s w t th core own n blob ∧ n.deleted = false := by
  have hcrewed := (h.manned.crewed t th hr.thread).2
  have howns : (th.frame.bind Frame.goal).bind Goal.own = some own := by
    rw [hr.aims]
    rfl
  obtain ⟨o, ho, hname⟩ := hcrewed.alive own (keeps_owned (Or.inr howns))
  have hwriting := hcrewed.owned own o (Or.inr howns) ho
  have hdeleted := hcrewed.undeleted own o (Or.inr howns) ho
  obtain ⟨o', ops, hm⟩ : ∃ o' ops, o.writeMetadata blob = .ok (o', ops) :=
    ⟨_, _, writeMetadata_eq hwriting blob⟩
  have hcore : w.core.writeMetadata own blob =
      .ok (w.core.prepared own o' ⟨o.name, ops, .header own o'.toStat blob⟩) := by
    simp only [Core.writeMetadata, ho, hm]
    rfl
  obtain ⟨hp, hsame⟩ := prepares_draft (w := w) h.grounded.engaged rfl (le_refl _)
    (fun i _ => rfl) ho hname (Or.inl rfl) hwriting hm (Or.inr ⟨o, ho, hwriting⟩)
    (fun u uth hut hu hi => hut (h.manned.apart t u th uth own hr.thread hu (Or.inr howns) hi).symm)
    ⟨fun hheld => (hcrewed.holds own o hheld ho).not_writing hwriting, fun hown => by
      rw [hcrewed.spent own howns] at hown
      contradiction⟩
  exact ⟨_, _, hcore, hp, hsame.trans hdeleted⟩

theorem prepares_delete (blob : Bytes) (us : UInt64) (h : Running conf G A r s w)
    (hth : w.threads t = some th) : ∃ core n,
      (w.core.create th.name none us).tombstone w.core.fresh blob = .ok core ∧
        Prepares conf G r s w t th core w.core.fresh n blob ∧ n.deleted = true := by
  have hfresh : ∀ u uth, w.threads u = some uth → ∀ i, uth.keeps i → i ≠ w.core.fresh :=
    fun u uth hu i hi => (h.manned.lt_fresh h.grounded hu hi).ne
  let o := Backend.create 0 th.name ((none : Option ℕ).getD (estimate w.core.last us).toNat)
  have hc : Engaged conf G r s (w.core.create th.name none us) :=
    engaged_fresh h.grounded.engaged _ ⟨rfl, by simp [Backend.create]⟩ rfl (Or.inl ⟨rfl, rfl⟩)
  have ho : (w.core.create th.name none us).heap w.core.fresh = some o := update_self ..
  have hwriting : Writing { o with deleted := true } := Or.inl rfl
  obtain ⟨o', ops, hm⟩ : ∃ o' ops, { o with deleted := true }.writeMetadata blob = .ok (o', ops) :=
    ⟨_, _, writeMetadata_eq hwriting blob⟩
  have hcore : (w.core.create th.name none us).tombstone w.core.fresh blob =
      .ok ((w.core.create th.name none us).prepared w.core.fresh o'
        ⟨o.name, ops, .header w.core.fresh o'.toStat blob⟩) := by
    have htomb : o.tombstone blob = .ok (o', ops) := hm
    simp only [Core.tombstone, ho, htomb]
    rfl
  obtain ⟨hp, hsame⟩ := @prepares_draft conf G r s w t th _ _ _ _ _ _ _ hc rfl (Nat.le_succ _)
    (fun i hi => update_of_ne hi _ _) ho rfl (Or.inr ⟨rfl, rfl⟩) hwriting hm (Or.inl (le_refl _))
    (fun u uth _ hu hi => hfresh u uth hu _ hi rfl)
    ⟨fun hheld => hfresh t th hth _ (Or.inl hheld) rfl,
      fun hown => hfresh t th hth _ (keeps_owned (Or.inl hown)) rfl⟩
  exact ⟨_, _, hcore, hp, hsame⟩

/-! A POST, and the decision as the code makes it. -/

/-- What a POST is decided against. -/
theorem Ready.previous (hr : Ready conf r w t th goal prev p read) :
    DeviceEngine.previous conf read =
      DeviceEngine.previous conf ((view r w.core.log th.name).map View.header) := by
  rw [← hr.reads]

theorem overwrites_post {metadata : Section} {blob : Blob} (h : Grounded conf G r s w)
    (hr : Ready conf r w t th (.post metadata) prev p read) (hgoal : G (.post metadata))
    (hpost : MetadataModel.post (DeviceEngine.previous conf read) metadata = .ok (some blob)) :
    ∃ core o, w.core.writeMetadata prev (conf.dumps blob) = .ok core ∧ Engaged conf G r s core ∧
      view r core.log th.name = decided conf (view r w.core.log th.name) (.post metadata) ∧
      Overwrites w { w with core, versions := update w.versions prev (w.versions prev + 1) } th.name
        prev prev p o := by
  obtain ⟨hpname, hpstate⟩ := hr.mapped h
  have hactive : p.state = .active := by
    refine hpstate.resolve_right fun ⟨_, hnone⟩ => ?_
    have hview : view r w.core.log th.name = none := by
      unfold view
      rw [hnone]
      rfl
    rw [hr.previous, hview] at hpost
    simp [DeviceEngine.previous, MetadataModel.post] at hpost
  obtain ⟨v, hv, hstat⟩ := (h.engaged.stands.drafts prev p hr.object).holding hactive
  have hview : view r w.core.log th.name = some (View.of v) := by
    unfold view
    rw [← hpname, hv]
    rfl
  rw [hr.previous, hview] at hpost
  have hdecided : decided conf (some (View.of v)) (.post metadata) =
      some { View.of v with header := conf.dumps blob } := by
    simp only [decided, Option.map_some] at hpost ⊢
    rw [hpost]
  obtain ⟨p', ops, hm⟩ : ∃ p' ops, p.writeMetadata (conf.dumps blob) = .ok (p', ops) := by
    have hreq : p.require "write_metadata" [.preWrite, .inWrite, .active] = .ok () :=
      require_of_mem (by simp [hactive])
    unfold Object.writeMetadata
    rw [hreq]
    exact ⟨_, _, rfl⟩
  have hcore : w.core.writeMetadata prev (conf.dumps blob) =
      .ok (w.core.prepared prev p' ⟨p.name, ops, .header prev p'.toStat (conf.dumps blob)⟩) := by
    simp only [Core.writeMetadata, hr.object, hm]
    rfl
  obtain ⟨hengaged, hnext, htouch⟩ := engaged_post h.engaged hr.object hactive hm hgoal
    fun u hu => by
      obtain rfl := Option.some.inj (hv.symm.trans hu)
      exact hdecided
  let txn : Txn := ⟨p.name, ops, .header prev p'.toStat (conf.dumps blob)⟩
  have hlast : (w.core.log ++ [txn])[w.core.log.length]? = some txn := List.getElem?_concat_length
  refine ⟨_, { p' with done := some w.core.log.length }, hcore, hengaged, ?_, ⟨[txn], rfl⟩,
    fun m k hm hk => ?_, ⟨w.core.log.length, le_refl _, ?_, ⟨txn, hlast, (htouch _).mpr hpname.symm⟩, rfl⟩,
    update_self .., ⟨?_, ?_⟩, fun hne => absurd rfl hne, fun i hi _ => update_of_ne hi _ _, le_refl _,
    fun _ => ⟨?_, hactive⟩, fun i => ?_, fun i hi => update_of_ne hi _ _, fun _ => ?_⟩
  · have hwritten := hengaged.written w.core.log.length txn hlast th.name
      ((htouch th.name).mpr hpname.symm)
    have hv' : (r.after w.core.log).held th.name = some v := hpname ▸ hv
    unfold view
    change ((r.after (w.core.log ++ [txn])).held th.name).map View.of = _
    rw [Record.after_concat]
    simp only [txn, hnext, Record.apply, hactive, if_true, hpname, Record.setHeld_self, hv',
      Option.map_some]
    exact hdecided.symm
  · rcases @touched_concat m w.core.log txn k hk with hk | ⟨-, htouched⟩
    · exact hk
    · exact absurd (((htouch m).mp htouched).trans hpname) hm
  · change _ = (w.core.log ++ [txn]).length
    rw [List.length_append, List.length_singleton]
  · rw [hnext]
    exact hpname
  · rw [hnext]
    exact hactive
  · rw [hnext]
  · change w.versions i ≤ update w.versions prev (w.versions prev + 1) i
    by_cases hi : i = prev
    · subst hi
      rw [update_self]
      omega
    · rw [update_of_ne hi]
  · change w.versions prev < update w.versions prev (w.versions prev + 1) prev
    rw [update_self]
    omega

theorem running_post {metadata : Section} (hA : Promises conf G A) (h : Running conf G A r s w)
    (hr : Ready conf r w t th (.post metadata) prev p read) (hgoal : G (.post metadata)) (us : UInt64) :
    Running conf G A r s (w.decide conf t th (.post metadata) prev read us) := by
  have hprev := hr.previous
  have hread := hr.reads
  cases hpost : MetadataModel.post (DeviceEngine.previous conf read) metadata with
  | error e =>
    have hdecide : w.decide conf t th (.post metadata) prev read us =
        ((w.note (told w th (.post metadata) prev read)).note (.broken th.name)).set t
          (th.enters .idle) := by
      unfold DeviceEngine.previous at hpost
      simp only [World.decide, hpost]
      rfl
    rw [hdecide]
    rw [hprev] at hpost
    refine running_unchanged [.broken th.name] h hr ?_ rfl (h.grounded.shown.same rfl rfl rfl rfl rfl)
      rfl rfl rfl rfl rfl rfl (by simp [World.note, World.set]) (fun e he => ?_) fun n e he => ?_
    · simp only [decided, hpost]
    · rw [List.mem_singleton.mp he]
      trivial
    · rw [List.mem_singleton.mp he]
      rfl
  | ok result =>
    cases result with
    | none =>
      have hdecide : w.decide conf t th (.post metadata) prev read us =
          (w.note (told w th (.post metadata) prev read)).answer t th
            (.posted metadata read.isSome) := by
        unfold DeviceEngine.previous at hpost
        simp only [World.decide, hpost]
        rfl
      rw [hdecide]
      have hheld : decided conf (view r w.core.log th.name) (.post metadata) =
          view r w.core.log th.name := by
        rw [hprev] at hpost
        simp only [decided, hpost]
      have hanswer : A (.posted metadata read.isSome) (view r w.core.log th.name) := by
        cases hview : view r w.core.log th.name with
        | none =>
          rw [hread, hview]
          exact hA.unfound metadata none
        | some v =>
          rw [hview, Option.map_some] at hread
          rw [hread] at hpost ⊢
          have hposted := hA.posted v metadata none hgoal (hr.loads v.header hread) hpost
          rwa [← hview, hheld, hview] at hposted
      have htells := tells_settled h.grounded hr.settled hanswer
      refine running_unchanged [.answered th.name (.posted metadata read.isSome)] h hr hheld rfl
        (h.grounded.shown.same rfl rfl rfl rfl rfl) rfl rfl rfl rfl rfl rfl
        (by simp [World.note, World.answer, World.set]) (fun e he => ?_) fun n e he => ?_
      · rw [List.mem_singleton.mp he]
        exact htells
      · rw [List.mem_singleton.mp he]
        rfl
    | some blob =>
      obtain ⟨core, o, hcore, hengaged, hview, ho⟩ := overwrites_post h.grounded hr hgoal hpost
      have hdecide : w.decide conf t th (.post metadata) prev read us =
          World.sync { (w.note (told w th (.post metadata) prev read)) with
            core, versions := update w.versions prev (w.versions prev + 1) } t th prev
              (.posted metadata true) := by
        unfold DeviceEngine.previous at hpost
        simp only [World.decide, World.note, hpost, hcore]
        rfl
      rw [hdecide]
      obtain ⟨more, hlog⟩ := ho.log
      obtain ⟨v, hv⟩ : ∃ v, view r w.core.log th.name = some v := by
        cases hview : view r w.core.log th.name with
        | some v => exact ⟨v, rfl⟩
        | none =>
          rw [hprev, hview] at hpost
          simp [DeviceEngine.previous, MetadataModel.post] at hpost
      rw [hv, Option.map_some] at hread
      rw [hread] at hpost
      have hposted := hA.posted v metadata (some blob) hgoal (hr.loads v.header hread) hpost
      have hcrewed := (h.manned.crewed t th hr.thread).2
      have hsame : update w.objects th.name (some (.object prev)) = w.objects := by
        rw [← hr.slot, update_eq_self]
      refine running_overwrites (a := .posted metadata true) h hr (ho.to rfl rfl) hengaged
        (h.grounded.shown.append hlog rfl rfl rfl rfl) hsame.symm (fun _ _ => rfl) rfl rfl rfl rfl
        (fun _ _ _ _ _ => rfl) (fun _ => rfl) (fun hown => ?_) ?_ hview rfl
      · have hwriting := hcrewed.owned prev p (Or.inl hown) hr.object
        obtain ⟨-, hs | ⟨hs, -⟩⟩ := hr.mapped h.grounded <;> rcases hwriting with hw | hw <;>
          rw [hs] at hw <;> contradiction
      · change A _ (view r core.log th.name)
        rw [hview, hv]
        exact hposted

/-- A decision of a thread that has read all there is to know for it. -/
theorem running_decide (hA : Promises conf G A) (h : Running conf G A r s w)
    (hr : Ready conf r w t th goal prev p read) (us : UInt64) :
    Running conf G A r s (w.decide conf t th goal prev read us) := by
  have hgoal := (h.manned.crewed t th hr.thread).2.goals goal hr.aims
  have hheader : (view r w.core.log th.name).map View.header = read := hr.reads.symm
  cases goal with
  | post metadata => exact running_post hA h hr hgoal us
  | put own ts metadata =>
    obtain ⟨core, n, hcore, hp, hdeleted⟩ := prepares_put
      (conf.dumps (MetadataModel.put (DeviceEngine.previous conf read) metadata)) h hr
    have hdecide : w.decide conf t th (.put own ts metadata) prev read us = World.handOver
        { (w.note (told w th (.put own ts metadata) prev read)) with core } t th own prev ts := by
      unfold DeviceEngine.previous at hcore
      simp only [World.decide, World.note, hcore]
      rfl
    rw [hdecide]
    refine running_handOver h hr hp hgoal ?_ (hA.wrote _ _ ts hgoal rfl)
    simp only [decided, hheader, hdeleted]
  | delete ts metadata =>
    obtain ⟨core, n, hcore, hp, hdeleted⟩ := @prepares_delete _ _ _ _ _ _ _ _
      (conf.dumps (MetadataModel.delete (DeviceEngine.previous conf read) ts metadata)) us h hr.thread
    have hdecide : w.decide conf t th (.delete ts metadata) prev read us = World.handOver
        { (w.note (told w th (.delete ts metadata) prev read)) with core } t th w.core.fresh prev ts := by
      unfold DeviceEngine.previous at hcore
      simp only [World.decide, World.note, hcore]
      rfl
    rw [hdecide]
    refine running_handOver h hr hp hgoal ?_ (hA.wrote _ _ ts hgoal rfl)
    simp only [decided, hheader, hdeleted]

end Swiftacular.DeviceDecisions
