import Swiftacular.DeviceWorld

/-!
The steps of the Device, one lemma each: what holds between two steps holds
after the next. A thread's own moves are told apart by where it is; a decision
is the one step that changes what holds a name.
-/
namespace Swiftacular.DeviceSteps

open Function EntryStore EngineObjects Versions EngineRuns LiveObjects HeldEntries PreparedLog
  DeviceRuns DeviceEngine DeviceWorld

section Definitions

variable (conf : Conf) (G : Goal → Prop) (A : Answer → Option View → Prop)

/-- What holds a name, as its requests see it. -/
def view (r : Record) (log : List Txn) (name : Name) : Option View :=
  ((r.after log).held name).map View.of

/-- Errors a caller can do nothing about: the engine was used against its rules. -/
def Misuse : Error → Prop
  | .state _ _ _ | .invalidArgument _ _ => True
  | _ => False

/-- A decision was made against the Object the map had for the name, which
stood for what held it, and against all the metadata of what held it. -/
structure Current (r : Record) (log : List Txn) (d : Decision) : Prop where
  time : d.time ≤ log.length
  slot : d.slot = some (.object d.prev)
  object : ∃ o, d.object = some o ∧ o.name = d.name ∧ Holds (r.after (log.take d.time)) o
  read : d.read = (view r (log.take d.time) d.name).map View.header

/-- What a request asks for, as the decisions it leads to. -/
def Asks : Ask → Prop
  | .put ts metadata => ∀ own, G (.put own ts metadata)
  | .delete ts metadata => G (.delete ts metadata)
  | .post metadata => G (.post metadata)
  | _ => True

/-- What the events say is so. -/
def Tells (r : Record) (w : World) : Event → Prop
  | .searched o time => time ≤ w.core.log.length ∧ Holds (r.after (w.core.log.take time)) o
  | .decided d => Current r w.core.log d
  | .raised e => ¬ Misuse e
  | .answered name answer => ∃ k, k ≤ w.durable (conf.collection name) ∧
      k ≤ w.core.log.length ∧ A answer (view r (w.core.log.take k) name)
  | _ => True

/-- The goal of a decision on a name. -/
def goalOn (name : Name) : Event → Option Goal
  | .decided d => if d.name = name then some d.goal else none
  | _ => none

/-- The decisions on a name so far, in the order they were made. -/
def decisions (w : World) (name : Name) : List Goal := w.events.filterMap (goalOn name)

structure Running (r : Record) (s : Store) (w : World) : Prop where
  grounded : Grounded conf G r s w
  manned : Manned conf G A r w
  told : ∀ e ∈ w.events, Tells conf A r w e
  followed : ∀ name, view r w.core.log name = (decisions w name).foldl (decided conf) (view r [] name)

end Definitions

variable {conf : Conf} {G : Goal → Prop} {A : Answer → Option View → Prop} {r : Record} {s : Store}
  {w w' : World} {t : ℕ} {th : Thread} {name : Name}

theorem Tells.later {e : Event} (h : Tells conf A r w e)
    (hlog : ∃ more, w'.core.log = w.core.log ++ more) (hdurable : ∀ c, w.durable c ≤ w'.durable c) :
    Tells conf A r w' e := by
  obtain ⟨more, hlog⟩ := hlog
  have htake : ∀ k, k ≤ w.core.log.length → w'.core.log.take k = w.core.log.take k := by
    intro k hk
    rw [hlog, List.take_append_of_le_length hk]
  have hlen : ∀ k, k ≤ w.core.log.length → k ≤ w'.core.log.length := by
    intro k hk
    rw [hlog, List.length_append]
    omega
  cases e with
  | searched o time =>
    obtain ⟨htime, hholds⟩ := h
    exact ⟨hlen _ htime, by rw [htake _ htime]; exact hholds⟩
  | decided d =>
    obtain ⟨htime, hslot, hobject, hread⟩ := h
    exact ⟨hlen _ htime, hslot, by rw [htake _ htime]; exact hobject, by rw [htake _ htime]; exact hread⟩
  | answered name answer =>
    obtain ⟨k, hk, hlen', hA⟩ := h
    exact ⟨k, hk.trans (hdurable _), hlen _ hlen', by rw [htake _ hlen']; exact hA⟩
  | raised e => exact h
  | broken name => trivial
  | yielded id offset chunk => trivial

/-- A step that leaves what holds the names, and says only what is so. -/
theorem running_step {more : List Event} (h : Running conf G A r s w)
    (hgrounded : Grounded conf G r s w') (hmanned : Manned conf G A r w')
    (hlog : ∃ more, w'.core.log = w.core.log ++ more)
    (hheld : ∀ n, (r.after w'.core.log).held n = (r.after w.core.log).held n)
    (hdurable : ∀ c, w.durable c ≤ w'.durable c) (hevents : w'.events = w.events ++ more)
    (htold : ∀ e ∈ more, Tells conf A r w' e) (hquiet : ∀ n, ∀ e ∈ more, goalOn n e = none) :
    Running conf G A r s w' := by
  refine ⟨hgrounded, hmanned, fun e he => ?_, fun n => ?_⟩
  · rw [hevents] at he
    rcases List.mem_append.mp he with he | he
    · exact (h.told e he).later hlog hdurable
    · exact htold e he
  · have hnone : more.filterMap (goalOn n) = [] := List.filterMap_eq_nil_iff.mpr (hquiet n)
    have hsame : decisions w' n = decisions w n := by
      unfold decisions
      rw [hevents, List.filterMap_append, hnone, List.append_nil]
    rw [hsame, ← h.followed n]
    unfold view
    rw [hheld]

/-- A thread that is no search takes another place, or goes. -/
theorem running_thread {after : Option Thread} (more : List Event) (h : Running conf G A r s w)
    (hth : w.threads t = some th) (hsearch : ¬ Searches th) (hcore : w'.core = w.core)
    (hobjects : w'.objects = w.objects) (hversions : w'.versions = w.versions)
    (hdurable : w'.durable = w.durable) (hhanded : w'.handed = w.handed) (hshown : Shown s w')
    (hnext : w'.next = w.next) (hthreads : w'.threads = update w.threads t after)
    (hevents : w'.events = w.events ++ more) (htold : ∀ e ∈ more, Tells conf A r w e)
    (hquiet : ∀ n, ∀ e ∈ more, goalOn n e = none)
    (hplace : ∀ th', after = some th' → th'.name = th.name ∧ ¬ Searches th' ∧
      Crewed conf G A r w th' ∧ (∀ id, th'.owns id → th.owns id) ∧
      ∀ id, th'.keeps id → th.keeps id ∨ ∃ o, w.core.heap id = some o ∧ ¬ Writing o)
    (hguard : ∀ k, Syncs w th k → k < w.durable (conf.collection th.name) ∨
      ∃ th', after = some th' ∧ Syncs w th' k) : Running conf G A r s w' := by
  have hlog : ∃ more, w'.core.log = w.core.log ++ more := ⟨[], by rw [hcore, List.append_nil]⟩
  have hle : ∀ c, w.durable c ≤ w'.durable c := fun c => by rw [hdurable]
  exact running_step h (h.grounded.same hcore hobjects hdurable hhanded hshown)
    (manned_thread h.manned hth hsearch hcore hobjects hversions hdurable hnext hthreads hplace hguard)
    hlog (fun n => by rw [hcore]) hle hevents (fun e he => (htold e he).later hlog hle) hquiet

/-- What a thread may take up at its next place. -/
structure TakesUp (conf : Conf) (G : Goal → Prop) (A : Answer → Option View → Prop) (r : Record)
    (w : World) (th th' : Thread) : Prop where
  name : th'.name = th.name
  search : ¬ Searches th'
  owns : ∀ id, th'.owns id → th.owns id
  held : ∀ id, th'.held = some id → th.held = some id ∨
    ∃ o, w.core.heap id = some o ∧ o.name = th.name ∧ Found o
  uses : ∀ id, (th'.frame.bind Frame.object = some id ∨ th'.native.bind Native.object = some id) →
    (th.frame.bind Frame.object = some id ∨ th.native.bind Native.object = some id) ∨
      ∃ o, w.core.heap id = some o ∧ o.name = th.name ∧ Readable o
  goals : ∀ goal, th'.frame.bind Frame.goal = some goal →
    th.frame.bind Frame.goal = some goal ∧ th'.own = th.own ∨
      G goal ∧ ∀ id, goal.own = some id → th'.own = none
  loads : th'.loaded = true → th.loaded = true ∧ th'.held = th.held ∨
    ∀ id, th'.held = some id → ∃ o, w.core.heap id = some o ∧ Readable o
  placed : Placed conf A r w th'

theorem TakesUp.crewed {th' : Thread} (h : TakesUp conf G A r w th th') (hc : Crewed conf G A r w th)
    (hsearch : ¬ Searches th) : Crewed conf G A r w th' ∧
      ∀ id, th'.keeps id → th.keeps id ∨ ∃ o, w.core.heap id = some o ∧ ¬ Writing o := by
  have hkeeps : ∀ id, th'.keeps id → th.keeps id ∨
      ∃ o, w.core.heap id = some o ∧ o.name = th.name ∧ ¬ Writing o := by
    rintro id (hheld | howns | huses)
    · rcases h.held id hheld with hold | ⟨o, ho, hname, hfound⟩
      · exact Or.inl (Or.inl hold)
      · exact Or.inr ⟨o, ho, hname, hfound.not_writing⟩
    · exact Or.inl (keeps_owned (h.owns id howns))
    · rcases h.uses id huses with hold | ⟨o, ho, hname, hread⟩
      · exact Or.inl (Or.inr (Or.inr hold))
      · exact Or.inr ⟨o, ho, hname, hread.not_writing⟩
  refine ⟨⟨fun id hkeep => ?_, fun id o howns ho => hc.owned id o (h.owns id howns) ho,
    fun id o hheld ho => ?_, fun id o huses ho => ?_, fun goal hgoal => ?_, fun id howns => ?_,
    fun hloaded id o hheld ho => ?_, fun id o howns ho => hc.undeleted id o (h.owns id howns) ho,
    h.placed⟩,
    fun id hkeep => (hkeeps id hkeep).imp_right fun ⟨o, ho, _, hnot⟩ => ⟨o, ho, hnot⟩⟩
  · rw [h.name]
    rcases hkeeps id hkeep with hold | ⟨o, ho, hname, -⟩
    · exact hc.alive id hold
    · exact ⟨o, ho, hname⟩
  · rcases h.held id hheld with hold | ⟨o', ho', -, hfound⟩
    · exact hc.holds id o hold ho
    · obtain rfl := Option.some.inj (ho.symm.trans ho')
      exact hfound
  · rcases h.uses id huses.2 with hold | ⟨o', ho', -, hread⟩
    · exact hc.uses id o ⟨hsearch, hold⟩ ho
    · obtain rfl := Option.some.inj (ho.symm.trans ho')
      exact hread
  · exact (h.goals goal hgoal).elim (fun hold => hc.goals goal hold.1) And.left
  · obtain ⟨goal, hgoal, hid⟩ := Option.bind_eq_some_iff.mp howns
    rcases h.goals goal hgoal with ⟨hold, hown⟩ | ⟨-, hnew⟩
    · rw [hown]
      exact hc.spent id (by rw [hold]; exact hid)
    · exact hnew id hid
  · rcases h.loads hloaded with ⟨hold, hsame⟩ | hnew
    · exact hc.loads hold id o (hsame ▸ hheld) ho
    · obtain ⟨o', ho', hread⟩ := hnew id hheld
      obtain rfl := Option.some.inj (ho.symm.trans ho')
      exact hread

theorem syncs_native {k : ℕ} (h : Syncs w th k) : ∃ id stage, th.native = some (.sync id stage) := by
  obtain ⟨id, stage, -, hnative, -⟩ := h
  exact ⟨id, stage, hnative⟩

/-- A thread that is no search and in no sync goes on. -/
theorem running_set {th' : Thread} (h : Running conf G A r s w) (hth : w.threads t = some th)
    (hsearch : ¬ Searches th) (hnative : ∀ id stage, th.native ≠ some (.sync id stage))
    (htakes : TakesUp conf G A r w th th') : Running conf G A r s (w.set t th') := by
  obtain ⟨hcrewed, hkeeps⟩ := htakes.crewed (h.manned.crewed t th hth).2 hsearch
  refine running_thread [] h hth hsearch rfl rfl rfl rfl rfl
    (h.grounded.shown.same rfl rfl rfl rfl rfl) rfl rfl (List.append_nil _).symm (fun e he => by contradiction) (fun n e he => by contradiction)
    (fun uth heq => ?_) fun k hs => ?_
  · obtain rfl := Option.some.inj heq
    exact ⟨htakes.name, htakes.search, hcrewed, htakes.owns, hkeeps⟩
  · obtain ⟨id, stage, heq⟩ := syncs_native hs
    exact absurd heq (hnative id stage)

/-- The same, with something to tell. -/
theorem running_tell {th' : Thread} {e : Event} (h : Running conf G A r s w)
    (hth : w.threads t = some th) (hsearch : ¬ Searches th)
    (hguard : ∀ k, Syncs w th k → k < w.durable (conf.collection th.name) ∨ Syncs w th' k)
    (htakes : TakesUp conf G A r w th th') (htold : Tells conf A r w e)
    (hquiet : ∀ n, goalOn n e = none) : Running conf G A r s ((w.note e).set t th') := by
  obtain ⟨hcrewed, hkeeps⟩ := htakes.crewed (h.manned.crewed t th hth).2 hsearch
  refine running_thread [e] h hth hsearch rfl rfl rfl rfl rfl
    (h.grounded.shown.same rfl rfl rfl rfl rfl) rfl rfl rfl (fun e' he => ?_) (fun n e' he => ?_)
    (fun uth heq => ?_) fun k hs => ?_
  · rw [List.mem_singleton.mp he]
    exact htold
  · rw [List.mem_singleton.mp he]
    exact hquiet n
  · obtain rfl := Option.some.inj heq
    exact ⟨htakes.name, htakes.search, hcrewed, htakes.owns, hkeeps⟩
  · exact (hguard k hs).imp_right fun hs' => ⟨th', rfl, hs'⟩

/-! The moves of a thread between its calls. -/

theorem not_searches {frame : Frame} (hframe : th.frame = some frame) (hnot : frame ≠ .search)
    (hnot' : ∀ id, frame ≠ .searching id) : ¬ Searches th := by
  rintro (hs | ⟨id, hs⟩)
  · exact hnot (Option.some.inj (hframe.symm.trans hs))
  · exact hnot' id (Option.some.inj (hframe.symm.trans hs))

/-- The places between two calls. -/
def Rests : Frame → Prop
  | .idle | .opening _ | .waiting _ _ | .starting _ _ _ | .asking _ _ _ _ => True
  | _ => False

theorem takes_rest {th' : Thread} {frame : Frame} (hrests : Rests frame)
    (hframe : th'.frame = some frame) (hnative : th'.native = none) (hname : th'.name = th.name)
    (hown : ∀ id, th'.own = some id → th.owns id)
    (hheld : ∀ id, th'.held = some id → th.held = some id ∨
      ∃ o, w.core.heap id = some o ∧ o.name = th.name ∧ Found o)
    (hobject : ∀ id, frame.object = some id → (th.frame.bind Frame.object = some id ∨
      th.native.bind Native.object = some id) ∨
        ∃ o, w.core.heap id = some o ∧ o.name = th.name ∧ Readable o)
    (hgoal : ∀ goal, frame.goal = some goal →
      th.frame.bind Frame.goal = some goal ∧ th'.own = th.own ∨
        G goal ∧ ∀ id, goal.own = some id → th.owns id ∧ th'.own = none)
    (hloads : th'.loaded = true → th.loaded = true ∧ th'.held = th.held ∨
      ∀ id, th'.held = some id → ∃ o, w.core.heap id = some o ∧ Readable o)
    (hstart : ∀ id tries, frame = .starting id tries none → th'.held = some id) :
    TakesUp conf G A r w th th' := by
  refine ⟨hname, ?_, fun id howns => ?_, hheld, fun id huses => ?_, fun goal hg => ?_, hloads, ?_⟩
  · rintro (hs | ⟨id, hs⟩) <;>
    · rw [hframe] at hs
      obtain rfl := Option.some.inj hs
      exact hrests
  · rcases howns with hown' | hgoal'
    · exact hown id hown'
    · rw [hframe, Option.bind_some] at hgoal'
      obtain ⟨goal, hg, hid⟩ := Option.bind_eq_some_iff.mp hgoal'
      rcases hgoal goal hg with ⟨hold, -⟩ | ⟨-, hnew⟩
      · exact Or.inr (by rw [hold]; exact hid)
      · exact (hnew id hid).1
  · rcases huses with hobj | hnat
    · rw [hframe] at hobj
      exact hobject id hobj
    · rw [hnative] at hnat
      contradiction
  · rw [hframe] at hg
    exact (hgoal goal hg).imp_right fun ⟨hG, hnew⟩ => ⟨hG, fun id hid => (hnew id hid).2⟩
  · unfold Placed
    rw [hframe]
    cases frame with
    | starting id tries goal => exact ⟨hnative, fun hnone => hstart id tries (by rw [hnone])⟩
    | idle | opening | waiting | asking => exact hnative
    | search | searching | reading | writing | syncing | fetching => exact absurd hrests id

/-- A thread comes to rest at a place that asks for nothing. -/
theorem takes_idle {th' : Thread} (hframe : th'.frame = some .idle) (hnative : th'.native = none)
    (hname : th'.name = th.name) (hown : th'.own = th.own)
    (hheld : ∀ id, th'.held = some id → th.held = some id ∨
      ∃ o, w.core.heap id = some o ∧ o.name = th.name ∧ Found o)
    (hloads : th'.loaded = true → th.loaded = true ∧ th'.held = th.held ∨
      ∀ id, th'.held = some id → ∃ o, w.core.heap id = some o ∧ Readable o) :
    TakesUp conf G A r w th th' := by
  refine @takes_rest conf G A r w th th' .idle trivial hframe hnative hname
    (fun id h => Or.inl (hown ▸ h)) hheld (fun id h => ?_) (fun goal h => ?_) hloads
    fun id tries h => ?_
  · contradiction
  · contradiction
  · contradiction

theorem takes_enters {frame : Frame} (hrests : Rests frame)
    (hobject : ∀ id, frame.object = some id → (th.frame.bind Frame.object = some id ∨
      th.native.bind Native.object = some id) ∨
        ∃ o, w.core.heap id = some o ∧ o.name = th.name ∧ Readable o)
    (hgoal : ∀ goal, frame.goal = some goal → th.frame.bind Frame.goal = some goal ∨
      G goal ∧ goal.own = none)
    (hstart : ∀ id tries, frame = .starting id tries none → th.held = some id) :
    TakesUp conf G A r w th (th.enters frame) := by
  refine takes_rest hrests rfl rfl rfl (fun _ h => Or.inl h) (fun _ h => Or.inl h) hobject
    (fun goal hg => (hgoal goal hg).imp (fun hold => ⟨hold, rfl⟩) fun ⟨hG, hnone⟩ =>
      ⟨hG, fun id hid => ?_⟩) (fun hloaded => Or.inl ⟨hloaded, rfl⟩) hstart
  rw [hnone] at hid
  contradiction

/-- A thread starts a call on an Object it is already concerned with. -/
theorem takes_calls {frame : Frame} {native : Native} (hsearch : ∀ i, frame ≠ .searching i)
    (hsearch' : frame ≠ .search)
    (hobject : ∀ id, frame.object = some id ∨ native.object = some id →
      (th.frame.bind Frame.object = some id ∨ th.native.bind Native.object = some id) ∨
        ∃ o, w.core.heap id = some o ∧ o.name = th.name ∧ Readable o)
    (hgoal : ∀ goal, frame.goal = some goal → th.frame.bind Frame.goal = some goal)
    (hplaced : Placed conf A r w (th.calls frame native)) :
    TakesUp conf G A r w th (th.calls frame native) := by
  refine ⟨rfl, ?_, fun id howns => ?_, fun _ h => Or.inl h, hobject,
    fun goal hg => Or.inl ⟨hgoal goal hg, rfl⟩, fun hloaded => Or.inl ⟨hloaded, rfl⟩, hplaced⟩
  · rintro (hs | ⟨id, hs⟩)
    · exact hsearch' (Option.some.inj hs)
    · exact hsearch id (Option.some.inj hs)
  · rcases howns with hown | hg
    · exact Or.inl hown
    · obtain ⟨goal, hg, hid⟩ := Option.bind_eq_some_iff.mp hg
      exact Or.inr (by rw [hgoal goal hg]; exact hid)

/-- A metadata read, from the start. -/
theorem takes_begin {id tries : ℕ} {goal : Option Goal}
    (hobject : th.frame.bind Frame.object = some id)
    (hgoal : ∀ g, goal = some g → th.frame.bind Frame.goal = some g)
    (hheld : goal = none → th.held = some id) :
    TakesUp conf G A r w th
      (th.calls (.reading id (w.versions id) [] tries goal) (.sync id .enter)) := by
  refine takes_calls (fun i => by simp) (by simp) (fun i hi => Or.inl (Or.inl ?_)) hgoal
    ⟨hheld, le_refl _, Or.inl ⟨rfl, .enter, rfl⟩, fun o ho hactive hsame => ⟨fun i done hn => ?_,
      fun part i offset size look hn => ?_⟩⟩
  · rcases hi with hi | hi <;> exact hobject.trans hi
  · simp [Thread.calls] at hn
  · simp [Thread.calls] at hn

theorem running_begin {id tries : ℕ} {goal : Option Goal} (h : Running conf G A r s w)
    (hth : w.threads t = some th) (hsearch : ¬ Searches th)
    (hnative : ∀ i stage, th.native ≠ some (.sync i stage))
    (hobject : th.frame.bind Frame.object = some id)
    (hgoal : ∀ g, goal = some g → th.frame.bind Frame.goal = some g)
    (hheld : goal = none → th.held = some id) :
    Running conf G A r s (w.begin t th id tries goal) :=
  running_set h hth hsearch hnative (takes_begin hobject hgoal hheld)

/-- What an idle request asks for, other than a new Object or a write. -/
theorem running_ask {ask : Ask} (h : Running conf G A r s w) (hth : w.threads t = some th)
    (hframe : th.frame = some .idle) (hnative : th.native = none) (hasks : Asks G ask)
    (hcreate : ∀ us, ask ≠ .create us) (hwrite : ∀ data, ask ≠ .write data)
    (hstep : w.ask t th ask = some w') : Running conf G A r s w' := by
  have hsearch := not_searches hframe (by simp) (by simp)
  have hquiet : ∀ id stage, th.native ≠ some (.sync id stage) := by
    intro id stage
    rw [hnative]
    simp
  have hcrewed := (h.manned.crewed t th hth).2
  have halive : ∀ id, th.held = some id → ∃ o, w.core.heap id = some o ∧ o.name = th.name ∧ Found o := by
    intro id hid
    obtain ⟨o, ho, hname⟩ := hcrewed.alive id (Or.inl hid)
    exact ⟨o, ho, hname, hcrewed.holds id o hid ho⟩
  have hopening : ∀ {goal}, (∀ g, goal = some g → G g ∧ g.own = none) →
      Running conf G A r s (w.set t (th.enters (.opening goal))) := by
    intro goal hgoal
    exact running_set h hth hsearch hquiet (takes_enters trivial (fun id hid => by contradiction)
      (fun g hg => Or.inr (hgoal g hg)) fun id tries heq => by contradiction)
  cases ask with
  | create us => exact absurd rfl (hcreate us)
  | write data => exact absurd rfl (hwrite data)
  | «open» =>
    obtain rfl := Option.some.inj hstep
    exact hopening fun g hg => nomatch hg
  | info =>
    obtain ⟨id, hid, hstep⟩ := Option.bind_eq_some_iff.mp hstep
    obtain ⟨o, ho, hname, hfound⟩ := halive id hid
    rw [ho] at hstep
    split at hstep
    · exact nomatch hstep
    · rename_i hmiss
      obtain rfl := Option.some.inj hstep
      have hread : Readable o := hfound.resolve_left fun hstate => hmiss (by simp [hstate])
      refine running_set h hth hsearch hquiet (takes_enters trivial (fun i hi => Or.inr ?_)
        (fun g hg => nomatch hg) fun i tries heq => ?_)
      · obtain rfl := Option.some.inj hi
        exact ⟨o, ho, hname, hread⟩
      · simp only [Frame.starting.injEq] at heq
        rw [hid, heq.1]
  | put ts metadata =>
    obtain ⟨id, hid, rfl⟩ := Option.map_eq_some_iff.mp hstep
    refine running_set h hth hsearch hquiet (@takes_rest conf G A r w th _ (.opening _) trivial rfl
      rfl rfl (fun i hi => by contradiction) (fun i hi => Or.inl hi) (fun i hi => by contradiction)
      (fun g hg => ?_) (fun hloaded => Or.inl ⟨hloaded, rfl⟩) fun i tries heq => by contradiction)
    obtain rfl := Option.some.inj hg
    refine Or.inr ⟨hasks id, fun i hi => ⟨Or.inl ?_, rfl⟩⟩
    rw [hid]
    exact hi
  | delete ts metadata =>
    obtain ⟨id, hid, rfl⟩ := Option.map_eq_some_iff.mp hstep
    refine hopening fun g hg => ?_
    obtain rfl := Option.some.inj hg
    exact ⟨hasks, rfl⟩
  | post metadata =>
    obtain ⟨id, hid, rfl⟩ := Option.map_eq_some_iff.mp hstep
    refine hopening fun g hg => ?_
    obtain rfl := Option.some.inj hg
    exact ⟨hasks, rfl⟩
  | iterate start stop =>
    obtain ⟨id, hid, hstep⟩ := Option.bind_eq_some_iff.mp hstep
    split at hstep
    · rename_i hloaded
      obtain rfl := Option.some.inj hstep
      rw [Bool.and_eq_true] at hloaded
      obtain ⟨o, ho, hname, -⟩ := halive id hid
      refine running_set h hth hsearch hquiet (takes_enters trivial (fun i hi => Or.inr ?_)
        (fun g hg => by contradiction) fun i tries heq => by contradiction)
      obtain rfl := Option.some.inj hi
      exact ⟨o, ho, hname, hcrewed.loads hloaded.1 id o hid ho⟩
    · contradiction

/-! Calls of the engine that touch no name. -/

theorem calm_quiet (hq : Quiet conf w w') (hheap : ∀ id, th.keeps id →
    w'.core.heap id = w.core.heap id) (hversions : w'.versions = w.versions)
    (hdurable : ∀ c, w.durable c ≤ w'.durable c) : Calm conf r w w' th := by
  obtain ⟨more, hlog, -⟩ := hq.log
  exact ⟨hheap, fun id _ => by rw [hversions], hq.held r th.name, fun k hk => hq.touched hk,
    hdurable, ⟨more, hlog⟩⟩

/-- A thread and the engine go on, and no name is touched. -/
theorem running_quiet {before after : Option Thread} (more : List Event)
    (h : Running conf G A r s w) (hq : Quiet conf w w') (hengaged : Engaged conf G r s w'.core)
    (hshown : Shown s w') (hobjects : w'.objects = w.objects) (hversions : w'.versions = w.versions)
    (hdurable : w'.durable = w.durable) (hhanded : w'.handed = w.handed) (hnext : w.next ≤ w'.next)
    (hmoves : Moves conf G A r w w' t before after)
    (hheap : ∀ u uth, u ≠ t → w.threads u = some uth → ∀ id, uth.keeps id →
      w'.core.heap id = w.core.heap id)
    (hactive : ∀ id o, w'.core.heap id = some o → o.state = .active →
      w.core.heap id = some o ∨ FoundBy w' o.name id)
    (hsearch : ∀ th, before = some th → Searches th → (∃ th', after = some th' ∧
      th'.name = th.name ∧ Searches th') ∧ ¬ (th.native = none ∧ ∃ id, th.frame = some (.searching id)))
    (hsearch' : ∀ th', after = some th' → Searches th' →
      ∃ th, before = some th ∧ Searches th ∧ th'.name = th.name)
    (hevents : w'.events = w.events ++ more) (htold : ∀ e ∈ more, Tells conf A r w' e)
    (hsilent : ∀ n, ∀ e ∈ more, goalOn n e = none) : Running conf G A r s w' := by
  have hle : ∀ c, w.durable c ≤ w'.durable c := fun c => by rw [hdurable]
  obtain ⟨txns, hlog, -⟩ := hq.log
  exact running_step h (grounded_quiet h.grounded hq hengaged hshown hobjects hdurable hhanded)
    (manned_step h.manned hmoves hnext hobjects hle (fun n k hk => hq.touched hk)
      (fun u uth hut hu => calm_quiet hq (hheap u uth hut hu) hversions hle) hactive hsearch hsearch')
    ⟨txns, hlog⟩ (hq.held r) hle hevents htold hsilent

/-- A thread comes by a new Object. -/
theorem running_added {th' : Thread} {o : Object} (last : UInt64) (h : Running conf G A r s w)
    (hth : w.threads t = some th) (hplain : Plain o) (hdone : o.done = none)
    (hstate : o.state = .preWrite ∧ o.written = 0 ∨ o.state = .preSearch)
    (hname : th'.name = th.name) (hcrewed : Crewed conf G A r ((added w o last).set t th') th')
    (howns : ∀ id, th'.owns id → th.owns id ∨ id = w.core.fresh)
    (hkeeps : ∀ id, th'.keeps id → th.keeps id ∨ id = w.core.fresh)
    (hnative : ∀ id stage, th.native ≠ some (.sync id stage))
    (hsearch : Searches th' ↔ Searches th) (hfound : ∀ id, th.frame ≠ some (.searching id)) :
    Running conf G A r s ((added w o last).set t th') := by
  have hcalm : ∀ u uth, w.threads u = some uth → Calm conf r w (added w o last) uth :=
    fun u uth hu => calm_added h.grounded h.manned hu o last
  have hother : ∀ u uth, w.threads u = some uth → ∀ id, uth.keeps id → id ≠ w.core.fresh :=
    fun u uth hu id hkeep => (h.manned.lt_fresh h.grounded hu hkeep).ne
  have hquiet : Quiet conf w (added w o last) := quiet_added w last (hstate.imp_left And.left)
  refine @running_quiet conf G A r s w _ t (some th) (some th') [] h ⟨hquiet.log, hquiet.fresh, hquiet.heap⟩
    (engaged_fresh h.grounded.engaged last hplain hdone hstate)
    (h.grounded.shown.same rfl rfl rfl rfl rfl) rfl rfl rfl rfl (le_refl _)
    ⟨hth, rfl, fun uth heq => ?_, fun uth heq id hown => ?_, fun uth heq id hkeep => ?_,
      fun uth heq k hs => ?_⟩ (fun u uth _ hu => (hcalm u uth hu).heap)
    (fun id p hp hactive => ?_) (fun uth heq hs => ?_) (fun uth heq hs => ?_)
    (List.append_nil _).symm (fun e he => by contradiction) fun n e he => by contradiction
  · obtain rfl := Option.some.inj heq
    exact ⟨(h.manned.crewed t th hth).1, hcrewed⟩
  · obtain rfl := Option.some.inj heq
    rcases howns id hown with hold | rfl
    · exact Or.inl ⟨th, rfl, hold⟩
    · exact Or.inr fun u uth _ hu hkeep => hother u uth hu _ hkeep rfl
  · obtain rfl := Option.some.inj heq
    rcases hkeeps id hkeep with hold | rfl
    · exact Or.inl ⟨th, rfl, hold⟩
    · exact Or.inr fun u uth _ hu hown => hother u uth hu _ (keeps_owned hown) rfl
  · obtain rfl := Option.some.inj heq
    obtain ⟨id, stage, heq⟩ := syncs_native hs
    exact absurd heq (hnative id stage)
  · rcases heap_update hp with ⟨-, heq⟩ | ⟨-, hp⟩
    · obtain rfl := Option.some.inj heq
      rcases hstate with ⟨h, -⟩ | h <;> rw [h] at hactive <;> contradiction
    · exact Or.inl hp
  · obtain rfl := Option.some.inj heq
    exact ⟨⟨th', rfl, hname, hsearch.mpr hs⟩, fun ⟨_, id, hframe⟩ => hfound id hframe⟩
  · obtain rfl := Option.some.inj heq
    exact ⟨th, rfl, hsearch.mp hs, hname⟩

theorem running_create {us : UInt64} (h : Running conf G A r s w) (hth : w.threads t = some th)
    (hframe : th.frame = some .idle) (hnative : th.native = none)
    (hstep : w.ask t th (.create us) = some w') : Running conf G A r s w' := by
  obtain ⟨i, -, rfl⟩ := Option.map_eq_some_iff.mp hstep
  have hcrewed := (h.manned.crewed t th hth).2
  let o := Backend.create 0 th.name ((none : Option ℕ).getD (estimate w.core.last us).toNat)
  let last := estimate w.core.last us
  have hold := hcrewed.calm (calm_added h.grounded h.manned hth o last)
  have howns : ∀ id, ({ th with own := some w.core.fresh } : Thread).owns id → id = w.core.fresh := by
    rintro id (hown | hgoal)
    · exact (Option.some.inj hown).symm
    · simp [hframe, Frame.goal] at hgoal
  have hfresh : (added w o last).core.heap w.core.fresh = some o := update_self ..
  have hkeeps : ∀ id, ({ th with own := some w.core.fresh } : Thread).keeps id →
      th.keeps id ∨ id = w.core.fresh := by
    rintro id (hheld | hown | hobj)
    · exact Or.inl (Or.inl hheld)
    · exact Or.inr (howns id hown)
    · exact Or.inl (Or.inr (Or.inr hobj))
  refine running_added last h hth ⟨rfl, by simp [Backend.create]⟩ rfl (Or.inl ⟨rfl, rfl⟩) rfl
    ⟨fun id hkeep => ?_, fun id p hown hp => ?_, hold.holds, hold.uses, hold.goals, fun id hgoal => ?_,
      hold.loads, fun id p hown hp => ?_, ?_⟩ (fun id hown => Or.inr (howns id hown)) hkeeps ?_ Iff.rfl ?_
  · rcases hkeeps id hkeep with hkept | rfl
    · exact hold.alive id hkept
    · exact ⟨o, hfresh, rfl⟩
  · obtain rfl := howns id hown
    obtain rfl := Option.some.inj (hfresh.symm.trans hp)
    exact Or.inl rfl
  · simp [hframe, Frame.goal] at hgoal
  · obtain rfl := howns id hown
    obtain rfl := Option.some.inj (hfresh.symm.trans hp)
    rfl
  · have hplaced := hold.placed
    simp only [Placed, hframe] at hplaced ⊢
    exact hplaced
  · intro id stage
    rw [hnative]
    simp
  · intro id
    rw [hframe]
    simp

/-- A search starts: a new Object, and its `open` in the pool. -/
theorem running_search (h : Running conf G A r s w) (hth : w.threads t = some th)
    (hframe : th.frame = some .search) : Running conf G A r s (w.search t th) := by
  have hcrewed := (h.manned.crewed t th hth).2
  obtain ⟨hnative, hheld, hown⟩ : th.native = none ∧ th.held = none ∧ th.own = none := by
    have hplaced := hcrewed.placed
    simpa only [Placed, hframe] using hplaced
  let o := Backend.find 0 th.name
  let th' := th.calls (.searching w.core.fresh) (.open w.core.fresh)
  have hfresh : (added w o w.core.last).core.heap w.core.fresh = some o := update_self ..
  have hkeeps : ∀ id, th'.keeps id → id = w.core.fresh := by
    rintro id (hhold | (howns | hgoal) | hobj | hobj)
    · exact absurd (hheld.symm.trans hhold) (by simp)
    · exact absurd (hown.symm.trans howns) (by simp)
    · contradiction
    · exact (Option.some.inj hobj).symm
    · exact (Option.some.inj hobj).symm
  have howns : ∀ id, ¬ th'.owns id := by
    rintro id (howns | hgoal)
    · exact absurd (hown.symm.trans howns) (by simp)
    · contradiction
  refine @running_added conf G A r s w t th th' o w.core.last h hth ⟨rfl, fun _ => rfl⟩ rfl
    (Or.inr rfl) rfl
    ⟨fun id hkeep => ?_, fun id p hown hp => absurd hown (howns id), fun id p hhold => ?_,
      fun id p huses => ?_, fun g hg => by contradiction, fun id hg => by contradiction,
      fun _ id p hhold => ?_, fun id p hown => absurd hown (howns id), ?_⟩
    (fun id hown => absurd hown (howns id))
    (fun id hkeep => Or.inr (hkeeps id hkeep)) ?_ ?_ ?_
  · obtain rfl := hkeeps id hkeep
    exact ⟨o, hfresh, rfl⟩
  · exact absurd (hheld.symm.trans hhold) (by simp)
  · exact absurd (Or.inr ⟨_, rfl⟩) huses.1
  · exact absurd (hheld.symm.trans hhold) (by simp)
  · exact ⟨hheld, hown, o, hfresh, rfl, Or.inl ⟨rfl, rfl⟩⟩
  · intro id stage
    rw [hnative]
    simp
  · exact ⟨fun _ => Or.inl hframe, fun _ => Or.inr ⟨_, rfl⟩⟩
  · intro id
    rw [hframe]
    simp

/-- A write of a version not yet put does not fail. -/
theorem write_prepares {c : Core} {id : ℕ} {o : Object} {data : Bytes} (ho : c.heap id = some o)
    (hw : Writing o) : ∃ o' txn, c.write id data = .ok (c.prepared id o' txn) ∧
      o'.state = .inWrite ∧ o'.name = o.name ∧ o'.deleted = o.deleted ∧ ∀ n, ¬ Touches n txn := by
  obtain ⟨o', ops, hcall⟩ : ∃ o' ops, o.write data = .ok (o', ops) := ⟨_, _, write_eq hw data⟩
  obtain ⟨-, hnext, -⟩ := write_ok hcall
  refine ⟨o', ⟨o.name, ops, .write id o'.toStat data⟩, ?_, by rw [hnext], by rw [hnext],
    by rw [hnext], fun n hn => hn⟩
  simp only [Core.write, ho, hcall]
  rfl

/-- A write of a version not yet put, by whoever makes it. -/
theorem running_write {data : Bytes} (h : Running conf G A r s w) (hth : w.threads t = some th)
    (hframe : th.frame = some .idle) (hnative : th.native = none)
    (hstep : w.ask t th (.write data) = some w') : Running conf G A r s w' := by
  obtain ⟨id, hown, rfl⟩ := Option.map_eq_some_iff.mp hstep
  have hcrewed := (h.manned.crewed t th hth).2
  have hsearch := not_searches hframe (by simp) (by simp)
  obtain ⟨o, ho, hname⟩ := hcrewed.alive id (keeps_owned (Or.inl hown))
  have hwriting := hcrewed.owned id o (Or.inl hown) ho
  obtain ⟨o₁, txn, hcore, hstate, hname₁, hdeleted, hnone⟩ := @write_prepares _ _ _ data ho hwriting
  have hengaged := engaged_write h.grounded.engaged hcore
  rw [hcore]
  dsimp only
  let o' : Object := { o₁ with done := some w.core.log.length }
  have hself : update w.core.heap id (some o') id = some o' := update_self ..
  have hother : ∀ i, i ≠ id → update w.core.heap id (some o') i = w.core.heap i :=
    fun i hi => update_of_ne hi _ _
  have hnot : ∀ i p, w.core.heap i = some p → ¬ Writing p → i ≠ id := by
    rintro i p hp hnot rfl
    obtain rfl := Option.some.inj (ho.symm.trans hp)
    exact hnot hwriting
  let th' := th.calls .writing (.submit .enter)
  have howns : ∀ i, th'.owns i → i = id := by
    rintro i (hi | hi)
    · exact Option.some.inj (hi.symm.trans hown)
    · contradiction
  have hkeeps : ∀ i, th'.keeps i → th.keeps i := by
    rintro i (hi | hi | hi | hi)
    · exact Or.inl hi
    · exact keeps_owned (Or.inl (howns i hi ▸ hown))
    · contradiction
    · contradiction
  have hheld : ∀ i p, th.held = some i → update w.core.heap id (some o') i = some p →
      w.core.heap i = some p := by
    intro i p hi hp
    obtain ⟨q, hq, -⟩ := hcrewed.alive i (Or.inl hi)
    rwa [hother i (hnot i q hq (hcrewed.holds i q hi hq).not_writing)] at hp
  have hnew : o'.state = .inWrite := hstate
  have hquiet : Quiet conf w ({ w with core := w.core.prepared id o₁ txn }.set t th') := by
    refine ⟨⟨[txn], rfl, fun n u hu => ?_⟩, le_refl _, fun i p hp => ?_⟩
    · rw [List.mem_singleton.mp hu]
      exact hnone n
    · rcases heap_update hp with ⟨rfl, heq⟩ | ⟨-, hp⟩
      · obtain rfl := Option.some.inj heq
        refine Or.inr ⟨Or.inr ⟨o, ho, ?_⟩, by simp [hstate], fun hactive => ?_⟩
        · rcases hwriting with hs | hs <;> simp [hs]
        · simp [hstate] at hactive
      · exact Or.inl hp
  refine @running_quiet conf G A r s w _ t (some th) (some th') [] h hquiet hengaged
    (h.grounded.shown.append rfl rfl rfl rfl rfl) rfl rfl rfl rfl (le_refl _)
    ⟨hth, rfl, fun uth heq => ?_, fun uth heq i hi => ?_, fun uth heq i hi => ?_,
      fun uth heq k hs => ?_⟩ (fun u uth hut hu i hkeep => hother i ?_) (fun i p hp hactive => ?_)
    (fun uth heq hs => ?_) (fun uth heq hs => ?_) (List.append_nil _).symm
    (fun e he => by contradiction) fun n e he => by contradiction
  · obtain rfl := Option.some.inj heq
    refine ⟨(h.manned.crewed t th hth).1, fun i hi => ?_, fun i p hi hp => ?_, fun i p hi hp => ?_,
      fun i p huses hp => ?_, fun g hg => by contradiction, fun i hg => by contradiction,
      fun hloaded i p hi hp => ?_, fun i p hi hp => ?_, ⟨.enter, rfl⟩⟩
    · by_cases heq : i = id
      · rw [heq]
        exact ⟨o', hself, hname₁.trans hname⟩
      · obtain ⟨p, hp, hpname⟩ := hcrewed.alive i (hkeeps i hi)
        exact ⟨p, (hother i heq).trans hp, hpname⟩
    · rw [howns i hi] at hp
      obtain rfl := Option.some.inj (hself.symm.trans hp)
      exact Or.inr hnew
    · exact hcrewed.holds i p hi (hheld i p hi hp)
    · rcases huses.2 with hi | hi <;> contradiction
    · exact hcrewed.loads hloaded i p hi (hheld i p hi hp)
    · rw [howns i hi] at hp
      obtain rfl := Option.some.inj (hself.symm.trans hp)
      exact hdeleted.trans (hcrewed.undeleted id o (Or.inl hown) ho)
  · obtain rfl := Option.some.inj heq
    exact Or.inl ⟨th, rfl, Or.inl (howns i hi ▸ hown)⟩
  · obtain rfl := Option.some.inj heq
    exact Or.inl ⟨th, rfl, hkeeps i hi⟩
  · obtain rfl := Option.some.inj heq
    obtain ⟨i, stage, heq⟩ := syncs_native hs
    rw [hnative] at heq
    contradiction
  · rintro rfl
    exact hut (h.manned.apart t u th uth i hth hu (Or.inl hown) hkeep).symm
  · rcases heap_update hp with ⟨-, heq⟩ | ⟨-, hp⟩
    · obtain rfl := Option.some.inj heq
      simp [hstate] at hactive
    · exact Or.inl hp
  · obtain rfl := Option.some.inj heq
    exact absurd hs hsearch
  · obtain rfl := Option.some.inj heq
    exact absurd hs (not_searches rfl (by simp) (by simp))

end Swiftacular.DeviceSteps
