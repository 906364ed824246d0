import Swiftacular.DeviceRuns

/-!
What a step makes of a request that reads. It syncs its Object and reads the
metadata, and has its DiskFile open once it has read all of it; then it asks
for one chunk after another, each a call that looks at the store twice. A chunk
is handed on where such a call is over.
-/
namespace Swiftacular.ReaderTurns

open Function EntryStore EngineObjects EngineRuns DeviceRuns
open RangedReads (readSize)

section Definitions

/-- The places in which a request reads an Object. -/
def reads : Frame → Bool
  | .reading _ _ _ _ _ | .asking _ _ _ _ | .fetching _ _ _ _ => true
  | _ => false

/-- A call that has found nothing out yet. -/
def early : Native → Bool
  | .sync _ (.captured _) | .read _ _ _ _ _ => false
  | _ => true

/-- One move of a call that reads. -/
inductive Looking (w : World) (part : Part) (id offset size : ℕ) : Look → Look → Prop
  | refused {o : Object} {e : Error} (ho : w.core.heap id = some o)
      (h : o.require part.op [.active, .old] = .error e) :
      Looking w part id offset size .start (.got (.error e))
  | nothing (hpart : part = .data) (hsize : size = 0) :
      Looking w part id offset size .start (.got (.ok []))
  | starts {o : Object} (ho : w.core.heap id = some o) :
      Looking w part id offset size .start (.at (address o.toStat))
  | looks (a : Address) : Looking w part id offset size (.at a) (.seen a ((w.store a).map part.of))
  | failed {o : Object} {a : Address} {found : Option Bytes} {e : Error}
      (ho : w.core.heap id = some o)
      (h : check part.op w.store a o.toStat found.isSome = .error e) :
      Looking w part id offset size (.seen a found) (.got (.error e))
  | passed {o : Object} {a : Address} {found : Option Bytes} (ho : w.core.heap id = some o)
      (h : check part.op w.store a o.toStat found.isSome = .ok ()) :
      Looking w part id offset size (.seen a found)
        (.got (.ok (extent (found.getD []) offset size)))

/-- What a step makes of a thread, as far as what it reads goes. Only a move of
the thread itself looks at the store for it. -/
inductive Goes (conf : Conf) (w : World) (moves : Prop) (th : Thread) : Thread → Prop
  | elsewhere {th' : Thread} (hloaded : th'.loaded = true → th.loaded = true ∧ th'.held = th.held)
      (hframe : th'.frame.any reads = false) : Goes conf w moves th th'
  | waits {th' : Thread} (hloaded : th'.loaded = th.loaded) (hheld : th'.held = th.held)
      (hnative : th'.native.all early = true)
      (hframe : th'.frame = th.frame ∨ ∃ id version data tries goal,
        th'.frame = some (.reading id version data tries goal)) : Goes conf w moves th th'
  | captures {id : ℕ} (hnative : th.native = some (.sync id .left)) : Goes conf w moves th { th with
      native := some (.sync id (.captured ((w.core.heap id).bind Object.done))) }
  | gathers {id version tries size : ℕ} {data data' : Bytes} {goal : Option Goal}
      (hframe : th.frame = some (.reading id version data tries goal))
      (hended : w.ended conf th.name th.native = true) :
      Goes conf w moves th (th.calls (.reading id version data' tries goal)
        (.read .header id data'.length size .start))
  | opens {id version tries : ℕ} {data : Bytes}
      (hframe : th.frame = some (.reading id version data tries none))
      (hended : w.ended conf th.name th.native = true) (loaded : Bool) :
      Goes conf w moves th { th.enters .idle with loaded }
  | asks {id start : ℕ} {stop : Option ℕ} (hheld : th.held = some id) (hloaded : th.loaded = true) :
      Goes conf w moves th (th.enters (.asking id start stop 0))
  | fetches {id offset tries : ℕ} {stop : Option ℕ}
      (hframe : th.frame = some (.asking id offset stop tries)) :
      Goes conf w moves th (th.calls (.fetching id offset stop tries)
        (.read .data id offset (readSize conf.chunkSize offset stop) .start))
  | looks {part : Part} {id offset size : ℕ} {look look' : Look}
      (hmoves : moves) (hnative : th.native = some (.read part id offset size look))
      (hlook : Looking w part id offset size look look') :
      Goes conf w moves th { th with native := some (.read part id offset size look') }
  | again {id offset tries offset' tries' : ℕ} {stop : Option ℕ}
      (hframe : th.frame = some (.fetching id offset stop tries)) :
      Goes conf w moves th (th.enters (.asking id offset' stop tries'))

/-- A thread whose call for a chunk is over. -/
def Yields (th : Thread) (id offset : ℕ) (chunk : Bytes) : Prop :=
  ∃ stop tries part i from' size, th.frame = some (.fetching id offset stop tries) ∧
    th.native = some (.read part i from' size (.got (.ok chunk)))

/-- No chunk is handed on. -/
def Silent (events events' : List Event) : Prop :=
  ∃ es, events' = events ++ es ∧ ∀ id offset chunk, .yielded id offset chunk ∉ es

/-- What a step makes of the threads, and which chunks are handed on in it. -/
structure Proceeds (conf : Conf) (moved : ℕ → Prop) (w w' : World) : Prop where
  threads : ∀ u uth, w'.threads u = some uth → w.threads u = some uth ∨
    uth.loaded = false ∧ uth.frame.any reads = false ∨
    ∃ th, w.threads u = some th ∧ Goes conf w (moved u) th uth
  yields : ∃ es, w'.events = w.events ++ es ∧ ∀ id offset chunk,
    .yielded id offset chunk ∈ es → ∃ t th, w.threads t = some th ∧ Yields th id offset chunk

end Definitions

variable {conf : Conf} {w w' v : World} {t id : ℕ} {th th' : Thread} {frame : Frame} {moves : Prop}
  {moved : ℕ → Prop}

theorem silent_same (events : List Event) : Silent events events :=
  ⟨[], (List.append_nil _).symm, fun _ _ _ => List.not_mem_nil⟩

/-- What is told beside chunks. -/
theorem silent_note {e : Event} {events events' : List Event} (h : Silent events events')
    (he : ∀ id offset chunk, e ≠ .yielded id offset chunk) : Silent events (events' ++ [e]) := by
  obtain ⟨es, rfl, hes⟩ := h
  refine ⟨es ++ [e], List.append_assoc .., fun i offset chunk hmem => ?_⟩
  rcases List.mem_append.mp hmem with hmem | hmem
  · exact hes i offset chunk hmem
  · exact he i offset chunk (List.mem_singleton.mp hmem).symm

theorem silent_one {e : Event} (events : List Event)
    (he : ∀ id offset chunk, e ≠ .yielded id offset chunk) : Silent events (events ++ [e]) :=
  silent_note (silent_same events) he

theorem Silent.yields {events events' : List Event} (h : Silent events events') :
    ∃ es, events' = events ++ es ∧ ∀ id offset chunk, .yielded id offset chunk ∈ es →
      ∃ t th, w.threads t = some th ∧ Yields th id offset chunk := by
  obtain ⟨es, hes, hnone⟩ := h
  exact ⟨es, hes, fun i offset chunk hmem => absurd hmem (hnone i offset chunk)⟩

theorem proceeds_set (hth : w.threads t = some th)
    (hthreads : w'.threads = update w.threads t (some th')) (hgoes : Goes conf w (moved t) th th')
    (hevents : Silent w.events w'.events) : Proceeds conf moved w w' := by
  refine ⟨fun u uth hu => ?_, hevents.yields⟩
  rw [hthreads] at hu
  by_cases hut : u = t
  · subst hut
    rw [update_self] at hu
    obtain rfl := Option.some.inj hu
    exact Or.inr (Or.inr ⟨th, hth, hgoes⟩)
  · rw [update_of_ne hut] at hu
    exact Or.inl hu

theorem proceeds_same (hthreads : ∀ u uth, w'.threads u = some uth → w.threads u = some uth)
    (hevents : w'.events = w.events) : Proceeds conf moved w w' :=
  ⟨fun u uth hu => Or.inl (hthreads u uth hu), by rw [hevents]; exact (silent_same _).yields⟩

theorem proceeds_drop (hthreads : w'.threads = update w.threads t none)
    (hevents : w'.events = w.events) : Proceeds conf moved w w' := by
  refine proceeds_same (fun u uth hu => ?_) hevents
  rw [hthreads] at hu
  by_cases hut : u = t
  · subst hut
    rw [update_self] at hu
    contradiction
  · rwa [update_of_ne hut] at hu

/-- A thread goes to a place where it does not read. -/
theorem goes_enters (hframe : reads frame = false) : Goes conf w moves th (th.enters frame) :=
  .elsewhere (fun hloaded => ⟨hloaded, rfl⟩) hframe

theorem goes_calls (native : Native) (hframe : reads frame = false) :
    Goes conf w moves th (th.calls frame native) :=
  .elsewhere (fun hloaded => ⟨hloaded, rfl⟩) hframe

/-! Decisions, and what leads to them. -/

theorem proceeds_handOver {next prev ts : ℕ} (hth : w.threads t = some th)
    (hthreads : v.threads = w.threads) (hevents : Silent w.events v.events) :
    Proceeds conf moved w (v.handOver t th next prev ts) := by
  unfold World.handOver
  split
  · exact proceeds_set hth (by rw [← hthreads]; rfl) (goes_enters rfl)
      (silent_note (silent_note hevents (by simp)) (by simp))
  · exact proceeds_set hth (by rw [← hthreads]; rfl) (goes_enters rfl)
      (silent_note hevents (by simp))
  · exact proceeds_set hth (by rw [← hthreads]; rfl) (goes_calls _ rfl) hevents

theorem proceeds_decide (goal : Goal) (prev : ℕ) (read : Option Bytes) (us : UInt64)
    (hth : w.threads t = some th) :
    Proceeds conf moved w (w.decide conf t th goal prev read us) := by
  unfold World.decide
  cases goal with
  | put own ts metadata =>
    dsimp only
    split
    · exact proceeds_set hth rfl (goes_enters rfl)
        (silent_note (silent_one _ (by simp)) (by simp))
    · exact proceeds_handOver hth rfl (silent_one _ (by simp))
  | delete ts metadata =>
    dsimp only
    split
    · exact proceeds_set hth rfl (goes_enters rfl)
        (silent_note (silent_one _ (by simp)) (by simp))
    · exact proceeds_handOver hth rfl (silent_one _ (by simp))
  | post metadata =>
    dsimp only
    split
    · exact proceeds_set hth rfl (goes_enters rfl)
        (silent_note (silent_one _ (by simp)) (by simp))
    · exact proceeds_set hth rfl (goes_enters rfl)
        (silent_note (silent_one _ (by simp)) (by simp))
    · split
      · exact proceeds_set hth rfl (goes_enters rfl)
          (silent_note (silent_one _ (by simp)) (by simp))
      · exact proceeds_set hth rfl (goes_calls _ rfl) (silent_one _ (by simp))

theorem proceeds_look (goal : Option Goal) (us : UInt64) (hth : w.threads t = some th) :
    Proceeds conf moved w (w.look conf t th goal us) := by
  unfold World.look
  split
  · refine ⟨fun u uth hu => ?_, (silent_same _).yields⟩
    change update (update w.threads w.next _) t _ u = some uth at hu
    by_cases hut : u = t
    · subst hut
      rw [update_self] at hu
      obtain rfl := Option.some.inj hu
      exact Or.inr (Or.inr ⟨th, hth, goes_enters rfl⟩)
    rw [update_of_ne hut] at hu
    by_cases hnew : u = w.next
    · subst hnew
      rw [update_self] at hu
      obtain rfl := Option.some.inj hu
      exact Or.inr (Or.inl ⟨rfl, rfl⟩)
    · rw [update_of_ne hnew] at hu
      exact Or.inl hu
  · exact proceeds_set hth rfl (goes_enters rfl) (silent_same _)
  · split
    · exact proceeds_set hth rfl (.elsewhere (fun h => by contradiction) rfl) (silent_same _)
    · split
      · exact proceeds_decide _ _ _ us hth
      · exact proceeds_set hth rfl (goes_enters rfl) (silent_same _)

/-! Reads of metadata, and of data. -/

theorem goes_begin (w : World) (tries : ℕ) (goal : Option Goal) : Goes conf w moves th
    (th.calls (.reading id (w.versions id) [] tries goal) (.sync id .enter)) :=
  .waits rfl rfl rfl (Or.inr ⟨_, _, _, _, _, rfl⟩)

theorem proceeds_finish {version tries : ℕ} {read data : Bytes} {goal : Option Goal} (us : UInt64)
    (hth : w.threads t = some th) (hframe : th.frame = some (.reading id version read tries goal))
    (hended : w.ended conf th.name th.native = true) :
    Proceeds conf moved w (w.finish conf t th id data goal us) := by
  unfold World.finish
  split
  · exact proceeds_set hth rfl (goes_enters rfl) (silent_one _ (by simp))
  · split
    · exact proceeds_set hth rfl (.opens hframe hended _) (silent_same _)
    · split
      · exact proceeds_decide _ _ _ us hth
      · exact proceeds_set hth rfl (goes_enters rfl) (silent_same _)

theorem proceeds_gather {version tries : ℕ} {data : Bytes} {goal : Option Goal}
    (result : Except Error Bytes) (us : UInt64) (hth : w.threads t = some th)
    (hframe : th.frame = some (.reading id version data tries goal))
    (hended : w.ended conf th.name th.native = true) :
    Proceeds conf moved w (w.gather conf t th id version data tries goal result us) := by
  unfold World.gather
  split
  · split
    · exact proceeds_set hth rfl (goes_enters rfl) (silent_same _)
    · exact proceeds_set hth rfl (goes_enters rfl) (silent_same _)
  · split
    · exact proceeds_set hth rfl (goes_begin w tries goal) (silent_same _)
    · split
      · exact proceeds_finish us hth hframe hended
      · exact proceeds_set hth rfl (.gathers hframe hended) (silent_same _)

theorem proceeds_pass {offset tries from' size i : ℕ} {stop : Option ℕ} {part : Part}
    {result : Except Error Bytes} (hth : w.threads t = some th)
    (hframe : th.frame = some (.fetching id offset stop tries))
    (hnative : th.native = some (.read part i from' size (.got result))) :
    Proceeds conf moved w (w.pass t th id offset stop tries size result) := by
  unfold World.pass
  cases result with
  | error e =>
    dsimp only
    split
    · exact proceeds_set hth rfl (.again hframe) (silent_same _)
    · exact proceeds_set hth rfl (goes_enters rfl) (silent_same _)
  | ok chunk =>
    dsimp only
    split
    · exact proceeds_set hth rfl (goes_enters rfl) (silent_same _)
    have hyields : ∀ {th'}, Goes conf w (moved t) th th' →
        Proceeds conf moved w ((w.note (.yielded id offset chunk)).set t th') := by
      intro th' hgoes
      have hset : Proceeds conf moved w (w.set t th') := proceeds_set hth rfl hgoes (silent_same _)
      refine ⟨hset.threads, [.yielded id offset chunk], rfl, fun i k c he => ?_⟩
      obtain ⟨rfl, rfl, rfl⟩ := Event.yielded.inj (List.mem_singleton.mp he)
      exact ⟨t, th, hth, stop, tries, part, _, from', size, hframe, hnative⟩
    split
    · exact hyields (goes_enters rfl)
    · split
      · exact hyields (.again hframe)
      · exact hyields (goes_enters rfl)

/-! The calls in the pool. -/

theorem proceeds_load (hth : w.threads t = some th) : Proceeds conf moved w (w.load t th id) := by
  unfold World.load
  split
  · exact proceeds_set hth rfl (.elsewhere (fun h => ⟨h, rfl⟩) rfl) (silent_one _ (by simp))
  · have hgoes : Goes conf w (moved t) th { th with native := none } :=
      .waits rfl rfl rfl (Or.inl rfl)
    dsimp only
    split
    · exact proceeds_set hth rfl hgoes (silent_same _)
    · exact proceeds_set hth rfl hgoes (silent_one _ (by simp))

theorem proceeds_submit {stage : Stage} {call : Stage → Native} (hth : w.threads t = some th)
    (hcall : ∀ stage, stage = .submitting ∨ stage = .left → early (call stage) = true)
    (h : w.submit t th stage call = some w') : Proceeds conf moved w w' := by
  have hgoes : ∀ {stage}, stage = .submitting ∨ stage = .left →
      Goes conf w (moved t) th { th with native := some (call stage) } :=
    fun hstage => .waits rfl rfl (hcall _ hstage) (Or.inl rfl)
  unfold World.submit at h
  split at h
  · split at h
    · obtain rfl := Option.some.inj h
      exact proceeds_set hth rfl (hgoes (Or.inl rfl)) (silent_same _)
    · obtain rfl := Option.some.inj h
      exact proceeds_set hth rfl (hgoes (Or.inr rfl)) (silent_same _)
  · split at h
    · have hsame : w'.threads = w.threads ∧ w'.events = w.events := by
        unfold World.hand at h
        split at h
        · contradiction
        · split at h
          · obtain ⟨store, -, rfl⟩ := Option.map_eq_some_iff.mp h
            exact ⟨rfl, rfl⟩
          · obtain rfl := Option.some.inj h
            exact ⟨rfl, rfl⟩
      exact proceeds_same (fun u uth hu => hsame.1 ▸ hu) hsame.2
    · split at h
      · obtain rfl := Option.some.inj h
        exact proceeds_same (fun _ _ hu => hu) rfl
      · obtain rfl := Option.some.inj h
        exact proceeds_set hth rfl (hgoes (Or.inr rfl)) (silent_same _)
  · contradiction

theorem proceeds_read {part : Part} {offset size : ℕ} {look : Look} (hmoved : moved t)
    (hth : w.threads t = some th)
    (hnative : th.native = some (.read part id offset size look))
    (h : w.read t th part id offset size look = some w') : Proceeds conf moved w w' := by
  unfold World.read at h
  dsimp only at h
  split at h
  · rename_i o ho
    split at h
    · rename_i e hreq
      obtain rfl := Option.some.inj h
      exact proceeds_set hth rfl (.looks hmoved hnative (.refused ho hreq)) (silent_one _ (by simp))
    · split at h
      · rename_i hzero
        obtain rfl := Option.some.inj h
        exact proceeds_set hth rfl (.looks hmoved hnative (.nothing hzero.1 hzero.2))
          (silent_same _)
      · obtain rfl := Option.some.inj h
        exact proceeds_set hth rfl (.looks hmoved hnative (.starts ho)) (silent_same _)
  · obtain rfl := Option.some.inj h
    exact proceeds_set hth rfl (.looks hmoved hnative (.looks _)) (silent_same _)
  · rename_i o ho
    split at h
    · rename_i e hcheck
      obtain rfl := Option.some.inj h
      exact proceeds_set hth rfl (.looks hmoved hnative (.failed ho hcheck))
        (silent_one _ (by simp))
    · rename_i hcheck
      obtain rfl := Option.some.inj h
      exact proceeds_set hth rfl (.looks hmoved hnative (.passed ho hcheck)) (silent_same _)
  · contradiction

theorem proceeds_move (hmoved : moved t) (hth : w.threads t = some th)
    (h : w.move t th = some w') :
    Proceeds conf moved w w' := by
  unfold World.move at h
  split at h
  · contradiction
  · obtain rfl := Option.some.inj h
    exact proceeds_load hth
  · exact proceeds_submit hth (fun _ _ => rfl) h
  · rename_i hnative
    obtain rfl := Option.some.inj h
    exact proceeds_set hth rfl (.captures hnative) (silent_same _)
  · refine proceeds_submit hth (fun stage hstage => ?_) h
    rcases hstage with rfl | rfl <;> rfl
  · rename_i hnative
    exact proceeds_read hmoved hth hnative h

/-! Any step. -/

theorem proceeds_resume (us : UInt64) (hth : w.threads t = some th)
    (hended : w.ended conf th.name th.native = true) (h : w.resume conf t th us = some w') :
    Proceeds conf moved w w' := by
  unfold World.resume at h
  split at h
  · obtain rfl := Option.some.inj h
    exact proceeds_drop rfl rfl
  · obtain rfl := Option.some.inj h
    exact proceeds_set hth rfl (goes_enters rfl) (silent_same _)
  · obtain rfl := Option.some.inj h
    exact proceeds_set hth rfl (goes_enters rfl) (silent_one _ (by simp))
  · rename_i hframe
    split at h
    · obtain rfl := Option.some.inj h
      exact proceeds_gather _ us hth hframe hended
    · obtain rfl := Option.some.inj h
      exact proceeds_set hth rfl (.gathers hframe hended) (silent_same _)
  · rename_i hframe
    split at h
    · rename_i hnative
      obtain rfl := Option.some.inj h
      exact proceeds_pass hth hframe hnative
    · contradiction
  · contradiction

theorem proceeds_go (us : UInt64) (hth : w.threads t = some th) (h : w.go conf t th us = some w') :
    Proceeds conf moved w w' := by
  unfold World.go at h
  split at h
  · obtain rfl := Option.some.inj h
    exact proceeds_set hth rfl (goes_calls _ rfl) (silent_same _)
  · obtain rfl := Option.some.inj h
    exact proceeds_look _ us hth
  · split at h
    · obtain rfl := Option.some.inj h
      exact proceeds_set hth rfl (goes_enters rfl) (silent_same _)
    · split at h
      · obtain rfl := Option.some.inj h
        exact proceeds_set hth rfl (goes_enters rfl) (silent_same _)
      · contradiction
  · obtain rfl := Option.some.inj h
    exact proceeds_set hth rfl (goes_begin w _ _) (silent_same _)
  · rename_i hframe
    obtain rfl := Option.some.inj h
    exact proceeds_set hth rfl (.fetches hframe) (silent_same _)
  · contradiction

theorem proceeds_ask {ask : Ask} (hth : w.threads t = some th) (hframe : th.frame = some .idle)
    (h : w.ask t th ask = some w') : Proceeds conf moved w w' := by
  have hidle : ∀ {own}, Goes conf w (moved t) th { th with own } :=
    .elsewhere (fun hloaded => ⟨hloaded, rfl⟩) (by rw [hframe]; rfl)
  cases ask with
  | «open» =>
    obtain rfl := Option.some.inj h
    exact proceeds_set hth rfl (goes_enters rfl) (silent_same _)
  | info =>
    obtain ⟨id, -, h⟩ := Option.bind_eq_some_iff.mp h
    split at h
    · contradiction
    · obtain rfl := Option.some.inj h
      exact proceeds_set hth rfl (goes_enters rfl) (silent_same _)
  | create us =>
    obtain ⟨id, -, rfl⟩ := Option.map_eq_some_iff.mp h
    exact proceeds_set hth rfl hidle (silent_same _)
  | write data =>
    obtain ⟨id, -, rfl⟩ := Option.map_eq_some_iff.mp h
    split
    · exact proceeds_set hth rfl (goes_enters rfl) (silent_one _ (by simp))
    · exact proceeds_set hth rfl (goes_calls _ rfl) (silent_same _)
  | put ts metadata =>
    obtain ⟨id, -, rfl⟩ := Option.map_eq_some_iff.mp h
    exact proceeds_set hth rfl (.elsewhere (fun hloaded => ⟨hloaded, rfl⟩) rfl) (silent_same _)
  | delete ts metadata | post metadata =>
    obtain ⟨id, -, rfl⟩ := Option.map_eq_some_iff.mp h
    exact proceeds_set hth rfl (goes_enters rfl) (silent_same _)
  | iterate start stop =>
    obtain ⟨id, hheld, h⟩ := Option.bind_eq_some_iff.mp h
    split at h
    · rename_i hcan
      obtain rfl := Option.some.inj h
      exact proceeds_set hth rfl (.asks hheld (Bool.and_eq_true_iff.mp hcan).1) (silent_same _)
    · contradiction

theorem proceeds_step {a : Action} (h : w.step conf a = some w') :
    Proceeds conf (fun t => a = .move t) w w' := by
  cases a with
  | request name =>
    obtain rfl := Option.some.inj h
    refine ⟨fun u uth hu => ?_, (silent_same _).yields⟩
    change update w.threads w.next _ u = some uth at hu
    by_cases hnew : u = w.next
    · subst hnew
      rw [update_self] at hu
      obtain rfl := Option.some.inj hu
      exact Or.inr (Or.inl ⟨rfl, rfl⟩)
    · rw [update_of_ne hnew] at hu
      exact Or.inl hu
  | ask t ask =>
    obtain ⟨th, hth, h⟩ := Option.bind_eq_some_iff.mp h
    split at h
    · rename_i hidle
      exact proceeds_ask hth hidle.1 h
    · contradiction
  | go t us =>
    obtain ⟨th, hth, h⟩ := Option.bind_eq_some_iff.mp h
    split at h
    · exact proceeds_go us hth h
    · contradiction
  | move t =>
    obtain ⟨th, hth, h⟩ := Option.bind_eq_some_iff.mp h
    exact proceeds_move rfl hth h
  | resume t us =>
    obtain ⟨th, hth, h⟩ := Option.bind_eq_some_iff.mp h
    split at h
    · rename_i hended
      exact proceeds_resume us hth hended h
    · contradiction
  | commit c k =>
    unfold World.step at h
    dsimp only at h
    split at h
    · obtain rfl := Option.some.inj h
      exact proceeds_same (fun _ _ hu => hu) rfl
    · contradiction
  | kill t =>
    obtain ⟨th, hth, h⟩ := Option.bind_eq_some_iff.mp h
    split at h
    · contradiction
    · contradiction
    · contradiction
    · obtain rfl := Option.some.inj h
      exact proceeds_set hth rfl (.elsewhere (fun hloaded => by contradiction) rfl)
        (silent_same _)
  | reap t =>
    obtain ⟨th, -, h⟩ := Option.bind_eq_some_iff.mp h
    split at h
    · obtain rfl := Option.some.inj h
      exact proceeds_drop rfl rfl
    · contradiction
  | release id =>
    unfold World.step at h
    dsimp only at h
    split at h
    · contradiction
    · obtain rfl := Option.some.inj h
      exact proceeds_same (fun _ _ hu => hu) rfl

end Swiftacular.ReaderTurns
