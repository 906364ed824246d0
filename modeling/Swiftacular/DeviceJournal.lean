import Swiftacular.CrashSweep
import Swiftacular.EngineMoves
import Swiftacular.LogGrowth

/-!
The Device's transactions as a journal. As long as no Object gets a temporary
address that another live Object of its name has, every part of the log the
store takes renders the record of that part, so what a crash leaves can be
swept, whatever it is.
-/
namespace Swiftacular.DeviceJournal

open Function EntryStore EngineObjects Versions EngineRuns StepRuns LiveObjects HeldEntries
  PreparedLog EngineMoves DeviceRuns DeviceEngine DeviceSteps DeviceInvariant LogGrowth Sweep
  CrashSweep

/-- No Object gets a temporary address that another live Object of its name
has: none that it has after a step, and none that its version has in a step
that writes its metadata first and then puts it. -/
structure Spaces (w w' : World) : Prop where
  apart : Apart w'.core
  drafts : ∀ t ∈ w'.core.log.drop w.core.log.length, ∀ id stat blob,
    t.note = .header id stat blob → stat.state = .inWrite → ∀ k q, k ≠ id →
      w.core.heap k = some q → InTemp q → q.name = stat.name → q.ts ≠ stat.ts

/-- A step after which the temporary addresses are still apart. -/
def Spaced (conf : Conf) (w : World) (a : Action) : Prop :=
  ∀ w', w.step conf a = some w' → Spaces w w'

/-- What the engine prepared, with nothing of it handed over. -/
abbrev journal (s : EngineObjects.Store) (c : Core) : Engine := ⟨c, 0, s⟩

variable {conf : Conf} {G : Goal → Prop} {A : Answer → Option View → Prop} {r : Record}
  {s : EngineObjects.Store} {kept : Set ℕ} {e : Engine} {c c' : Core} {w w' : World}

/-! What a step does to the engine, as moves of it. -/

/-- The engine comes to this core, by moves that give up no Object of some. -/
def Reaches (r : Record) (kept : Set ℕ) (e : Engine) (c : Core) : Prop :=
  ∃ ms, Along move (fun e m => Allowed r e m ∧ ∀ id ∈ kept, m ≠ .call (.release id)) e ms ∧
    run move e ms = some { e with core := c }

theorem reaches_trans (h : Reaches r kept e c) (h' : Reaches r kept { e with core := c } c') :
    Reaches r kept e c' := by
  obtain ⟨ms, halong, hrun⟩ := h
  obtain ⟨ms', halong', hrun'⟩ := h'
  refine ⟨ms ++ ms', along_append.mpr ⟨halong, fun e' he' => ?_⟩, ?_⟩
  · obtain rfl := Option.some.inj (hrun.symm.trans he')
    exact halong'
  · exact (run_append ..).trans (Option.bind_eq_some_iff.mpr ⟨_, hrun, hrun'⟩)

/-- One call, after which the temporary addresses are apart. -/
theorem reaches_call (call : Call) (hdisc : Disciplined r e call)
    (hstep : e.step call = some { e with core := c }) (ha : Apart c)
    (hkept : ∀ id ∈ kept, call ≠ .release id) : Reaches r kept e c := by
  refine ⟨[.call call], ⟨⟨⟨hdisc, fun e' he' => ?_⟩, fun id hid heq => ?_⟩, fun _ _ => trivial⟩, ?_⟩
  · obtain rfl := Option.some.inj (hstep.symm.trans he')
    exact ha
  · exact hkept id hid (Move.call.inj heq)
  · exact Option.bind_eq_some_iff.mpr ⟨_, hstep, rfl⟩

/-- An Object made is not in the temporary space yet. -/
theorem apart_created (ha : Apart c) (name : Name) (us : UInt64) :
    Apart (c.create name none us) := by
  have hold : ∀ {i p}, (c.create name none us).heap i = some p → InTemp p → c.heap i = some p := by
    intro i p hp htemp
    rcases heap_update hp with ⟨-, heq⟩ | ⟨-, hp⟩
    · obtain rfl := Option.some.inj heq
      rcases htemp with h | h <;> contradiction
    · exact hp
  exact fun i j p q hp hq hi hj => ha i j p q (hold hp hi) (hold hq hj) hi hj

/-- The new version's Object beside the others, once its metadata is written. -/
theorem apart_drafted {c₀ : Core} {next : ℕ} {o' : Object} {t : Txn} (ha : Apart c)
    (hheap : ∀ k, k ≠ next → c₀.heap k = c.heap k)
    (hdraft : ∀ k q, k ≠ next → c.heap k = some q → InTemp q → q.name = o'.name → q.ts ≠ o'.ts) :
    Apart (c₀.prepared next o' t) := by
  intro i j p q hp hq hi hj hname hts
  rcases heap_update hp with ⟨hin, hp⟩ | ⟨hin, hp⟩
  · rcases heap_update hq with ⟨hjn, -⟩ | ⟨hjn, hq⟩
    · exact hin.trans hjn.symm
    · obtain rfl := Option.some.inj hp
      rw [hheap j hjn] at hq
      exact absurd hts.symm (hdraft j q hjn hq hj hname.symm)
  · rw [hheap i hin] at hp
    rcases heap_update hq with ⟨-, hq⟩ | ⟨hjn, hq⟩
    · obtain rfl := Option.some.inj hq
      exact absurd hts (hdraft i p hin hp hi hname)
    · rw [hheap j hjn] at hq
      exact ha i j p q hp hq hi hj hname hts

/-- The metadata write of a version about to be put. -/
theorem reaches_drafted {next : ℕ} (ha : Apart e.core) (hd : Drafted e.core next c)
    (ha' : Apart c) : Reaches r kept e c := by
  cases hd with
  | metadata data h =>
    refine reaches_call (.writeMetadata next data) trivial ?_ ha' fun _ _ heq => by
      contradiction
    simp only [Engine.step, h, Engine.attempt]
  | tombstone name us data h =>
    have hcreated : Reaches r kept e (e.core.create name none us) :=
      reaches_call (.create name none us) trivial rfl (apart_created ha name us)
        fun _ _ heq => by contradiction
    refine reaches_trans hcreated (reaches_call (.tombstone e.core.fresh data) trivial ?_ ha'
      fun _ _ heq => by contradiction)
    simp only [Engine.step, h, Engine.attempt]

/-- A step's put: the metadata of the next version, and right after it the put,
over the Object that stood for the holder before. -/
theorem reaches_put {next prev : ℕ} {mid : Core} {ts : Option ℕ} {p : Object} (ha : Apart e.core)
    (hd : Drafted e.core next mid) (hput : mid.put next prev ts = .ok c)
    (hp : e.core.heap prev = some p) (hholds : Holds (Engine.record r e) p) (ha' : Apart c)
    (hdrafts : ∀ t ∈ c.log.drop e.core.log.length, ∀ id stat blob, t.note = .header id stat blob →
      stat.state = .inWrite → ∀ k q, k ≠ id → e.core.heap k = some q → InTemp q →
        q.name = stat.name → q.ts ≠ stat.ts) : Reaches r kept e c := by
  rcases put_cases hput with rfl | ⟨n, q, n', q', ops', hn, hq, hcall, heq⟩
  · exact reaches_drafted ha hd ha'
  obtain ⟨hin, hstate, -⟩ := put_ok hcall
  have hne : prev ≠ next := by
    rintro rfl
    obtain rfl := Option.some.inj (hn.symm.trans hq)
    rcases hstate with h | h <;> simp [h] at hin
  obtain ⟨c₀, hlog, hheap, -, hcases⟩ := drafted_cases hd
  rcases hcases with ⟨rfl, hnone⟩ | ⟨o, o₁, o', ops, data, -, -, -, rfl⟩
  · rw [hnone] at hn
    contradiction
  -- the version put is the one just written
  obtain rfl := Option.some.inj ((update_self next _ c₀.heap).symm.trans hn)
  have hdraft : o'.state = .inWrite := hin
  obtain rfl := Option.some.inj
    (((update_of_ne hne _ _).trans ((hheap prev hne).trans hp)).symm.trans hq)
  have hnew : ⟨o.name, ops, .header next o'.toStat data⟩ ∈ c.log.drop e.core.log.length := by
    rw [heq, ← hlog]
    change _ ∈ (c₀.log ++ [_] ++ [_]).drop c₀.log.length
    rw [List.append_assoc, List.drop_left]
    exact List.mem_cons_self
  have hmid : Apart (c₀.prepared next o' ⟨o.name, ops, .header next o'.toStat data⟩) :=
    apart_drafted ha hheap (hdrafts _ hnew _ _ _ rfl hdraft)
  have hheld : Holds (r.after (c₀.log ++ [⟨o.name, ops, .header next o'.toStat data⟩])) p := by
    have hquiet : ¬ Touches p.name ⟨o.name, ops, .header next o'.toStat data⟩ := by
      intro htouch
      have hactive : o'.state = .active := htouch.1
      rw [hdraft] at hactive
      contradiction
    refine hholds.same ?_
    rw [Record.after_concat, held_untouched (r.after c₀.log) hquiet, hlog]
    rfl
  refine reaches_trans (reaches_drafted ha hd hmid) (reaches_call (.put next prev ts)
    (fun n₂ p₂ result hn₂ hp₂ _ => ?_) ?_ ha' fun _ _ heq => by contradiction)
  · obtain rfl := Option.some.inj (hp₂.symm.trans hq)
    exact hheld
  · simp only [Engine.step, hput, Engine.attempt]

/-- A step is moves of the engine, a search apart: it looks at the store as it
is shown. -/
theorem reaches_step (h : Running conf G A r s w') (hgrows : Grows w w') (hs : Spaces w w')
    (ha : Apart w.core) (he : e.core = w.core) :
    Reaches r {id | w'.core.heap id ≠ none} e w'.core ∨
      ∃ t th id, w.threads t = some th ∧ th.native = some (.open id) ∧
        w'.core = (w.core.open w.store id).1 := by
  have hacts := hgrows.acts
  rw [← he] at ha
  generalize hcore : w'.core = c at hacts
  have ha' : Apart c := hcore ▸ hs.apart
  cases hacts with
  | same => exact Or.inl ⟨[], trivial, by rw [← he]; rfl⟩
  | found name =>
    rw [← he] at ha' ⊢
    exact Or.inl (reaches_call (.find name) trivial rfl ha' fun _ _ heq => by contradiction)
  | created name us =>
    rw [← he] at ha' ⊢
    exact Or.inl (reaches_call (.create name none us) trivial rfl ha'
      fun _ _ heq => by contradiction)
  | opened hth hnative => exact Or.inr ⟨_, _, _, hth, hnative, rfl⟩
  | wrote id data hwrite =>
    rw [← he] at hwrite
    refine Or.inl (reaches_call (.write id data) trivial ?_ ha' fun _ _ heq => by
      contradiction)
    simp only [Engine.step, hwrite, Engine.attempt]
  | released id hreleased =>
    rw [← he] at hreleased
    subst hreleased
    refine Or.inl (reaches_call (.release id) trivial rfl ha' fun i hi heq => hi ?_)
    obtain rfl := Call.release.inj heq
    unfold Core.release
    split
    · assumption
    · exact update_self ..
  | drafted hd => exact Or.inl (reaches_drafted ha (he ▸ hd) ha')
  | put d hd htime hobject hdrafted hput =>
    obtain ⟨-, -, ⟨p, hp, -, hholds⟩, -⟩ := h.told _ hd
    rw [hobject] at hp
    obtain ⟨more, hmore, -⟩ := hgrows.log
    rw [htime, hmore, List.take_left] at hholds
    refine Or.inl (reaches_put ha (he ▸ hdrafted) hput (he ▸ hp) ?_ ha' ?_)
    · unfold Engine.record
      rwa [he]
    · rw [he, ← hcore]
      exact hs.drafts

/-- What every such move keeps holds of the engine with the new core. -/
theorem Reaches.keeps {I : Engine → Prop} (h : Reaches r kept e c) (hI : I e)
    (hstep : ∀ e e' m, I e → Allowed r e m → (∀ id ∈ kept, m ≠ .call (.release id)) →
      move e m = some e' → I e') : I { e with core := c } := by
  obtain ⟨ms, halong, hrun⟩ := h
  exact along_keeps (fun e e' m he hm => hstep e e' m he hm.1 hm.2) hI halong hrun

theorem journal_step (h : Running conf G A r s w') (hgrows : Grows w w') (hs : Spaces w w')
    (hj : EngineMoves.Grounded r s (journal s w.core)) :
    EngineMoves.Grounded r s (journal s w'.core) := by
  rcases reaches_step (e := journal s w.core) h hgrows hs hj.apart rfl with
    hreaches | ⟨t, th, id, -, -, hopen⟩
  · exact hreaches.keeps hj fun _ _ _ he hm _ hstep => grounded_move he hm hstep
  · have hlog : w'.core.log = w.core.log := hopen ▸ open_log ..
    have hstands := h.grounded.engaged.stands
    rw [hlog] at hstands
    exact grounded_unprepared hj hlog hstands hs.apart

/-- Every part of the log of a run that the store takes, it renders. -/
theorem journal_run {actions : List Action} (h : Swept r s) (last : UInt64)
    (hspaced : Along (World.step conf) (Spaced conf) (World.start s last) actions)
    (hrun : (World.start s last).run conf actions = some w) : Sound r s (journal s w.core) :=
  (along_keeps (I := fun w => Running conf (fun _ => True) (fun _ _ => True) r s w ∧
      EngineMoves.Grounded r s (journal s w.core))
    (fun _ v' a hv hspaced hstep =>
      have hv' := running_action (promises_any conf) hv.1 (admits_any a) hstep
      ⟨hv', journal_step hv' (grows_step hstep) (hspaced v' hstep) hv.2⟩)
    ⟨running_start h last, EngineMoves.grounded_start h last⟩ hspaced hrun).2.sound

/-! A run on given actions can be checked. -/

/-- `Spaces`, over the list of the live Objects. -/
def spaces (w w' : World) : Bool :=
  w'.core.apart && (w'.core.log.drop w.core.log.length).all fun t =>
    match t.note with
    | .header id stat _ => stat.state ≠ .inWrite || w.core.objects.all fun x =>
        x.1 = id || !(InTemp x.2) || x.2.name ≠ stat.name || x.2.ts ≠ stat.ts
    | _ => true

def spaced (conf : Conf) (w : World) (a : Action) : Bool := (w.step conf a).all (spaces w)

theorem spaces_of_checked (hc : Numbered w.core) (hc' : Numbered w'.core) (h : spaces w w' = true) :
    Spaces w w' := by
  obtain ⟨hapart, hall⟩ := Bool.and_eq_true_iff.mp h
  refine ⟨(apart_iff hc').mp hapart, fun t ht id stat blob hnote hstate k q hk hq htemp hname => ?_⟩
  have hone := List.all_eq_true.mp hall t ht
  rw [hnote] at hone
  simp only [hstate, ne_eq, not_true_eq_false, decide_false, Bool.false_or, List.all_eq_true,
    Prod.forall, mem_objects hc] at hone
  simpa [hk, htemp, hname] using hone k q hq

/-- The check of a run from a swept store. -/
theorem spaced_of_checked {actions : List Action} (h : Swept r s) (last : UInt64)
    (hchecked : Along (World.step conf) (fun w a => spaced conf w a = true)
      (World.start s last) actions) :
    Along (World.step conf) (Spaced conf) (World.start s last) actions := by
  have hstep : ∀ v v' a, Running conf (fun _ => True) (fun _ _ => True) r s v →
      v.step conf a = some v' → Running conf (fun _ => True) (fun _ _ => True) r s v' :=
    fun v v' a hv => running_action (promises_any conf) hv (admits_any a)
  refine Along.imp hstep (fun v a hv hspaced v' hv' => ?_) (running_start h last) hchecked
  have hspaces : (v.step conf a).all (spaces v) = true := hspaced
  rw [hv', Option.all_some] at hspaces
  exact spaces_of_checked hv.grounded.engaged.stands.fresh
    (hstep v v' a hv hv').grounded.engaged.stands.fresh hspaces

end Swiftacular.DeviceJournal
