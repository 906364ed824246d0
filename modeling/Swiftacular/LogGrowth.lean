import Swiftacular.DeviceInvariant

/-!
How the log of a Device grows. A step prepares at most one transaction that
changes what holds a name, and prepares it last; so whatever part of the log
is kept, each name is as it was at some moment of the run.
-/
namespace Swiftacular.LogGrowth

open Function EntryStore EngineObjects Versions EngineRuns StepRuns HeldEntries DeviceRuns
  DeviceEngine DeviceSteps DeviceInvariant

/-- What is appended touches no name, the last of it apart. -/
def Appends (log log' : List Txn) : Prop :=
  ∃ more, log' = log ++ more ∧ ∀ t ∈ more.dropLast, ∀ n, ¬ Touches n t

/-- The metadata of a version about to be put is written, that of a tombstone to
an Object made for it. -/
inductive Drafted (c : Core) : ℕ → Core → Prop
  | metadata {next : ℕ} {c' : Core} (data : Bytes) (h : c.writeMetadata next data = .ok c') :
      Drafted c next c'
  | tombstone {c' : Core} (name : Name) (us : UInt64) (data : Bytes)
      (h : (c.create name none us).tombstone c.fresh data = .ok c') : Drafted c c.fresh c'

/-- What a step comes to in the engine. A search looks at what is shown of the
store; a put follows a decision on the Object it is given, made right before it. -/
inductive Acts (w : World) (events : List Event) : Core → Prop
  | same : Acts w events w.core
  | found (name : Name) : Acts w events (w.core.find name)
  | created (name : Name) (us : UInt64) : Acts w events (w.core.create name none us)
  | opened {t id : ℕ} {th : Thread} (hth : w.threads t = some th)
      (hnative : th.native = some (.open id)) : Acts w events (w.core.open w.store id).1
  | wrote {c' : Core} (id : ℕ) (data : Bytes) (h : w.core.write id data = .ok c') :
      Acts w events c'
  | released {c' : Core} (id : ℕ) (h : c' = w.core.release id) : Acts w events c'
  | drafted {next : ℕ} {c' : Core} (h : Drafted w.core next c') : Acts w events c'
  | put {next : ℕ} {mid c' : Core} {ts : Option ℕ} (d : Decision) (hd : .decided d ∈ events)
      (htime : d.time = w.core.log.length) (hobject : d.object = w.core.heap d.prev)
      (h : Drafted w.core next mid) (hput : mid.put next d.prev ts = .ok c') : Acts w events c'

/-- What a step does to the engine, adds to the events, and shows of the log. -/
structure Grows (w w' : World) : Prop where
  acts : Acts w w'.events w'.core
  shown : (w'.handed, w'.part, w'.store) = (w.handed, w.part, w.store) ∨ w.hand = some w'
  events : ∃ es, w'.events = w.events ++ es

variable {conf : Conf} {r : Record} {s : EngineObjects.Store} {c c' : Core} {w w' v : World}
  {t id : ℕ} {th : Thread} {name : Name}

theorem appends_same {log log' : List Txn} (h : log' = log) : Appends log log' :=
  ⟨[], by rw [h, List.append_nil], fun _ ht => absurd ht List.not_mem_nil⟩

theorem appends_concat {log : List Txn} (t : Txn) : Appends log (log ++ [t]) :=
  ⟨[t], rfl, fun _ hu => absurd hu List.not_mem_nil⟩

theorem appends_two {log : List Txn} {t : Txn} (u : Txn) (h : ∀ n, ¬ Touches n t) :
    Appends log (log ++ [t] ++ [u]) := by
  refine ⟨[t, u], by rw [List.append_assoc]; rfl, fun x hx => ?_⟩
  obtain rfl := List.mem_singleton.mp hx
  exact h

/-! The calls of the engine. -/

/-- A draft is one metadata write, of an Object as it was or just made, if there is one. -/
theorem drafted_cases {next : ℕ} (h : Drafted c next c') :
    ∃ c₀, c₀.log = c.log ∧ (∀ k, k ≠ next → c₀.heap k = c.heap k) ∧
      (c₀ = c ∨ ∃ name us, c₀ = c.create name none us) ∧
      (c' = c₀ ∧ c₀.heap next = none ∨
        ∃ (o o₁ o' : Object) (ops : List EngineObjects.Op) (data : Bytes),
          c₀.heap next = some o ∧
          (o₁ = o ∨ o.state = .preWrite ∧ o₁ = { o with deleted := true }) ∧
          o₁.writeMetadata data = .ok (o', ops) ∧
          c' = c₀.prepared next o' ⟨o.name, ops, .header next o'.toStat data⟩) := by
  cases h with
  | metadata data h =>
    refine ⟨c, rfl, fun _ _ => rfl, Or.inl rfl, ?_⟩
    unfold Core.writeMetadata at h
    split at h
    · rename_i hnone
      exact Or.inl ⟨(Except.ok.inj h).symm, hnone⟩
    · rename_i o ho
      obtain ⟨⟨o', ops⟩, hm, heq⟩ := bind_ok.mp h
      exact Or.inr ⟨o, o, o', ops, data, ho, Or.inl rfl, hm, (Except.ok.inj heq).symm⟩
  | tombstone name us data h =>
    refine ⟨c.create name none us, rfl, fun k hk => update_of_ne hk _ _,
      Or.inr ⟨name, us, rfl⟩, ?_⟩
    unfold Core.tombstone at h
    split at h
    · rename_i hnone
      exact Or.inl ⟨(Except.ok.inj h).symm, hnone⟩
    · rename_i o ho
      obtain ⟨⟨o', ops⟩, hcall, heq⟩ := bind_ok.mp h
      obtain ⟨_, hreq, hm⟩ := bind_ok.mp hcall
      have hpre := require_ok hreq
      simp only [List.mem_cons, List.not_mem_nil, or_false] at hpre
      exact Or.inr ⟨o, _, o', ops, data, ho, Or.inr ⟨hpre, rfl⟩, hm, (Except.ok.inj heq).symm⟩

/-- The metadata write of what a put then hands the name to touches no name. -/
theorem put_appends {next prev : ℕ} {ts : Option ℕ} (h : Drafted c next c')
    {c'' : Core} (hput : c'.put next prev ts = .ok c'') : Appends c.log c''.log := by
  obtain ⟨c₀, hlog, -, -, ⟨rfl, -⟩ | ⟨o, o₁, o', ops, data, -, -, -, rfl⟩⟩ := drafted_cases h
  · rw [← hlog]
    rcases put_cases hput with rfl | ⟨n, p, n', p', ops, -, -, -, rfl⟩
    · exact appends_same rfl
    · exact appends_concat _
  · rw [← hlog]
    rcases put_cases hput with rfl | ⟨n, p, n', p', ops', hn, -, hcall, rfl⟩
    · exact appends_concat _
    · have hn' : some { o' with done := some c₀.log.length } = some n :=
        (update_self next _ c₀.heap).symm.trans hn
      obtain rfl := Option.some.inj hn'
      have hwriting : o'.state = .inWrite := (put_ok hcall).1
      refine appends_two _ fun m hm => ?_
      have hactive : o'.state = .active := hm.1
      rw [hwriting] at hactive
      contradiction

theorem release_appends (c : Core) (id : ℕ) : Appends c.log (c.release id).log := by
  unfold Core.release
  split
  · exact appends_same rfl
  · dsimp only
    split
    · exact appends_same rfl
    · exact appends_concat _

theorem open_log (c : Core) (st : EngineObjects.Store) (id : ℕ) : (c.open st id).1.log = c.log := by
  unfold Core.open
  split <;> rfl

theorem Acts.appends {events : List Event} (h : Acts w events c') : Appends w.core.log c'.log := by
  cases h with
  | same | found name | created name us => exact appends_same rfl
  | opened => exact appends_same (open_log ..)
  | wrote id data h =>
    rcases write_cases h with rfl | ⟨o, o', ops, -, -, rfl⟩
    · exact appends_same rfl
    · exact appends_concat _
  | released id h => exact h ▸ release_appends w.core id
  | drafted h =>
    obtain ⟨c₀, hlog, -, -, ⟨rfl, -⟩ | ⟨o, o₁, o', ops, data, -, -, -, rfl⟩⟩ := drafted_cases h
    · exact appends_same hlog
    · rw [← hlog]
      exact appends_concat _
  | put d hd htime hobject h hput => exact put_appends h hput

theorem Acts.later {events : List Event} (h : Acts w events c') (more : List Event) :
    Acts w (events ++ more) c' := by
  cases h with
  | same => exact .same
  | found name => exact .found name
  | created name us => exact .created name us
  | opened hth hnative => exact .opened hth hnative
  | wrote id data h => exact .wrote id data h
  | released id h => exact .released id h
  | drafted h => exact .drafted h
  | put d hd htime hobject h hput =>
    exact .put d (List.mem_append_left more hd) htime hobject h hput

theorem Grows.log (h : Grows w w') : Appends w.core.log w'.core.log := h.acts.appends

/-! A thread's turns. -/

theorem acts_same {events : List Event} (h : c' = w.core) : Acts w events c' := h ▸ .same

theorem grows_quiet (hcore : w'.core = w.core) (hevents : w'.events = w.events)
    (hshown : (w'.handed, w'.part, w'.store) = (w.handed, w.part, w.store)) : Grows w w' :=
  ⟨acts_same hcore, Or.inl hshown, [], by rw [hevents, List.append_nil]⟩

theorem grows_told (e : Event) (hcore : w'.core = w.core) (hevents : w'.events = w.events ++ [e])
    (hshown : (w'.handed, w'.part, w'.store) = (w.handed, w.part, w.store)) : Grows w w' :=
  ⟨acts_same hcore, Or.inl hshown, [e], hevents⟩

theorem grows_handOver {next prev ts : ℕ} {es : List Event} (hevents : v.events = w.events ++ es)
    (hshown : (v.handed, v.part, v.store) = (w.handed, w.part, w.store))
    (hfirst : Acts w v.events v.core)
    (hput : ∀ core, v.core.put next prev (some ts) = .ok core → Acts w v.events core) :
    Grows w (v.handOver t th next prev ts) := by
  unfold World.handOver
  split
  · exact ⟨(hfirst.later _).later _, Or.inl hshown, _, by
      simp only [World.answer, World.note, World.set, hevents, List.append_assoc]
      rfl⟩
  · exact ⟨hfirst.later _, Or.inl hshown, _, by
      simp only [World.raise, World.note, World.set, hevents, List.append_assoc]
      rfl⟩
  · rename_i core hcall
    exact ⟨hput core hcall, Or.inl hshown, es, hevents⟩

theorem grows_decide (goal : Goal) (prev : ℕ) (read : Option Bytes) (us : UInt64) :
    Grows w (w.decide conf t th goal prev read us) := by
  unfold World.decide
  cases goal with
  | put own ts metadata =>
    dsimp only
    split
    · exact ⟨.same, Or.inl rfl, _, List.append_assoc ..⟩
    · rename_i core hwrite
      refine grows_handOver rfl rfl (.drafted (.metadata _ hwrite)) fun core' hput => ?_
      exact .put _ (List.mem_append_right _ (List.mem_singleton_self _)) rfl rfl
        (.metadata _ hwrite) hput
  | delete ts metadata =>
    dsimp only
    split
    · exact ⟨.same, Or.inl rfl, _, List.append_assoc ..⟩
    · rename_i core htomb
      refine grows_handOver rfl rfl (.drafted (.tombstone _ us _ htomb)) fun core' hput => ?_
      exact .put _ (List.mem_append_right _ (List.mem_singleton_self _)) rfl rfl
        (.tombstone _ us _ htomb) hput
  | post metadata =>
    dsimp only
    split
    · exact ⟨.same, Or.inl rfl, _, List.append_assoc ..⟩
    · exact ⟨.same, Or.inl rfl, _, List.append_assoc ..⟩
    · split
      · exact ⟨.same, Or.inl rfl, _, List.append_assoc ..⟩
      · rename_i core hwrite
        exact ⟨.drafted (.metadata _ hwrite), Or.inl rfl, _, rfl⟩

theorem grows_look (goal : Option Goal) (us : UInt64) : Grows w (w.look conf t th goal us) := by
  unfold World.look
  split
  · exact grows_quiet rfl rfl rfl
  · exact grows_quiet rfl rfl rfl
  · split
    · exact grows_quiet rfl rfl rfl
    · split
      · exact grows_decide _ _ _ us
      · exact grows_quiet rfl rfl rfl

theorem grows_finish (data : Bytes) (goal : Option Goal) (us : UInt64) :
    Grows w (w.finish conf t th id data goal us) := by
  unfold World.finish
  split
  · exact grows_told _ rfl rfl rfl
  · split
    · exact grows_quiet rfl rfl rfl
    · split
      · exact grows_decide _ _ _ us
      · exact grows_quiet rfl rfl rfl

theorem grows_gather (version : ℕ) (data : Bytes) (tries : ℕ) (goal : Option Goal)
    (result : Except Error Bytes) (us : UInt64) :
    Grows w (w.gather conf t th id version data tries goal result us) := by
  unfold World.gather
  split
  · split
    · exact grows_quiet rfl rfl rfl
    · exact grows_quiet rfl rfl rfl
  · split
    · exact grows_quiet rfl rfl rfl
    · split
      · exact grows_finish _ goal us
      · exact grows_quiet rfl rfl rfl

theorem grows_pass (offset : ℕ) (stop : Option ℕ) (tries size : ℕ) (result : Except Error Bytes) :
    Grows w (w.pass t th id offset stop tries size result) := by
  unfold World.pass
  split
  · split
    · exact grows_quiet rfl rfl rfl
    · exact grows_quiet rfl rfl rfl
  · split
    · exact grows_quiet rfl rfl rfl
    · dsimp only
      split
      · exact grows_told _ rfl rfl rfl
      · split
        · exact grows_told _ rfl rfl rfl
        · exact grows_told _ rfl rfl rfl

theorem grows_go (us : UInt64) (h : w.go conf t th us = some w') : Grows w w' := by
  unfold World.go at h
  split at h
  · obtain rfl := Option.some.inj h
    exact ⟨.found th.name, Or.inl rfl, [], (List.append_nil _).symm⟩
  · obtain rfl := Option.some.inj h
    exact grows_look _ us
  · split at h
    · obtain rfl := Option.some.inj h
      exact grows_quiet rfl rfl rfl
    · split at h
      · obtain rfl := Option.some.inj h
        exact grows_quiet rfl rfl rfl
      · contradiction
  · obtain rfl := Option.some.inj h
    exact grows_quiet rfl rfl rfl
  · obtain rfl := Option.some.inj h
    exact grows_quiet rfl rfl rfl
  · contradiction

theorem grows_ask {ask : Ask} (h : w.ask t th ask = some w') : Grows w w' := by
  cases ask with
  | «open» =>
    obtain rfl := Option.some.inj h
    exact grows_quiet rfl rfl rfl
  | info =>
    obtain ⟨id, -, h⟩ := Option.bind_eq_some_iff.mp h
    split at h
    · contradiction
    · obtain rfl := Option.some.inj h
      exact grows_quiet rfl rfl rfl
  | create us =>
    obtain ⟨id, -, rfl⟩ := Option.map_eq_some_iff.mp h
    exact ⟨.created th.name us, Or.inl rfl, [], (List.append_nil _).symm⟩
  | write data =>
    obtain ⟨id, -, rfl⟩ := Option.map_eq_some_iff.mp h
    split
    · exact grows_told _ rfl rfl rfl
    · rename_i core hwrite
      exact ⟨.wrote id data hwrite, Or.inl rfl, [], (List.append_nil _).symm⟩
  | put ts metadata | delete ts metadata | post metadata =>
    obtain ⟨id, -, rfl⟩ := Option.map_eq_some_iff.mp h
    exact grows_quiet rfl rfl rfl
  | iterate start stop =>
    obtain ⟨id, -, h⟩ := Option.bind_eq_some_iff.mp h
    split at h
    · obtain rfl := Option.some.inj h
      exact grows_quiet rfl rfl rfl
    · contradiction

theorem grows_load (hth : w.threads t = some th) (hnative : th.native = some (.open id)) :
    Grows w (w.load t th id) := by
  have hacts : ∀ events, Acts w events (w.core.open w.store id).1 :=
    fun _ => .opened hth hnative
  unfold World.load
  split
  · rename_i core e heq
    rw [heq] at hacts
    exact ⟨hacts _, Or.inl rfl, _, rfl⟩
  · rename_i core heq
    rw [heq] at hacts
    dsimp only
    split
    · exact ⟨hacts _, Or.inl rfl, [], (List.append_nil _).symm⟩
    · exact ⟨hacts _, Or.inl rfl, _, rfl⟩

theorem grows_hand (h : w.hand = some w') : Grows w w' := by
  have hsame : w'.core = w.core ∧ w'.events = w.events := by
    unfold World.hand at h
    split at h
    · contradiction
    · split at h
      · obtain ⟨store, -, rfl⟩ := Option.map_eq_some_iff.mp h
        exact ⟨rfl, rfl⟩
      · obtain rfl := Option.some.inj h
        exact ⟨rfl, rfl⟩
  exact ⟨acts_same hsame.1, Or.inr h, [], by rw [hsame.2, List.append_nil]⟩

theorem grows_submit {stage : Stage} {call : Stage → Native}
    (h : w.submit t th stage call = some w') : Grows w w' := by
  unfold World.submit at h
  split at h
  · split at h
    · obtain rfl := Option.some.inj h
      exact grows_quiet rfl rfl rfl
    · obtain rfl := Option.some.inj h
      exact grows_quiet rfl rfl rfl
  · split at h
    · exact grows_hand h
    · split at h
      · obtain rfl := Option.some.inj h
        exact grows_quiet rfl rfl rfl
      · obtain rfl := Option.some.inj h
        exact grows_quiet rfl rfl rfl
  · contradiction

theorem grows_read {part : Part} {offset size : ℕ} {look : Look}
    (h : w.read t th part id offset size look = some w') : Grows w w' := by
  unfold World.read at h
  split at h
  · split at h
    · obtain rfl := Option.some.inj h
      exact grows_told _ rfl rfl rfl
    · split at h
      · obtain rfl := Option.some.inj h
        exact grows_quiet rfl rfl rfl
      · obtain rfl := Option.some.inj h
        exact grows_quiet rfl rfl rfl
  · obtain rfl := Option.some.inj h
    exact grows_quiet rfl rfl rfl
  · split at h
    · obtain rfl := Option.some.inj h
      exact grows_told _ rfl rfl rfl
    · obtain rfl := Option.some.inj h
      exact grows_quiet rfl rfl rfl
  · contradiction

theorem grows_move (hth : w.threads t = some th) (h : w.move t th = some w') : Grows w w' := by
  unfold World.move at h
  split at h
  · contradiction
  · rename_i i hnative
    obtain rfl := Option.some.inj h
    exact grows_load hth hnative
  · exact grows_submit h
  · obtain rfl := Option.some.inj h
    exact grows_quiet rfl rfl rfl
  · exact grows_submit h
  · exact grows_read h

theorem grows_resume (us : UInt64) (h : w.resume conf t th us = some w') : Grows w w' := by
  unfold World.resume at h
  split at h
  · obtain rfl := Option.some.inj h
    exact grows_quiet rfl rfl rfl
  · obtain rfl := Option.some.inj h
    exact grows_quiet rfl rfl rfl
  · obtain rfl := Option.some.inj h
    exact grows_told _ rfl rfl rfl
  · split at h
    · obtain rfl := Option.some.inj h
      exact grows_gather _ _ _ _ _ us
    · obtain rfl := Option.some.inj h
      exact grows_quiet rfl rfl rfl
  · split at h
    · obtain rfl := Option.some.inj h
      exact grows_pass _ _ _ _ _
    · contradiction
  · contradiction

/-! Any step, and any run. -/

theorem grows_step {a : Action} (h : w.step conf a = some w') : Grows w w' := by
  cases a with
  | request name =>
    obtain rfl := Option.some.inj h
    exact grows_quiet rfl rfl rfl
  | ask t ask =>
    obtain ⟨th, -, h⟩ := Option.bind_eq_some_iff.mp h
    split at h
    · exact grows_ask h
    · contradiction
  | go t us =>
    obtain ⟨th, -, h⟩ := Option.bind_eq_some_iff.mp h
    split at h
    · exact grows_go us h
    · contradiction
  | move t =>
    obtain ⟨th, hth, h⟩ := Option.bind_eq_some_iff.mp h
    exact grows_move hth h
  | resume t us =>
    obtain ⟨th, -, h⟩ := Option.bind_eq_some_iff.mp h
    split at h
    · exact grows_resume us h
    · contradiction
  | commit c k =>
    unfold World.step at h
    dsimp only at h
    split at h
    · obtain rfl := Option.some.inj h
      exact grows_quiet rfl rfl rfl
    · contradiction
  | kill t =>
    obtain ⟨th, -, h⟩ := Option.bind_eq_some_iff.mp h
    split at h
    · contradiction
    · contradiction
    · contradiction
    · obtain rfl := Option.some.inj h
      exact grows_quiet rfl rfl rfl
  | reap t =>
    obtain ⟨th, -, h⟩ := Option.bind_eq_some_iff.mp h
    split at h
    · obtain rfl := Option.some.inj h
      exact grows_quiet rfl rfl rfl
    · contradiction
  | release id =>
    unfold World.step at h
    dsimp only at h
    split at h
    · contradiction
    · obtain rfl := Option.some.inj h
      exact ⟨.released id rfl, Or.inl rfl, [], (List.append_nil _).symm⟩

theorem Grows.longer (h : Grows w w') : ∃ more, w'.core.log = w.core.log ++ more :=
  h.log.imp fun _ hmore => hmore.1

theorem run_longer {actions : List Action} (h : w.run conf actions = some w') :
    (∃ more, w'.core.log = w.core.log ++ more) ∧ ∃ es, w'.events = w.events ++ es := by
  induction actions generalizing w with
  | nil =>
    obtain rfl := Option.some.inj h
    exact ⟨⟨[], (List.append_nil _).symm⟩, [], (List.append_nil _).symm⟩
  | cons a rest ih =>
    obtain ⟨v, hstep, hrest⟩ := Option.bind_eq_some_iff.mp h
    have hgrows := grows_step hstep
    obtain ⟨more, hmore⟩ := hgrows.longer
    obtain ⟨es, hes⟩ := hgrows.events
    obtain ⟨⟨more', hmore'⟩, es', hes'⟩ := ih hrest
    exact ⟨⟨more ++ more', by rw [hmore', hmore, List.append_assoc]⟩, es ++ es',
      by rw [hes', hes, List.append_assoc]⟩

/-- However much of the log is kept, the run was at a moment that had prepared
no more of it, and all that touches a name of it. -/
theorem run_reaches {actions : List Action} {k : ℕ} (h : w.run conf actions = some w')
    (hk : w.core.log.length ≤ k) (hk' : k ≤ w'.core.log.length) :
    ∃ before after v, actions = before ++ after ∧ w.run conf before = some v ∧
      v.run conf after = some w' ∧ ∃ more, w'.core.log.take k = v.core.log ++ more ∧
        ∀ t ∈ more, ∀ n, ¬ Touches n t := by
  induction actions generalizing w with
  | nil =>
    obtain rfl := Option.some.inj h
    exact ⟨[], [], w, rfl, rfl, rfl, [], by rw [List.take_of_length_le hk, List.append_nil],
      fun t ht => absurd ht List.not_mem_nil⟩
  | cons a rest ih =>
    obtain ⟨u, hstep, hrest⟩ := Option.bind_eq_some_iff.mp h
    by_cases hu : u.core.log.length ≤ k
    · obtain ⟨before, after, v, rfl, hbefore, hafter, hmore⟩ := ih hrest hu
      exact ⟨a :: before, after, v, rfl, Option.bind_eq_some_iff.mpr ⟨u, hstep, hbefore⟩, hafter,
        hmore⟩
    · obtain ⟨more, hlog, hquiet⟩ := (grows_step hstep).log
      obtain ⟨⟨more', hlog'⟩, -⟩ := run_longer hrest
      rw [hlog, List.length_append] at hu
      refine ⟨[], a :: rest, w, rfl, rfl, h, more.take (k - w.core.log.length), ?_, fun t ht => ?_⟩
      · rw [hlog', hlog, List.append_assoc, List.take_append, List.take_of_length_le hk,
          List.take_append_of_le_length (by omega)]
      · refine hquiet t ?_
        rw [List.dropLast_eq_take]
        exact List.take_subset_take_left more (by omega) ht

end Swiftacular.LogGrowth
