import Swiftacular.DeviceReads
import Swiftacular.RangedReads

/-!
The turns of a greenthread: what it makes of a call that is over, and how it
goes on where it waits for none. A metadata read that has got to the end, with
the version it began with, is all the metadata of what holds the name.
-/
namespace Swiftacular.DeviceTurns

open Function EntryStore EngineObjects Versions EngineRuns LiveObjects HeldEntries RangedReads
  DeviceRuns DeviceEngine DeviceWorld DeviceSteps DeviceSearches DeviceDecisions DeviceReads

variable {conf : Conf} {G : Goal → Prop} {A : Answer → Option View → Prop} {r : Record} {s : Store}
  {w w' : World} {t id : ℕ} {th : Thread}

theorem lookup_object {name : Name} (h : w.lookup name = some (.object id)) :
    w.objects name = some (.object id) ∧ ∃ o, w.core.heap id = some o := by
  unfold World.lookup at h
  cases hslot : w.objects name with
  | none => simp [hslot] at h
  | some slot =>
    cases slot with
    | search s =>
      cases hs : w.threads s <;> simp [hslot, hs] at h
    | object i =>
      cases hi : w.core.heap i with
      | none => simp [hslot, hi] at h
      | some o =>
        simp only [hslot, hi, Option.map_some, Option.some.injEq, Slot.object.injEq] at h
        subst h
        exact ⟨rfl, o, hi⟩

/-- A thread that is in no sync keeps nothing that touched its name from being lost. -/
theorem not_syncs (hnative : ∀ i stage, th.native ≠ some (.sync i stage)) (k : ℕ) :
    ¬ Syncs w th k := by
  intro hs
  obtain ⟨i, stage, heq⟩ := syncs_native hs
  exact hnative i stage heq

/-! The end of a metadata read. -/

theorem running_finish {version tries : ℕ} {data chunk : Bytes} {goal : Option Goal}
    (hA : Promises conf G A) (h : Running conf G A r s w) (hth : w.threads t = some th)
    (hframe : th.frame = some (.reading id version data tries goal))
    (hnative : th.native =
      some (.read .header id data.length conf.chunkSize (.got (.ok chunk))))
    (hversion : w.versions id = version) (hlast : chunk.length < conf.chunkSize) (us : UInt64) :
    Running conf G A r s (w.finish conf t th id (data ++ chunk) goal us) := by
  have hc := (h.manned.crewed t th hth).2
  have hsearch := not_searches hframe (by simp) (by simp)
  have hquiet : ∀ i stage, th.native ≠ some (.sync i stage) := by simp [hnative]
  obtain ⟨o, ho, hname, hread⟩ := called hc hnative (by simp) rfl
  have hplaced := hc.placed
  simp only [Placed, hframe] at hplaced
  obtain ⟨hheld, -, -, hknown⟩ := hplaced
  have haims : th.frame.bind Frame.goal = goal := by rw [hframe]; rfl
  have hidle : TakesUp conf G A r w th (th.enters .idle) :=
    takes_idle rfl rfl rfl rfl (fun i hi => Or.inl hi) fun hloaded => Or.inl ⟨hloaded, rfl⟩
  unfold World.finish
  cases hloads : conf.loads (data ++ chunk) with
  | none =>
    exact running_tell h hth hsearch (fun k hs => absurd hs (not_syncs hquiet k)) hidle trivial
      fun n => rfl
  | some blob =>
    cases goal with
    | none =>
      refine running_set h hth hsearch hquiet (takes_idle rfl rfl rfl rfl (fun i hi => Or.inl hi)
        fun _ => Or.inr fun i hi => ⟨o, ?_, hread⟩)
      have hsame : some id = some i := (hheld rfl).symm.trans hi
      rw [← Option.some.inj hsame]
      exact ho
    | some goal =>
      dsimp only
      split
      · rename_i hlookup
        have hslot := (lookup_object hlookup).1
        have hactive : o.state = .active := by
          rcases (h.grounded.mapped th.name id o hslot ho).2 with hactive | ⟨hmiss, -⟩
          · exact hactive
          · rcases hread with hs | hs <;> rw [hmiss] at hs <;> contradiction
        obtain ⟨hsettled, v, hv, hprefix, hlooks⟩ :=
          (hknown o ho hactive hversion).looked _ _ _ _ _ hnative
        -- the last chunk is shorter than it was asked for
        have hchunk : chunk = extent v.header data.length conf.chunkSize := hlooks chunk rfl
        have hall : data ++ chunk = v.header := by
          rw [hchunk] at hlast ⊢
          exact whole_extent hprefix hlast
        have hreads : some (data ++ chunk) = (view r w.core.log th.name).map View.header := by
          unfold view
          rw [hv, hall]
          rfl
        refine running_decide hA h ⟨hth, hsearch, hquiet, haims, hslot, ho, hreads, hsettled,
          fun header heq => ⟨blob, ?_⟩⟩ us
        rw [← Option.some.inj heq]
        exact hloads
      · exact running_set h hth hsearch hquiet (takes_enters trivial (fun i hi => by contradiction)
          (fun g hg => Or.inl (haims.trans hg)) fun i n heq => by contradiction)

/-- A chunk of metadata, or why there is none. -/
theorem running_gather {version tries : ℕ} {data : Bytes} {goal : Option Goal}
    {result : Except Error Bytes} (hA : Promises conf G A) (h : Running conf G A r s w)
    (hth : w.threads t = some th) (hframe : th.frame = some (.reading id version data tries goal))
    (hnative : th.native = some (.read .header id data.length conf.chunkSize (.got result)))
    (us : UInt64) :
    Running conf G A r s (w.gather conf t th id version data tries goal result us) := by
  have hc := (h.manned.crewed t th hth).2
  have hsearch := not_searches hframe (by simp) (by simp)
  have hquiet : ∀ i stage, th.native ≠ some (.sync i stage) := by simp [hnative]
  have hplaced := hc.placed
  simp only [Placed, hframe] at hplaced
  obtain ⟨hheld, hle, -, hknown⟩ := hplaced
  have haims : th.frame.bind Frame.goal = goal := by rw [hframe]; rfl
  have hobject : th.frame.bind Frame.object = some id := by rw [hframe]; rfl
  unfold World.gather
  cases result with
  | error e =>
    dsimp only
    split
    · refine running_set h hth hsearch hquiet (takes_enters trivial (fun i hi => Or.inl (Or.inl ?_))
        (fun g hg => Or.inl (haims.trans hg)) fun i n heq => ?_)
      · exact hobject.trans hi
      · obtain ⟨rfl, -, rfl⟩ := Frame.starting.inj heq
        exact hheld rfl
    · exact running_set h hth hsearch hquiet
        (takes_idle rfl rfl rfl rfl (fun i hi => Or.inl hi) fun hloaded => Or.inl ⟨hloaded, rfl⟩)
  | ok chunk =>
    dsimp only
    split
    · exact running_begin h hth hsearch hquiet hobject (fun g hg => haims.trans hg) hheld
    · rename_i hversion
      have hversion : w.versions id = version := not_not.mp hversion
      split
      · rename_i hlast
        exact running_finish hA h hth hframe hnative hversion hlast us
      · refine running_set h hth hsearch hquiet (takes_calls (fun i => by simp) (by simp)
          (fun i hi => Or.inl (Or.inl ?_)) (fun g hg => haims.trans hg) ?_)
        · rcases hi with hi | hi <;> exact hobject.trans hi
        · refine ⟨hheld, hle, Or.inr ⟨.start, rfl⟩, fun o ho hactive _ => ⟨fun i done heq => ?_,
            fun part i offset size look heq => ?_⟩⟩
          · simp [Thread.calls] at heq
          · obtain ⟨rfl, rfl, rfl, rfl, rfl⟩ := Native.read.inj (Option.some.inj heq)
            obtain ⟨hsettled, v, hv, hprefix, hlooks⟩ :=
              (hknown o ho hactive hversion).looked _ _ _ _ _ hnative
            have hchunk : chunk = extent v.header data.length conf.chunkSize := hlooks chunk rfl
            refine ⟨hsettled, v, hv, ?_, trivial⟩
            rw [hchunk]
            exact extent_grows hprefix _

/-! The end of a sync. -/

/-- What a sync waited for is durable once it is over. -/
theorem committed_covers {name : Name} {done : Option ℕ} {k : ℕ}
    (hcommitted : w.committed conf name done = true) (hcovers : Covers k done) :
    k < w.durable (conf.collection name) := by
  obtain ⟨d, rfl, hk⟩ := hcovers
  have hlt : d < w.durable (conf.collection name) := by
    simpa [World.committed] using hcommitted
  omega

theorem committed_syncs {done : Option ℕ} (hnative : th.native = some (.sync id (.captured done)))
    (hcommitted : w.committed conf th.name done = true) {k : ℕ} (hs : Syncs w th k) :
    k < w.durable (conf.collection th.name) := by
  obtain ⟨i, stage, o, hcall, -, -, -, hstage⟩ := hs
  obtain ⟨-, rfl⟩ := Native.sync.inj (Option.some.inj (hnative.symm.trans hcall))
  exact committed_covers hcommitted (hstage done rfl)

/-- A request is told what it wrote, all of which is durable. -/
theorem running_answer {a : Answer} (h : Running conf G A r s w) (hth : w.threads t = some th)
    (hframe : th.frame = some (.syncing id a))
    (hended : w.ended conf th.name th.native = true) : Running conf G A r s (w.answer t th a) := by
  have hsearch := not_searches hframe (by simp) (by simp)
  have hplaced := (h.manned.crewed t th hth).2.placed
  simp only [Placed, hframe] at hplaced
  obtain ⟨stage, k, hnative, hk, hsyncs, hanswer⟩ := hplaced
  obtain ⟨done, rfl, hcommitted⟩ : ∃ done, stage = .captured done ∧
      w.committed conf th.name done = true := by
    rw [hnative] at hended
    cases stage with
    | captured done => exact ⟨done, rfl, hended⟩
    | enter => simp [World.ended] at hended
    | submitting => simp [World.ended] at hended
    | left => simp [World.ended] at hended
  exact running_tell h hth hsearch (fun k' hs => Or.inl (committed_syncs hnative hcommitted hs))
    (takes_idle rfl rfl rfl rfl (fun i hi => Or.inl hi) fun hloaded => Or.inl ⟨hloaded, rfl⟩)
    ⟨k + 1, committed_syncs hnative hcommitted hsyncs, hk, hanswer⟩ fun n => rfl

/-- After its sync a metadata read asks for the first chunk: the name is settled. -/
theorem running_synced {version tries : ℕ} {data : Bytes} {goal : Option Goal} {done : Option ℕ}
    (h : Running conf G A r s w) (hth : w.threads t = some th)
    (hframe : th.frame = some (.reading id version data tries goal))
    (hnative : th.native = some (.sync id (.captured done))) (hdata : data = [])
    (hcommitted : w.committed conf th.name done = true) :
    Running conf G A r s (w.set t (th.calls (.reading id version data tries goal)
      (.read .header id data.length conf.chunkSize .start))) := by
  have hc := (h.manned.crewed t th hth).2
  have hsearch := not_searches hframe (by simp) (by simp)
  have hplaced := hc.placed
  simp only [Placed, hframe] at hplaced
  obtain ⟨hheld, hle, -, hknown⟩ := hplaced
  have hobject : th.frame.bind Frame.object = some id := by rw [hframe]; rfl
  have htakes : TakesUp conf G A r w th (th.calls (.reading id version data tries goal)
      (.read .header id data.length conf.chunkSize .start)) := by
    refine takes_calls (fun i => by simp) (by simp) (fun i hi => Or.inl (Or.inl ?_))
      (fun g hg => ?_) ?_
    · rcases hi with hi | hi <;> exact hobject.trans hi
    · rw [hframe]
      exact hg
    · refine ⟨hheld, hle, Or.inr ⟨.start, rfl⟩, fun o ho hactive hversion => ⟨fun i done heq => ?_,
        fun part i offset size look heq => ?_⟩⟩
      · simp [Thread.calls] at heq
      · obtain ⟨rfl, rfl, rfl, rfl, rfl⟩ := Native.read.inj (Option.some.inj heq)
        have hdone := (hknown o ho hactive hversion).synced id done hnative
        obtain ⟨o', ho', hname⟩ := hc.alive id (keeps_frame hobject)
        obtain rfl := Option.some.inj (ho.symm.trans ho')
        obtain ⟨v, hv, -⟩ := (h.grounded.engaged.stands.drafts id o ho).holding hactive
        rw [hname] at hv
        refine ⟨fun k hk => ?_, v, hv, ?_, trivial⟩
        · have hcovered := h.grounded.covered id o ho hactive k (hname ▸ hk)
          rw [hname] at hcovered
          exact hcovered.elim (fun hlt => hlt) fun hd => committed_covers hcommitted (hdone ▸ hd)
        · rw [hdata]
          exact List.nil_prefix
  obtain ⟨hcrewed, hkeeps⟩ := htakes.crewed hc hsearch
  refine running_thread [] h hth hsearch rfl rfl rfl rfl rfl
    (h.grounded.shown.same rfl rfl rfl rfl rfl) rfl rfl (List.append_nil _).symm
    (fun e he => absurd he List.not_mem_nil) (fun n e he => absurd he List.not_mem_nil)
    (fun uth heq => ?_) fun k hs => Or.inl (committed_syncs hnative hcommitted hs)
  obtain rfl := Option.some.inj heq
  exact ⟨htakes.name, htakes.search, hcrewed, htakes.owns, hkeeps⟩

/-! The chunks of a GET, and whatever else a thread waited for. -/

theorem running_pass {offset tries size : ℕ} {stop : Option ℕ} {result : Except Error Bytes}
    (h : Running conf G A r s w) (hth : w.threads t = some th)
    (hframe : th.frame = some (.fetching id offset stop tries))
    (hquiet : ∀ i stage, th.native ≠ some (.sync i stage)) :
    Running conf G A r s (w.pass t th id offset stop tries size result) := by
  have hsearch := not_searches hframe (by simp) (by simp)
  have hidle : TakesUp conf G A r w th (th.enters .idle) :=
    takes_idle rfl rfl rfl rfl (fun i hi => Or.inl hi) fun hloaded => Or.inl ⟨hloaded, rfl⟩
  have hasking : ∀ offset' tries', TakesUp conf G A r w th
      (th.enters (.asking id offset' stop tries')) := by
    intro offset' tries'
    refine takes_enters trivial (fun i hi => Or.inl (Or.inl ?_)) (fun g hg => by contradiction)
      fun i n heq => by contradiction
    rw [hframe]
    exact hi
  have htell : ∀ {th'} chunk, TakesUp conf G A r w th th' →
      Running conf G A r s ((w.note (.yielded id offset chunk)).set t th') := by
    intro th' chunk htakes
    exact running_tell h hth hsearch (fun k hs => absurd hs (not_syncs hquiet k)) htakes trivial
      fun n => rfl
  unfold World.pass
  cases result with
  | error e =>
    dsimp only
    split
    · exact running_set h hth hsearch hquiet (hasking offset (tries + 1))
    · exact running_set h hth hsearch hquiet hidle
  | ok chunk =>
    dsimp only
    split
    · exact running_set h hth hsearch hquiet hidle
    · split
      · exact htell chunk hidle
      · split
        · exact htell chunk (hasking _ 0)
        · exact htell chunk hidle

theorem running_resume {us : UInt64} (hA : Promises conf G A) (h : Running conf G A r s w)
    (hth : w.threads t = some th) (hended : w.ended conf th.name th.native = true)
    (hstep : w.resume conf t th us = some w') : Running conf G A r s w' := by
  have hplaced := (h.manned.crewed t th hth).2.placed
  unfold World.resume at hstep
  cases hframe : th.frame with
  | none => simp [hframe] at hstep
  | some frame =>
    rw [hframe] at hstep
    simp only [Placed, hframe] at hplaced
    cases frame with
    | searching id =>
      obtain rfl := Option.some.inj hstep
      obtain ⟨-, -, o, -, -, ⟨hopen, -⟩ | ⟨hnative, -⟩⟩ := hplaced
      · simp [hopen, World.ended] at hended
      · exact running_found h hth hframe hnative
    | writing =>
      obtain rfl := Option.some.inj hstep
      obtain ⟨stage, hnative⟩ := hplaced
      exact running_set h hth (not_searches hframe (by simp) (by simp)) (by simp [hnative])
        (takes_idle rfl rfl rfl rfl (fun i hi => Or.inl hi) fun hloaded => Or.inl ⟨hloaded, rfl⟩)
    | syncing id a =>
      obtain rfl := Option.some.inj hstep
      exact running_answer h hth hframe hended
    | reading id version data tries goal =>
      obtain ⟨-, -, ⟨hdata, stage, hnative⟩ | ⟨look, hnative⟩, -⟩ := hplaced
      · rw [hnative] at hended hstep
        obtain rfl := Option.some.inj hstep
        cases stage with
        | captured done => exact running_synced h hth hframe hnative hdata hended
        | enter => simp [World.ended] at hended
        | submitting => simp [World.ended] at hended
        | left => simp [World.ended] at hended
      · rw [hnative] at hended hstep
        cases look with
        | got result =>
          obtain rfl := Option.some.inj hstep
          exact running_gather hA h hth hframe hnative us
        | start => simp [World.ended] at hended
        | «at» a => simp [World.ended] at hended
        | seen a found => simp [World.ended] at hended
    | fetching id offset stop tries =>
      obtain ⟨size, look, hnative⟩ := hplaced
      rw [hnative] at hended hstep
      cases look with
      | got result =>
        obtain rfl := Option.some.inj hstep
        exact running_pass h hth hframe (by simp [hnative])
      | start => simp [World.ended] at hended
      | «at» a => simp [World.ended] at hended
      | seen a found => simp [World.ended] at hended
    | search | idle | opening | waiting | starting | asking => contradiction

/-! Turns of a thread that waits for no call. -/

/-- A MISSING Object of the map says that nothing holds the name. -/
theorem ready_missing {goal : Goal} {o : Object} (h : Running conf G A r s w)
    (hth : w.threads t = some th) (hsearch : ¬ Searches th) (hnative : th.native = none)
    (haims : th.frame.bind Frame.goal = some goal) (hslot : w.objects th.name = some (.object id))
    (ho : w.core.heap id = some o) (hmiss : o.state = .missing) :
    Ready conf r w t th goal id o none := by
  obtain ⟨-, hactive | ⟨-, hnone⟩⟩ := h.grounded.mapped th.name id o hslot ho
  · rw [hmiss] at hactive
    contradiction
  have hsettled : Settled conf w th.name := by
    refine settled_unheld h.grounded h.manned fun i q hq hname hactive => ?_
    obtain ⟨v, hv, -⟩ := (h.grounded.engaged.stands.drafts i q hq).holding hactive
    rw [hname, hnone] at hv
    contradiction
  refine ⟨hth, hsearch, by simp [hnative], haims, hslot, ho, ?_, hsettled,
    fun header heq => by contradiction⟩
  unfold view
  rw [hnone]
  rfl

theorem running_look {goal : Option Goal} (hA : Promises conf G A) (h : Running conf G A r s w)
    (hth : w.threads t = some th) (hframe : th.frame = some (.opening goal))
    (hnative : th.native = none) (us : UInt64) :
    Running conf G A r s (w.look conf t th goal us) := by
  have hsearch := not_searches hframe (by simp) (by simp)
  have hquiet : ∀ i stage, th.native ≠ some (.sync i stage) := by simp [hnative]
  have haims : th.frame.bind Frame.goal = goal := by rw [hframe]; rfl
  have hwaits : ∀ {v} i, TakesUp conf G A r v th (th.enters (.waiting i goal)) := by
    intro v i
    exact takes_enters trivial (fun i hi => by contradiction) (fun g hg => Or.inl (haims.trans hg))
      fun i n heq => by contradiction
  unfold World.look
  cases hlookup : w.lookup th.name with
  | none =>
    have hne : t ≠ w.next := ((h.manned.crewed t th hth).1).ne
    exact running_set (running_spawn h hlookup) ((update_of_ne hne _ _).trans hth) hsearch hquiet
      (hwaits w.next)
  | some slot =>
    cases slot with
    | search i => exact running_set h hth hsearch hquiet (hwaits i)
    | object i =>
      obtain ⟨hslot, o, ho⟩ := lookup_object hlookup
      obtain ⟨hname, hstate⟩ := h.grounded.mapped th.name i o hslot ho
      have hfound : Found o := hstate.elim (fun hs => Or.inr (Or.inl hs)) fun hs => Or.inl hs.1
      cases goal with
      | none =>
        refine running_set h hth hsearch hquiet (takes_idle rfl rfl rfl rfl (fun j hj => Or.inr ?_)
          fun hloaded => by contradiction)
        obtain rfl := Option.some.inj hj
        exact ⟨o, ho, hname, hfound⟩
      | some goal =>
        dsimp only
        rw [ho]
        split
        · rename_i hmiss
          have hmiss : o.state = .missing := by simpa using hmiss
          exact running_decide hA h (ready_missing h hth hsearch hnative haims hslot ho hmiss) us
        · rename_i hmiss
          have hread : Readable o := hfound.resolve_left fun hs => hmiss (by simp [hs])
          refine running_set h hth hsearch hquiet (takes_enters trivial (fun j hj => Or.inr ?_)
            (fun g hg => Or.inl (haims.trans hg)) fun j n heq => by simp at heq)
          obtain rfl := Option.some.inj hj
          exact ⟨o, ho, hname, hread⟩

theorem running_go {us : UInt64} (hA : Promises conf G A) (h : Running conf G A r s w)
    (hth : w.threads t = some th) (hnative : th.native = none)
    (hstep : w.go conf t th us = some w') : Running conf G A r s w' := by
  have hquiet : ∀ i stage, th.native ≠ some (.sync i stage) := by simp [hnative]
  have hplaced := (h.manned.crewed t th hth).2.placed
  unfold World.go at hstep
  cases hframe : th.frame with
  | none => simp [hframe] at hstep
  | some frame =>
    rw [hframe] at hstep
    simp only [Placed, hframe] at hplaced
    cases frame with
    | search =>
      obtain rfl := Option.some.inj hstep
      exact running_search h hth hframe
    | opening goal =>
      obtain rfl := Option.some.inj hstep
      exact running_look hA h hth hframe hnative us
    | waiting i goal =>
      have hsearch := not_searches hframe (by simp) (by simp)
      dsimp only at hstep
      split at hstep
      · obtain rfl := Option.some.inj hstep
        refine running_set h hth hsearch hquiet (takes_enters trivial (fun j hj => by contradiction)
          (fun g hg => Or.inl ?_) fun j n heq => by contradiction)
        rw [hframe]
        exact hg
      · split at hstep
        · obtain rfl := Option.some.inj hstep
          exact running_set h hth hsearch hquiet
            (takes_idle rfl rfl rfl rfl (fun j hj => Or.inl hj) fun hloaded => Or.inl ⟨hloaded, rfl⟩)
        · contradiction
    | starting i tries goal =>
      obtain rfl := Option.some.inj hstep
      refine running_begin h hth (not_searches hframe (by simp) (by simp)) hquiet ?_
        (fun g hg => ?_) hplaced.2
      · rw [hframe]
        rfl
      · rw [hframe]
        exact hg
    | asking i offset stop tries =>
      obtain rfl := Option.some.inj hstep
      refine running_set h hth (not_searches hframe (by simp) (by simp)) hquiet
        (takes_calls (fun j => by simp) (by simp) (fun j hj => Or.inl (Or.inl ?_))
          (fun g hg => by contradiction) ⟨_, _, rfl⟩)
      rw [hframe]
      rcases hj with hj | hj <;> exact hj
    | idle | searching | reading | writing | syncing | fetching => contradiction

end Swiftacular.DeviceTurns
