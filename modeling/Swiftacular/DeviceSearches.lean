import Swiftacular.DeviceSteps

/-!
The searches of the map. One search is under way for a name, and its Object is
nobody else's; while it is, no live Object holds the name, so the name is
settled and the store shows what holds it. What a search finds is true when it
is found and still true when the map is given it.
-/
namespace Swiftacular.DeviceSearches

open Function EntryStore EngineObjects Versions EngineRuns LiveObjects HeldEntries PreparedLog
  DeviceRuns DeviceEngine DeviceWorld DeviceSteps

variable {conf : Conf} {G : Goal → Prop} {A : Answer → Option View → Prop} {r : Record} {s : Store}
  {w w' : World} {t : ℕ} {th : Thread} {name : Name}

/-- An Object that was not yet searched for belongs to one search alone. -/
theorem sought_alone (h : Manned conf G A r w) (hth : w.threads t = some th) (hsearch : Searches th)
    {id : ℕ} {o : Object} (ho : w.core.heap id = some o) (hname : o.name = th.name)
    (hpre : o.state = .preSearch) {u : ℕ} {uth : Thread} (hu : w.threads u = some uth)
    (hkeeps : uth.keeps id) : u = t := by
  have hcrewed := (h.crewed u uth hu).2
  obtain ⟨p, hp, hpname⟩ := hcrewed.alive id hkeeps
  obtain rfl := Option.some.inj (ho.symm.trans hp)
  have hnot : ¬ Found o := by simp [Found, Readable, hpre]
  rcases hkeeps with hheld | howns | huses
  · exact absurd (hcrewed.holds id o hheld ho) hnot
  · rcases hcrewed.owned id o howns ho with hw | hw <;> simp [hpre] at hw
  · by_cases hs : Searches uth
    · have hone := h.searches u uth hu hs
      rw [← hpname, hname, h.searches t th hth hsearch] at hone
      simpa using hone.symm
    · exact absurd (Or.inr (hcrewed.uses id o ⟨hs, huses⟩ ho)) hnot

/-- While a search has not found anything, no live Object holds its name. -/
theorem sought_unheld (h : Manned conf G A r w) (hth : w.threads t = some th)
    (hsearch : Searches th) (hnative : th.native ≠ none) :
    ∀ id o, w.core.heap id = some o → o.name = th.name → o.state ≠ .active := by
  intro id o ho hname hactive
  have hslot := h.searches t th hth hsearch
  rcases h.located id o ho hactive with hmap | ⟨u, uth, hu, huname, huframe, hunative⟩
  · rw [hname, hslot] at hmap
    simp at hmap
  · have hone := h.searches u uth hu (Or.inr ⟨id, huframe⟩)
    rw [huname, hname, hslot] at hone
    obtain rfl : t = u := by simpa using hone
    obtain rfl := Option.some.inj (hth.symm.trans hu)
    exact hnative hunative

/-- What a search makes of its Object. -/
theorem open_reported {st : EngineObjects.Store} {o : Object} {held : Option Version}
    (hpre : o.state = .preSearch) (hload : load st (ordinary o.name) = reported held) :
    (o.open st).2 = .ok () ∧ (o.open st).1.done = o.done ∧
      ((o.open st).1.state = .missing ∧ (o.open st).1.name = o.name ∧ held = none ∨
        ∃ v, held = some v ∧ (o.open st).1.toStat = v.stat) := by
  have hreq : o.require "open" [.preSearch] = .ok () := require_of_mem (by simp [hpre])
  have haddr : address { o with state := .inSearch }.toStat = ordinary o.name := rfl
  cases held with
  | none =>
    simp only [Object.open, hreq, haddr, hload, reported]
    exact ⟨trivial, trivial, Or.inl ⟨trivial, trivial, trivial⟩⟩
  | some v =>
    simp only [Object.open, hreq, haddr, hload, reported]
    exact ⟨trivial, trivial, Or.inr ⟨v, rfl, rfl⟩⟩

/-- Where a call of `open` in the pool comes from. -/
theorem searching_of_open (h : Crewed conf G A r w th) {id : ℕ}
    (hnative : th.native = some (.open id)) : th.frame = some (.searching id) ∧ th.held = none ∧
      th.own = none ∧ ∃ o, w.core.heap id = some o ∧ o.done = none ∧ o.state = .preSearch := by
  have hplaced := h.placed
  cases hframe : th.frame with
  | none =>
    simp only [Placed, hframe] at hplaced
    exact absurd hnative (hplaced id)
  | some frame =>
    cases frame with
    | searching i =>
      simp only [Placed, hframe] at hplaced
      obtain ⟨hheld, hown, o, ho, hdone, hcase⟩ := hplaced
      rcases hcase with ⟨heq, hpre⟩ | ⟨heq, -⟩
      · rw [hnative] at heq
        obtain rfl : id = i := by simpa using heq
        exact ⟨rfl, hheld, hown, o, ho, hdone, hpre⟩
      · rw [hnative] at heq
        contradiction
    | reading i version data tries goal =>
      simp only [Placed, hframe, hnative] at hplaced
      rcases hplaced.2.2.1 with ⟨-, stage, heq⟩ | ⟨look, heq⟩ <;> simp at heq
    | search | idle | opening | waiting | starting | writing | syncing | asking | fetching =>
      simp [Placed, hframe, hnative] at hplaced

/-- A search looks: the store shows what holds the name. -/
theorem running_load {id : ℕ} (h : Running conf G A r s w) (hth : w.threads t = some th)
    (hnative : th.native = some (.open id)) : Running conf G A r s (w.load t th id) := by
  have hcrewed := (h.manned.crewed t th hth).2
  obtain ⟨hframe, hheld, hown, o, ho, hdone, hpre⟩ := searching_of_open hcrewed hnative
  have hsearch : Searches th := Or.inr ⟨id, hframe⟩
  have hkeep : th.keeps id := keeps_frame (by rw [hframe]; rfl)
  have hname : o.name = th.name := by
    obtain ⟨p, hp, hname⟩ := hcrewed.alive id hkeep
    obtain rfl := Option.some.inj (ho.symm.trans hp)
    exact hname
  have hunheld := sought_unheld h.manned hth hsearch (by simp [hnative])
  have hsettled := settled_unheld h.grounded h.manned hunheld
  have hstands := h.grounded.engaged.stands
  have hload : load w.store (ordinary o.name) = reported ((r.after w.core.log).held o.name) := by
    refine load_reported ?_ (hstands.held o.name)
    have hshown := congrArg (Option.map Prod.snd) (shown_settled h.grounded (hname ▸ hsettled))
    rwa [Option.map_map, Option.map_map] at hshown
  obtain ⟨hok, hdone', hresult⟩ := open_reported hpre hload
  have hengaged := engaged_open h.grounded.engaged ho (fun _ => hload)
    fun _ j p hp hactive hn => hunheld j p hp (hn.trans hname) hactive
  have hopen : w.core.open w.store id =
      ({ w.core with heap := update w.core.heap id (some (o.open w.store).1) }, .ok ()) := by
    simp only [Core.open, ho, hok]
  rw [hopen] at hengaged
  have hstep : w.load t th id = (({ w with core :=
      { w.core with heap := update w.core.heap id (some (o.open w.store).1) } }.set t
        { th with native := none }).note (.searched (o.open w.store).1 w.core.log.length)) := by
    simp only [World.load, hopen, update_self]
  rw [hstep]
  generalize hfound : (o.open w.store).1 = p at hdone' hresult hengaged ⊢
  have hself : update w.core.heap id (some p) id = some p := update_self ..
  have hpname : p.name = th.name := by
    rcases hresult with ⟨-, hn, -⟩ | ⟨v, hv, hstat⟩
    · exact hn.trans hname
    · exact ((congrArg Stat.name hstat).trans (hstands.held o.name v hv).1).trans hname
  have hholds : Holds (r.after w.core.log) p := by
    unfold Holds
    rw [hpname, ← hname]
    rcases hresult with ⟨hmiss, -, hnone⟩ | ⟨v, hv, hstat⟩
    · rw [hnone]
      exact hmiss
    · rw [hv]
      exact ⟨(congrArg Stat.state hstat).trans (hstands.held o.name v hv).2, hstat⟩
  have hstate : p.state = .active ∨
      p.state = .missing ∧ (r.after w.core.log).held th.name = none := by
    rw [← hname]
    rcases hresult with ⟨hmiss, -, hnone⟩ | ⟨v, hv, hstat⟩
    · exact Or.inr ⟨hmiss, hnone⟩
    · exact Or.inl ((congrArg Stat.state hstat).trans (hstands.held o.name v hv).2)
  have hother : ∀ u uth, u ≠ t → w.threads u = some uth → ∀ i, uth.keeps i → i ≠ id := by
    rintro u uth hut hu i hi rfl
    exact hut (sought_alone h.manned hth hsearch ho hname hpre hu hi)
  let th' : Thread := { th with native := none }
  have hkeeps : ∀ i, th'.keeps i → i = id := by
    rintro i (hi | (hi | hi) | hi | hi)
    · exact absurd (hheld.symm.trans hi) (by simp)
    · exact absurd (hown.symm.trans hi) (by simp)
    · simp [th', hframe, Frame.goal] at hi
    · exact (by simpa [th', hframe, Frame.object] using hi.symm)
    · contradiction
  have howns : ∀ i, ¬ th'.owns i := by
    rintro i (hi | hi)
    · exact absurd (hown.symm.trans hi) (by simp)
    · simp [th', hframe, Frame.goal] at hi
  have hquiet : Quiet conf w (({ w with core :=
      { w.core with heap := update w.core.heap id (some p) } }.set t th').note
        (.searched p w.core.log.length)) := by
    refine ⟨⟨[], (List.append_nil _).symm, fun n u hu => by contradiction⟩, le_refl _,
      fun i q hq => ?_⟩
    rcases heap_update hq with ⟨rfl, heq⟩ | ⟨-, hq⟩
    · obtain rfl := Option.some.inj heq
      refine Or.inr ⟨Or.inr ⟨o, ho, by simp [hpre]⟩, ?_, fun _ => hpname ▸ hsettled⟩
      rcases hstate with hs | ⟨hs, -⟩ <;> simp [hs]
    · exact Or.inl hq
  refine @running_quiet conf G A r s w _ t (some th) (some th') [.searched p w.core.log.length] h
    hquiet hengaged (h.grounded.shown.same rfl rfl rfl rfl rfl) rfl rfl rfl rfl (le_refl _)
    ⟨hth, rfl, fun uth heq => ?_, fun uth heq i hi => ?_, fun uth heq i hi => ?_,
      fun uth heq k hs => ?_⟩
    (fun u uth hut hu i hi => update_of_ne (hother u uth hut hu i hi) _ _) (fun i q hq hactive => ?_)
    (fun uth heq hs => ?_) (fun uth heq hs => ?_) rfl (fun e he => ?_) fun n e he => ?_
  · obtain rfl := Option.some.inj heq
    refine ⟨(h.manned.crewed t th hth).1, fun i hi => ?_, fun i q hi => absurd hi (howns i),
      fun i q hi => ?_, fun i q huses => ?_, fun g hg => ?_, fun i hi => ?_, fun _ i q hi => ?_,
      fun i q hi => absurd hi (howns i), ?_⟩
    · rw [hkeeps i hi]
      exact ⟨p, hself, hpname⟩
    · exact absurd (hheld.symm.trans hi) (by simp)
    · exact absurd (Or.inr ⟨id, hframe⟩) huses.1
    · simp [th', hframe, Frame.goal] at hg
    · simp [th', hframe, Frame.goal] at hi
    · exact absurd (hheld.symm.trans hi) (by simp)
    · simp only [Placed, th', hframe]
      exact ⟨hheld, hown, p, hself, hdone'.trans hdone, Or.inr ⟨trivial, hstate⟩⟩
  · obtain rfl := Option.some.inj heq
    exact absurd hi (howns i)
  · obtain rfl := Option.some.inj heq
    exact Or.inl ⟨th, rfl, hkeeps i hi ▸ hkeep⟩
  · obtain rfl := Option.some.inj heq
    obtain ⟨i, stage, heq⟩ := syncs_native hs
    simp [hnative] at heq
  · rcases heap_update hq with ⟨rfl, heq⟩ | ⟨-, hq⟩
    · obtain rfl := Option.some.inj heq
      exact Or.inr ⟨t, th', update_self .., hpname.symm, hframe, rfl⟩
    · exact Or.inl hq
  · obtain rfl := Option.some.inj heq
    refine ⟨⟨th', rfl, rfl, Or.inr ⟨id, hframe⟩⟩, fun hended => ?_⟩
    rw [hnative] at hended
    exact absurd hended.1 (by simp)
  · obtain rfl := Option.some.inj heq
    exact ⟨th, rfl, hsearch, rfl⟩
  · rw [List.mem_singleton.mp he]
    have hnow : Holds (r.after (w.core.log.take w.core.log.length)) p := by
      rw [List.take_length]
      exact hholds
    exact ⟨le_refl _, hnow⟩
  · rw [List.mem_singleton.mp he]
    rfl

/-- The map is given what a search found. -/
theorem running_found {id : ℕ} (h : Running conf G A r s w) (hth : w.threads t = some th)
    (hframe : th.frame = some (.searching id)) (hnative : th.native = none) :
    Running conf G A r s
      ({ w with objects := update w.objects th.name (some (.object id)) }.drop t) := by
  have hcrewed := (h.manned.crewed t th hth).2
  have hsearch : Searches th := Or.inr ⟨id, hframe⟩
  have hslot := h.manned.searches t th hth hsearch
  obtain ⟨o, ho, hname⟩ := hcrewed.alive id (keeps_frame (by rw [hframe]; rfl))
  have hstate : o.state = .active ∨
      o.state = .missing ∧ (r.after w.core.log).held th.name = none := by
    have hplaced := hcrewed.placed
    simp only [Placed, hframe, hnative] at hplaced
    obtain ⟨-, -, p, hp, -, ⟨hnone, -⟩ | ⟨-, hstate⟩⟩ := hplaced
    · contradiction
    · obtain rfl := Option.some.inj (ho.symm.trans hp)
      exact hstate
  have hcases : ∀ {u uth}, update w.threads t none u = some uth → u ≠ t ∧ w.threads u = some uth := by
    intro u uth hu
    by_cases hut : u = t
    · subst hut
      rw [update_self] at hu
      contradiction
    · rw [update_of_ne hut] at hu
      exact ⟨hut, hu⟩
  -- another search of the name would be this one
  have honly : ∀ {u uth}, w.threads u = some uth → Searches uth → uth.name = th.name → u = t := by
    intro u uth hu hs hn
    have hone := h.manned.searches u uth hu hs
    rw [hn, hslot] at hone
    simpa using hone.symm
  have hgrounded : Grounded conf G r s
      ({ w with objects := update w.objects th.name (some (.object id)) }.drop t) := by
    refine ⟨h.grounded.engaged, h.grounded.shown.same rfl rfl rfl rfl rfl, h.grounded.durable,
      fun n i hi => ?_, fun n i p hi hp => ?_, h.grounded.superseded, h.grounded.covered⟩
    · by_cases hn : n = th.name
      · subst hn
        obtain rfl : id = i := by simpa [World.drop] using hi
        exact h.grounded.engaged.stands.lt_fresh ho
      · exact h.grounded.known n i (by simpa [World.drop, update_of_ne hn] using hi)
    · by_cases hn : n = th.name
      · subst hn
        obtain rfl : id = i := by simpa [World.drop] using hi
        obtain rfl := Option.some.inj (ho.symm.trans hp)
        exact ⟨hname, hstate⟩
      · exact h.grounded.mapped n i p (by simpa [World.drop, update_of_ne hn] using hi) hp
  refine @running_step conf G A r s w _ [] h hgrounded
    ⟨fun u uth hu => ?_, fun u v uth vth i hu hv howns hkeeps => ?_, fun n u hu => ?_,
      fun u uth hu hs => ?_, fun i p hp hactive => ?_, fun n k hk hpending => ?_⟩
    ⟨[], (List.append_nil _).symm⟩ (fun _ => rfl) (fun _ => le_refl _) (List.append_nil _).symm
    (fun e he => by contradiction) fun n e he => by contradiction
  · obtain ⟨-, hu⟩ := hcases hu
    exact ⟨(h.manned.crewed u uth hu).1, (h.manned.crewed u uth hu).2.same rfl rfl fun _ => le_refl _⟩
  · exact h.manned.apart u v uth vth i (hcases hu).2 (hcases hv).2 howns hkeeps
  · have hn : n ≠ th.name := by
      rintro rfl
      simp [World.drop] at hu
    have hu : w.objects n = some (.search u) := by simpa [World.drop, update_of_ne hn] using hu
    obtain ⟨uth, huth, huname, hs⟩ := h.manned.sought n u hu
    have hut : u ≠ t := by
      rintro rfl
      obtain rfl := Option.some.inj (hth.symm.trans huth)
      exact hn huname.symm
    exact ⟨uth, (update_of_ne hut _ _).trans huth, huname, hs⟩
  · obtain ⟨hut, hu⟩ := hcases hu
    have hn : uth.name ≠ th.name := fun hn => hut (honly hu hs hn)
    exact (update_of_ne hn _ _).trans (h.manned.searches u uth hu hs)
  · by_cases hn : p.name = th.name
    · rcases h.manned.located i p hp hactive with hmap | ⟨u, uth, hu, huname, huframe, -⟩
      · rw [hn, hslot] at hmap
        simp at hmap
      · obtain rfl := honly hu (Or.inr ⟨i, huframe⟩) (huname.trans hn)
        obtain rfl := Option.some.inj (hth.symm.trans hu)
        obtain rfl : id = i := by simpa [hframe] using huframe
        exact Or.inl (by rw [hn]; exact update_self ..)
    · refine (h.manned.located i p hp hactive).imp (fun hmap => (update_of_ne hn _ _).trans hmap)
        fun hsearched => ?_
      obtain ⟨u, uth, hu, huname, huframe, hunative⟩ := hsearched
      have hut : u ≠ t := by
        rintro rfl
        obtain rfl := Option.some.inj (hth.symm.trans hu)
        exact hn huname.symm
      exact ⟨u, uth, (update_of_ne hut _ _).trans hu, huname, huframe, hunative⟩
  · obtain ⟨u, uth, hu, huname, hs⟩ := h.manned.guarded n k hk hpending
    have hut : u ≠ t := by
      rintro rfl
      obtain rfl := Option.some.inj (hth.symm.trans hu)
      obtain ⟨i, stage, heq⟩ := syncs_native hs
      rw [hnative] at heq
      contradiction
    exact ⟨u, uth, (update_of_ne hut _ _).trans hu, huname, hs.same rfl⟩

/-- A search is put in the map, where there was nothing. -/
theorem running_spawn (h : Running conf G A r s w) (hlookup : w.lookup name = none) :
    Running conf G A r s { (w.set w.next (Thread.search name)) with
      next := w.next + 1, objects := update w.objects name (some (.search w.next)) } := by
  have hnew := h.manned.unused
  have hcases : ∀ {u uth}, update w.threads w.next (some (Thread.search name)) u = some uth →
      u = w.next ∧ uth = Thread.search name ∨ u ≠ w.next ∧ w.threads u = some uth := by
    intro u uth hu
    by_cases hut : u = w.next
    · subst hut
      rw [update_self] at hu
      exact Or.inl ⟨rfl, (Option.some.inj hu).symm⟩
    · rw [update_of_ne hut] at hu
      exact Or.inr ⟨hut, hu⟩
  have hother : ∀ {u uth}, w.threads u = some uth →
      update w.threads w.next (some (Thread.search name)) u = some uth := by
    intro u uth hu
    have hut : u ≠ w.next := by
      rintro rfl
      rw [hnew] at hu
      contradiction
    exact (update_of_ne hut _ _).trans hu
  have hfree : ∀ i, ¬ (Thread.search name).keeps i := by
    rintro i (hi | (hi | hi) | hi | hi) <;> contradiction
  have hgone : ∀ i o, w.objects name = some (.object i) → w.core.heap i ≠ some o := by
    intro i o hi ho
    simp [World.lookup, hi, ho] at hlookup
  have hnone : ∀ u uth, w.objects name = some (.search u) → w.threads u ≠ some uth := by
    intro u uth hu huth
    simp [World.lookup, hu, huth] at hlookup
  have hgrounded : Grounded conf G r s { (w.set w.next (Thread.search name)) with
      next := w.next + 1, objects := update w.objects name (some (.search w.next)) } := by
    refine ⟨h.grounded.engaged, h.grounded.shown.same rfl rfl rfl rfl rfl, h.grounded.durable,
      fun n i hi => ?_, fun n i p hi hp => ?_, h.grounded.superseded, h.grounded.covered⟩
    · by_cases hn : n = name
      · subst hn
        simp at hi
      · exact h.grounded.known n i (by simpa [World.set, update_of_ne hn] using hi)
    · by_cases hn : n = name
      · subst hn
        simp at hi
      · exact h.grounded.mapped n i p (by simpa [World.set, update_of_ne hn] using hi) hp
  refine @running_step conf G A r s w _ [] h hgrounded
    ⟨fun u uth hu => ?_, fun u v uth vth i hu hv howns hkeeps => ?_, fun n u hu => ?_,
      fun u uth hu hs => ?_, fun i p hp hactive => ?_, fun n k hk hpending => ?_⟩
    ⟨[], (List.append_nil _).symm⟩ (fun _ => rfl) (fun _ => le_refl _) (List.append_nil _).symm
    (fun e he => by contradiction) fun n e he => by contradiction
  · rcases hcases hu with ⟨rfl, rfl⟩ | ⟨-, hu⟩
    · refine ⟨Nat.lt_succ_self _, fun i hi => absurd hi (hfree i),
        fun i o hi => absurd (keeps_owned hi) (hfree i), fun i o hi => by contradiction,
        fun i o huses => absurd (Or.inl rfl) huses.1, fun g hg => by contradiction,
        fun i hi => by contradiction, fun hloaded => by contradiction,
        fun i o hi => absurd (keeps_owned hi) (hfree i), rfl, rfl, rfl⟩
    · obtain ⟨hlt, hcrewed⟩ := h.manned.crewed u uth hu
      exact ⟨Nat.lt_succ_of_lt hlt, hcrewed.same rfl rfl fun _ => le_refl _⟩
  · rcases hcases hu with ⟨rfl, rfl⟩ | ⟨-, hu⟩
    · exact absurd (keeps_owned howns) (hfree i)
    · rcases hcases hv with ⟨rfl, rfl⟩ | ⟨-, hv⟩
      · exact absurd hkeeps (hfree i)
      · exact h.manned.apart u v uth vth i hu hv howns hkeeps
  · by_cases hn : n = name
    · subst hn
      obtain rfl : w.next = u := by simpa using hu
      exact ⟨Thread.search n, update_self .., rfl, Or.inl rfl⟩
    · obtain ⟨uth, huth, huname, hs⟩ :=
        h.manned.sought n u (by simpa [World.set, update_of_ne hn] using hu)
      exact ⟨uth, hother huth, huname, hs⟩
  · rcases hcases hu with ⟨rfl, rfl⟩ | ⟨-, hold⟩
    · exact update_self ..
    · have hslot := h.manned.searches u uth hold hs
      have hn : uth.name ≠ name := by
        rintro rfl
        exact hnone u uth hslot hold
      exact (update_of_ne hn _ _).trans hslot
  · have hn : p.name ≠ name := by
      rintro rfl
      rcases h.manned.located i p hp hactive with hmap | ⟨u, uth, hu, huname, huframe, -⟩
      · exact hgone i p hmap hp
      · have hslot := h.manned.searches u uth hu (Or.inr ⟨i, huframe⟩)
        rw [huname] at hslot
        exact hnone u uth hslot hu
    refine (h.manned.located i p hp hactive).imp (fun hmap => (update_of_ne hn _ _).trans hmap)
      fun ⟨u, uth, hu, hrest⟩ => ⟨u, uth, hother hu, hrest⟩
  · obtain ⟨u, uth, hu, huname, hs⟩ := h.manned.guarded n k hk hpending
    exact ⟨u, uth, hother hu, huname, hs.same rfl⟩

end Swiftacular.DeviceSearches
