import Swiftacular.DeviceJournal
import Swiftacular.ShownVersions

/-!
The Objects a Device's requests keep, as its steps go on. The engine moves, a
search looks at the store as it is shown, and the store is shown one change
more; an Object that can be read stays, through all of it, the version it is.
-/
namespace Swiftacular.CarriedObjects

open Function EntryStore EngineObjects Versions EngineRuns LiveObjects HeldEntries PreparedLog
  EngineMoves AnchoredObjects DeviceRuns DeviceEngine DeviceSteps DeviceSearches LogGrowth
  DeviceJournal ShownVersions
open DeviceWorld (Settled settled_unheld Searches)

variable {conf : Conf} {G : Goal → Prop} {A : Answer → Option View → Prop} {r : Record}
  {s u : EngineObjects.Store} {e e' e'' : Engine} {w w' : World} {id : ℕ}
  {o o' o'' : Object} {v v' v'' : Version}

/-! An Object that is kept, while others go on. -/

/-- An Object that can be read is still what it was. -/
structure Carried (r : Record) (id : ℕ) (e : Engine) (o : Object) (v : Version) (e' : Engine)
    (o' : Object) (v' : Version) : Prop where
  heap : e'.core.heap id = some o'
  legible : Legible o'
  anchored : Anchored r e' id o' v'
  name : o'.name = o.name
  ts : o'.ts = o.ts
  data : v'.data = v.data
  old : o.state = .old → o'.state = .old
  since : ∀ pos, Since r e.core.log o.name o.ts (fun x => x.data = v.data) pos →
    Since r e'.core.log o'.name o'.ts (fun x => x.data = v'.data) pos
  unretired : o.state = .old → ∀ n, Unretired id n e.core.log → Unretired id n e'.core.log

theorem Carried.trans (h : Carried r id e o v e' o' v') (h' : Carried r id e' o' v' e'' o'' v'') :
    Carried r id e o v e'' o'' v'' :=
  ⟨h'.heap, h'.legible, h'.anchored, h'.name.trans h.name, h'.ts.trans h.ts, h'.data.trans h.data,
    fun hold => h'.old (h.old hold), fun pos hs => h'.since pos (h.since pos hs),
    fun hold n hn => h'.unretired (h.old hold) n (h.unretired hold n hn)⟩

/-- Nothing prepared, and the Object as it was. -/
theorem carried_still (ho' : e'.core.heap id = some o) (hleg : Legible o)
    (ha : Anchored r e id o v) (hlog : e'.core.log = e.core.log) (hhanded : e.handed ≤ e'.handed) :
    Carried r id e o v e' o v := by
  refine ⟨ho', hleg, anchored_still ha hlog hhanded, rfl, rfl, rfl, fun hold => hold,
    fun pos hs => ?_, fun _ n hn => ?_⟩
  · rwa [hlog]
  · rwa [hlog]

theorem carried_move {m : Move} (hg : EngineMoves.Grounded r s e) (hm : Sparing r id e m)
    (hstep : move e m = some e') (ho : e.core.heap id = some o) (hleg : Legible o)
    (ha : Anchored r e id o v) : ∃ o' v', Carried r id e o v e' o' v' := by
  obtain ⟨o', v', ho', hleg', ha', hfollows⟩ := anchored_move hg hm hstep ho hleg ha
  refine ⟨o', v', ho', hleg', ha', hfollows.name, hfollows.ts, hfollows.data, fun hold => ?_,
    fun pos hs => ?_, fun hold n hn => ?_⟩
  · rcases hfollows.state with hsame | ⟨hactive, -⟩
    · exact hsame.trans hold
    · rw [hactive] at hold
      contradiction
  · rw [hfollows.name, hfollows.ts, hfollows.data]
    rcases move_extends hg.sound hm.1 hstep with ⟨hlog, -⟩ | ⟨t, hlog, -, -, hord, -⟩
    · rwa [hlog]
    · rw [hlog]
      exact since_concat hs hord fun x y _ _ hx hdata _ => hdata.trans hx
  · have hnew : ∀ {t}, e'.core.log = e.core.log ++ [t] → ¬ Retires id t →
        Unretired id n e'.core.log := by
      intro t hlog hnot x hx
      rw [hlog, List.drop_append] at hx
      rcases List.mem_append.mp hx with hx | hx
      · exact hn x hx
      · exact List.mem_singleton.mp (List.mem_of_mem_drop hx) ▸ hnot
    cases move_meanwhile hg hm hstep ho hleg with
    | still hlog => rwa [hlog]
    | other t hlog _ _ _ hconcerns =>
      refine hnew hlog ?_
      rintro ⟨next, name, ts, hnote⟩
      rw [hnote] at hconcerns
      exact hconcerns (Or.inr rfl)
    | posted name ops blob _ hlog _ hactive =>
      rw [hactive] at hold
      contradiction
    | retired name ops next ts hlog _ _ hactive =>
      rw [hactive] at hold
      contradiction

/-! The steps of a Device, as far as the engine goes. -/

/-- The engine with what the store was handed whole. -/
abbrev whole (w : World) (u : EngineObjects.Store) : Engine := ⟨w.core, w.handed, u⟩

/-- Every Object that can be read and is still there is what it was. -/
def Carries (r : Record) (e e' : Engine) : Prop :=
  ∀ id o v, e.core.heap id = some o → Legible o → Anchored r e id o v →
    e'.core.heap id ≠ none → ∃ o' v', Carried r id e o v e' o' v'

theorem reaches_carries {c : Core} (h : Anchorage r s e)
    (hreaches : Reaches r {id | c.heap id ≠ none} e c) :
    Anchorage r s { e with core := c } ∧ Carries r e { e with core := c } := by
  refine hreaches.keeps (I := fun e' => Anchorage r s e' ∧ ∀ id o v, e.core.heap id = some o →
    Legible o → Anchored r e id o v → c.heap id ≠ none → ∃ o' v', Carried r id e o v e' o' v')
    ⟨h, fun id o v ho hleg ha _ => ⟨o, v, carried_still ho hleg ha rfl (le_refl _)⟩⟩ ?_
  rintro e₁ e₂ m ⟨h₁, hcarries⟩ hm hkept hstep
  refine ⟨anchorage_move h₁ hm hstep, fun id o v ho hleg ha halive => ?_⟩
  obtain ⟨o', v', hcarried⟩ := hcarries id o v ho hleg ha halive
  obtain ⟨o'', v'', hmore⟩ := carried_move h₁.grounded ⟨hm, hkept id halive⟩ hstep hcarried.heap
    hcarried.legible hcarried.anchored
  exact ⟨o'', v'', hcarried.trans hmore⟩

/-- A search: what it finds is handed over, as nothing of its name is queued. -/
theorem opened_carries {t : ℕ} {th : Thread} (h : Running conf G A r s w)
    (h' : Running conf G A r s w') (hf : Anchorage r s (whole w u)) (hs : Spaces w w')
    (hth : w.threads t = some th) (hnative : th.native = some (.open id))
    (hopen : w'.core = (w.core.open w.store id).1) :
    Anchorage r s ⟨w'.core, w.handed, u⟩ ∧ Carries r (whole w u) ⟨w'.core, w.handed, u⟩ := by
  have hcrewed := (h.manned.crewed t th hth).2
  obtain ⟨hframe, -, -, p, hp, -, hpre⟩ := searching_of_open hcrewed hnative
  have hcore : w'.core =
      { w.core with heap := update w.core.heap id (some (p.open w.store).1) } := by
    rw [hopen]
    simp only [Core.open, hp]
  have hlog : w'.core.log = w.core.log := by rw [hcore]
  have hheap : w'.core.heap = update w.core.heap id (some (p.open w.store).1) := by rw [hcore]
  have hstands := h'.grounded.engaged.stands
  rw [hlog] at hstands
  have hg' : EngineMoves.Grounded r s ⟨w'.core, w.handed, u⟩ :=
    grounded_unprepared (e := whole w u) hf.grounded hlog hstands hs.apart
  have hold : ∀ i q, w.core.heap i = some q → Legible q → w'.core.heap i = some q := by
    intro i q hq hleg
    rw [hheap]
    by_cases hi : i = id
    · subst hi
      obtain rfl := Option.some.inj (hp.symm.trans hq)
      rcases hleg with hl | hl <;> simp [hpre] at hl
    · rw [update_of_ne hi, hq]
  refine ⟨⟨hg', fun i q hq hleg => ?_⟩, fun i q x hq hleg ha _ =>
    ⟨q, x, carried_still (hold i q hq hleg) hleg ha hlog (le_refl _)⟩⟩
  have hq' : update w.core.heap id (some (p.open w.store).1) i = some q := hheap ▸ hq
  rcases heap_update hq' with ⟨rfl, heq⟩ | ⟨-, hq'⟩
  swap
  · obtain ⟨x, hx⟩ := hf.anchored i q hq' hleg
    exact ⟨x, anchored_still hx hlog (le_refl _)⟩
  have heq := Option.some.inj heq
  have hname : q.name = th.name := by
    obtain ⟨p', hp', hpname⟩ := hcrewed.alive i (Or.inr (Or.inr (Or.inl (by rw [hframe]; rfl))))
    obtain rfl := Option.some.inj (hp.symm.trans hp')
    rw [← heq, open_name, hpname]
  have hactive : q.state = .active := by
    rcases open_state w.store p with hsame | ⟨-, hstate⟩
    · rw [← heq, hsame] at hleg
      rcases hleg with hl | hl <;> simp [hpre] at hl
    · rw [heq] at hstate
      rcases hleg with hl | hl
      · exact hl
      · rcases hstate with hst | hst | hst <;> simp [hl] at hst
  have hsettled : Settled conf w th.name := settled_unheld h.grounded h.manned
    (sought_unheld h.manned hth (Or.inr ⟨i, hframe⟩) (by simp [hnative]))
  refine anchored_found hg' hq hactive fun x hx htouch => ?_
  obtain ⟨k, hk⟩ := List.getElem?_of_mem hx
  rw [Engine.queue, List.getElem?_drop] at hk
  dsimp only at hk
  rw [hlog] at hk
  have hlt := hsettled (w.handed + k) ⟨x, hk, hname ▸ htouch⟩
  have hle := h.grounded.durable (conf.collection th.name)
  omega

theorem footing_whole (h : Running conf G A r s w) (ha : Anchorage r s (whole w u)) :
    Footing r s w u := by
  obtain ⟨u', hu', hshown⟩ := h.grounded.shown.store
  obtain rfl := Option.some.inj (hu'.symm.trans ha.grounded.sound.stored)
  exact ⟨ha, h.grounded.engaged.kept.confined, h.grounded.shown.part, hshown⟩

/-- The store is shown one change more, the last of a transaction or not. -/
theorem handed_carries (hf : Footing r s w u) (h : w.hand = some w') :
    ∃ u', Anchorage r s (whole w' u') ∧ Carries r (whole w u) (whole w' u') := by
  have hsame : Carries r (whole w u) (whole w u) := fun id o v ho hleg ha _ =>
    ⟨o, v, carried_still ho hleg ha rfl (le_refl _)⟩
  unfold World.hand at h
  cases ht : w.core.log[w.handed]? with
  | none => simp [ht] at h
  | some t =>
    rw [ht] at h
    dsimp only at h
    cases hop : t.ops[w.part]? with
    | some op =>
      rw [hop] at h
      obtain ⟨store, -, rfl⟩ := Option.map_eq_some_iff.mp h
      exact ⟨u, hf.anchorage, hsame⟩
    | none =>
      rw [hop] at h
      obtain rfl := Option.some.inj h
      have hshown := hf.shown
      rw [ht, Option.map_some, Option.getD_some,
        List.take_of_length_le (List.getElem?_eq_none_iff.mp hop)] at hshown
      have hstep : move (whole w u) .hand = some ⟨w.core, w.handed + 1, w.store⟩ := by
        have hqueue : (whole w u).queue = t :: w.core.log.drop (w.handed + 1) := by
          have hlt := (List.getElem?_eq_some_iff.mp ht).1
          rw [← Option.some.inj ((List.getElem?_eq_getElem hlt).symm.trans ht)]
          exact List.drop_eq_getElem_cons hlt
        simp only [move, hand, hqueue, hshown, Option.map_some]
      have hallowed : Allowed r (whole w u) .hand := trivial
      refine ⟨w.store, anchorage_move hf.anchorage hallowed hstep, fun id o v ho hleg ha _ => ?_⟩
      exact carried_move hf.anchorage.grounded ⟨hallowed, fun heq => by contradiction⟩ hstep ho
        hleg ha

theorem footing_step (h : Running conf G A r s w) (h' : Running conf G A r s w')
    (hgrows : Grows w w') (hs : Spaces w w') (hf : Footing r s w u) :
    ∃ u', Footing r s w' u' ∧ Carries r (whole w u) (whole w' u') := by
  rcases hgrows.shown with hsame | hhand
  · have hcore : Anchorage r s ⟨w'.core, w.handed, u⟩ ∧
        Carries r (whole w u) ⟨w'.core, w.handed, u⟩ := by
      rcases reaches_step (e := whole w u) h' hgrows hs hf.anchorage.grounded.apart rfl with
        hreaches | ⟨t, th, id, hth, hnative, hopen⟩
      · exact reaches_carries hf.anchorage hreaches
      · exact opened_carries h h' hf.anchorage hs hth hnative hopen
    have hhanded : w'.handed = w.handed := congrArg Prod.fst hsame
    rw [← hhanded] at hcore
    exact ⟨u, footing_whole h' hcore.1, hcore.2⟩
  · obtain ⟨u', ha', hcarries⟩ := handed_carries hf hhand
    exact ⟨u', footing_whole h' ha', hcarries⟩

end Swiftacular.CarriedObjects
