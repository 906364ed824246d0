import Swiftacular.EngineMoves

/-!
Where an Object that can be read is, at every place in the log. From some place
on its name is held by its own version or by a newer one; a retired one has its
version in the temporary space from the place of the put that retired it on.
The place where its metadata is no later than its latest transaction.
-/
namespace Swiftacular.AnchoredObjects

open Function EntryStore EngineObjects Versions EngineRuns LiveObjects PreparedLog HeldEntries
  EngineMoves StepRuns

/-- From a place in the log on the name is held by a version of this timestamp
with a property, or by a newer one. -/
def Since (r : Record) (log : List Txn) (name : Name) (ts : ℕ) (P : Version → Prop) (pos : ℕ) :
    Prop :=
  pos ≤ log.length ∧ ∀ k, pos ≤ k → ∃ w, (r.after (log.take k)).held name = some w ∧
    (w.stat.ts = ts ∧ P w ∨ ts < w.stat.ts)

/-- What holds a name stays, but for a metadata write in place, or gives way to
something newer. -/
theorem held_kept {r : Record} {t : Txn} (h : Orderly r t) {name : Name} {v : Version}
    (hv : r.held name = some v) : ∃ u, (r.apply t.note).held name = some u ∧
      (u.stat = v.stat ∧ u.data = v.data ∧ (¬ Rewrites name t → u.header = v.header) ∨
        v.stat.ts < u.stat.ts) := by
  by_cases ht : Touches name t
  swap
  · exact ⟨v, (held_untouched r ht).trans hv, Or.inl ⟨rfl, rfl, fun _ => rfl⟩⟩
  unfold Touches at ht
  unfold Orderly at h
  cases hnote : t.note with
  | write id stat data =>
    rw [hnote] at ht
    contradiction
  | remove id =>
    rw [hnote] at ht
    contradiction
  | header id stat blob =>
    rw [hnote] at ht
    obtain ⟨hactive, rfl⟩ := ht
    have hrewrites : Rewrites stat.name t := by
      unfold Rewrites
      rw [hnote]
      exact ⟨hactive, rfl⟩
    refine ⟨{ v with header := blob }, ?_, Or.inl ⟨rfl, rfl, fun hnot => absurd hrewrites hnot⟩⟩
    simp only [Record.apply, hactive, if_true, hv, Option.map_some, Record.setHeld_self]
  | put i j n ts =>
    rw [hnote] at ht h
    dsimp only at ht h
    subst ht
    obtain ⟨⟨w, hw⟩, hj, hnewer⟩ := h
    refine ⟨w.placed ts, ?_, Or.inr (hnewer v hv)⟩
    rw [Record.apply_put hw hj, Record.setHeld_self]

variable {r : Record} {log : List Txn} {name : Name} {ts pos : ℕ} {P : Version → Prop}

theorem Since.held (h : Since r log name ts P pos) : ∃ w, (r.after log).held name = some w ∧
    (w.stat.ts = ts ∧ P w ∨ ts < w.stat.ts) := by
  have hlast := h.2 log.length h.1
  rwa [List.take_length] at hlast

/-- A transaction more keeps it so, if it keeps the property. -/
theorem since_concat (h : Since r log name ts P pos) {t : Txn} (hord : Orderly (r.after log) t)
    (hP : ∀ w u, (r.after log).held name = some w → w.stat.ts = ts → P w → u.data = w.data →
      (¬ Rewrites name t → u.header = w.header) → P u) :
    Since r (log ++ [t]) name ts P pos := by
  refine ⟨by rw [List.length_append]; exact h.1.trans (Nat.le_add_right ..), fun k hk => ?_⟩
  rcases @take_concat log t k with ⟨-, htake⟩ | ⟨-, htake⟩
  · rw [htake]
    exact h.2 k hk
  · rw [htake, Record.after_concat]
    obtain ⟨w, hw, hcase⟩ := h.held
    obtain ⟨u, hu, hkept⟩ := held_kept hord hw
    refine ⟨u, hu, ?_⟩
    rcases hkept with ⟨hstat, hdata, hheader⟩ | hnewer
    · rw [hstat]
      exact hcase.imp_left fun ⟨hts, hw'⟩ => ⟨hts, hP w u hw hts hw' hdata hheader⟩
    · rcases hcase with ⟨rfl, -⟩ | hlt
      · exact Or.inr hnewer
      · exact Or.inr (hlt.trans hnewer)

/-- At the end of the log. -/
theorem since_last {v : Version} (hv : (r.after log).held name = some v) (hts : v.stat.ts = ts)
    (hP : P v) : Since r log name ts P log.length :=
  ⟨le_refl _, fun k hk => ⟨v, by rw [List.take_of_length_le hk, hv], Or.inl ⟨hts, hP⟩⟩⟩

/-- The put that placed an Object. -/
def Places (id : ℕ) (o : Object) (t : Txn) : Prop := ∃ prev, t.note = .put id prev o.name o.ts

/-- The put that retired an Object. -/
def Retires (id : ℕ) (t : Txn) : Prop := ∃ next name ts, t.note = .put next id name ts

instance (id : ℕ) (t : Txn) : Decidable (Retires id t) :=
  match hnote : t.note with
  | .put _ prev _ _ => decidable_of_iff (prev = id) (by unfold Retires; rw [hnote]; simp)
  | .write _ _ _ | .header _ _ _ | .remove _ => isFalse (by unfold Retires; rw [hnote]; simp)

/-- The version of an Object that can be read. -/
def own (rec : Record) (id : ℕ) (o : Object) : Option Version :=
  if o.state = .old then rec.temp id else rec.held o.name

/-- A metadata blob is handed over, or no later than a transaction. -/
def HeaderBy (r : Record) (e : Engine) (o : Object) (blob : Bytes) (done : Option ℕ) : Prop :=
  ∃ pos, Since r e.core.log o.name o.ts (fun w => w.header = blob) pos ∧
    (pos ≤ e.handed ∨ ∃ d, done = some d ∧ pos ≤ d + 1)

/-- An Object's bytes are handed over, or come with the put that placed it. -/
def DataBy (r : Record) (e : Engine) (id : ℕ) (o : Object) (data : Bytes) : Prop :=
  ∃ pos, Since r e.core.log o.name o.ts (fun w => w.data = data) pos ∧
    (pos ≤ e.handed ∨ ∃ p t, pos = p + 1 ∧ e.core.log[p]? = some t ∧ Places id o t)

/-- An Object that can be read, and its version. -/
structure Anchored (r : Record) (e : Engine) (id : ℕ) (o : Object) (v : Version) : Prop where
  own : own (Engine.record r e) id o = some v
  stat : v.stat = o.toStat
  data : DataBy r e id o v.data
  header : HeaderBy r e o v.header o.done
  retired : o.state = .old → ∃ p t, e.core.log[p]? = some t ∧ Retires id t ∧
    (∃ w, (r.after (e.core.log.take p)).held o.name = some w ∧ w.stat.ts = o.ts) ∧
    (∀ k u, p < k → e.core.log[k]? = some u → Avoids o u) ∧
    ∀ k, p < k → (r.after (e.core.log.take k)).temp id = some v ∧
      ∃ w, (r.after (e.core.log.take k)).held o.name = some w ∧ o.ts < w.stat.ts

variable {s : Store} {e e' : Engine} {id : ℕ} {o : Object} {v : Version}

/-- What a retired Object's name is held by is newer. -/
theorem Anchored.overtaken (h : Anchored r e id o v) (hold : o.state = .old) :
    ∃ w, (Engine.record r e).held o.name = some w ∧ o.ts < w.stat.ts := by
  obtain ⟨p, t, hp, -, -, -, hall⟩ := h.retired hold
  have hlt := (List.getElem?_eq_some_iff.mp hp).1
  have hlast := (hall e.core.log.length hlt).2
  rwa [List.take_length] at hlast

theorem dataBy_concat {data : Bytes} (h : DataBy r e id o data) {t : Txn}
    (hlog : e'.core.log = e.core.log ++ [t]) (hhanded : e'.handed = e.handed)
    (hord : Orderly (Engine.record r e) t) : DataBy r e' id o data := by
  obtain ⟨pos, hsince, hpos⟩ := h
  refine ⟨pos, ?_, ?_⟩
  · rw [hlog]
    exact since_concat hsince hord fun w u _ _ hw hdata _ => hdata.trans hw
  · rw [hhanded]
    refine hpos.imp_right fun ⟨p, u, hp, hu, hplaces⟩ => ⟨p, u, hp, ?_, hplaces⟩
    have hlt := (List.getElem?_eq_some_iff.mp hu).1
    rw [hlog, List.getElem?_append_left hlt]
    exact hu

theorem headerBy_concat {blob : Bytes} {done : Option ℕ} (h : HeaderBy r e o blob done) {t : Txn}
    (hlog : e'.core.log = e.core.log ++ [t]) (hhanded : e'.handed = e.handed)
    (hord : Orderly (Engine.record r e) t)
    (hrewrites : Rewrites o.name t →
      ∃ w, (Engine.record r e).held o.name = some w ∧ o.ts < w.stat.ts) :
    HeaderBy r e' o blob done := by
  obtain ⟨pos, hsince, hpos⟩ := h
  refine ⟨pos, ?_, by rw [hhanded]; exact hpos⟩
  rw [hlog]
  refine since_concat hsince hord fun w u hw hts hP _ hkeep => ?_
  have hnot : ¬ Rewrites o.name t := by
    intro hrew
    obtain ⟨w', hw', hlt⟩ := hrewrites hrew
    obtain rfl := Option.some.inj (hw.symm.trans hw')
    omega
  exact (hkeep hnot).trans hP

theorem headerBy_still {blob : Bytes} {done : Option ℕ} (h : HeaderBy r e o blob done)
    (hlog : e'.core.log = e.core.log) (hhanded : e.handed ≤ e'.handed) :
    HeaderBy r e' o blob done := by
  obtain ⟨pos, hsince, hpos⟩ := h
  refine ⟨pos, by rw [hlog]; exact hsince, hpos.imp_left fun hle => hle.trans hhanded⟩

theorem record_concat {t : Txn} (hlog : e'.core.log = e.core.log ++ [t]) :
    Engine.record r e' = (Engine.record r e).apply t.note := by
  unfold Engine.record
  rw [hlog, Record.after_concat]

theorem own_active {rec : Record} (h : o.state = .active) : own rec id o = rec.held o.name :=
  if_neg (by simp [h])

theorem own_old {rec : Record} (h : o.state = .old) : own rec id o = rec.temp id := if_pos h

/-- A transaction of other Objects. -/
theorem anchored_other (hg' : Grounded r s e') (hleg : Legible o)
    (h : Anchored r e id o v) {t : Txn} (hlog : e'.core.log = e.core.log ++ [t])
    (hhanded : e'.handed = e.handed) (hord : Orderly (Engine.record r e) t)
    (ho : e'.core.heap id = some o) (hconcerns : ¬ Concerns id t.note)
    (hrewrites : Rewrites o.name t → o.state = .old) (havoids : o.state = .old → Avoids o t) :
    Anchored r e' id o v ∧
      ∀ done, HeaderBy r e o v.header done → HeaderBy r e' o v.header done := by
  have hrecord := @record_concat r e e' t hlog
  have hheader : ∀ done, HeaderBy r e o v.header done → HeaderBy r e' o v.header done :=
    fun done hby => headerBy_concat hby hlog hhanded hord fun hrew => h.overtaken (hrewrites hrew)
  refine ⟨⟨?_, h.stat, dataBy_concat h.data hlog hhanded hord, hheader _ h.header, fun hold => ?_⟩,
    hheader⟩
  · rw [hrecord]
    rcases hleg with hactive | hold
    · have hheld := h.own
      rw [own_active hactive] at hheld ⊢
      obtain ⟨u, hu, hkept⟩ := held_kept hord hheld
      obtain ⟨v', hv', hstat⟩ := (hg'.sound.stands.drafts id o ho).holding hactive
      rw [hrecord, hu] at hv'
      obtain rfl := Option.some.inj hv'
      rcases hkept with ⟨-, hdata, hkeep⟩ | hnewer
      · -- it holds its name still, and nothing of it was written
        have hnot : ¬ Rewrites o.name t := by
          intro hrew
          have hold := hrewrites hrew
          rw [hactive] at hold
          contradiction
        rw [hu]
        congr 1
        cases u
        cases v
        simp only [Version.mk.injEq]
        exact ⟨hstat.trans h.stat.symm, hdata, hkeep hnot⟩
      · have hsame : u.stat.ts = v.stat.ts := by rw [hstat, h.stat]
        omega
    · have htemp := h.own
      rw [own_old hold] at htemp ⊢
      rw [temp_unconcerned _ hconcerns, htemp]
  · obtain ⟨p, u, hp, hretires, hholder, hclear, hall⟩ := h.retired hold
    have hlt := (List.getElem?_eq_some_iff.mp hp).1
    refine ⟨p, u, by rw [hlog, List.getElem?_append_left hlt]; exact hp, hretires, ?_,
      fun k x hk hx => ?_, fun k hk => ?_⟩
    · rw [hlog, List.take_append_of_le_length hlt.le]
      exact hholder
    · rw [hlog] at hx
      rcases getElem?_concat_cases hx with ⟨hx, -⟩ | ⟨rfl, -⟩
      · exact hclear k x hk hx
      · exact havoids hold
    rw [hlog]
    rcases @take_concat e.core.log t k with ⟨-, htake⟩ | ⟨-, htake⟩
    · rw [htake]
      exact hall k hk
    · rw [htake, Record.after_concat]
      obtain ⟨htemp, w, hw, hnewer⟩ := hall e.core.log.length hlt
      rw [List.take_length] at htemp hw
      obtain ⟨u', hu', hkept⟩ := held_kept hord hw
      refine ⟨by rw [temp_unconcerned _ hconcerns, htemp], u', hu', ?_⟩
      rcases hkept with ⟨hstat, -⟩ | hlater
      · rw [hstat]
        exact hnewer
      · exact hnewer.trans hlater

/-- A metadata write of the Object. -/
theorem anchored_posted (h : Anchored r e id o v) {t : Txn} {blob : Bytes}
    (hlog : e'.core.log = e.core.log ++ [t]) (hnote : t.note = .header id o.toStat blob)
    (hhanded : e'.handed = e.handed) (hactive : o.state = .active) :
    Anchored r e' id { o with done := some e.core.log.length } { v with header := blob } := by
  have hheld := h.own
  rw [own_active hactive] at hheld
  have hrecord := @record_concat r e e' t hlog
  have hord : Orderly (Engine.record r e) t := by
    unfold Orderly
    rw [hnote]
    exact fun _ => ⟨v, hheld⟩
  have hheld' : (Engine.record r e').held o.name = some { v with header := blob } := by
    rw [hrecord, hnote]
    simp only [Record.apply, hactive, if_true, hheld, Option.map_some, Record.setHeld_self]
  refine ⟨(own_active hactive).trans hheld', h.stat, dataBy_concat h.data hlog hhanded hord, ?_,
    fun hold => ?_⟩
  · have hlen : e'.core.log.length = e.core.log.length + 1 := by
      rw [hlog, List.length_append, List.length_singleton]
    exact ⟨e'.core.log.length, since_last hheld' (congrArg Stat.ts h.stat) rfl,
      Or.inr ⟨e.core.log.length, rfl, hlen.le⟩⟩
  · have hold : o.state = .old := hold
    rw [hactive] at hold
    contradiction

/-- The put that retires the Object. -/
theorem anchored_retired (h : Anchored r e id o v) {t : Txn} {next ts : ℕ}
    (hlog : e'.core.log = e.core.log ++ [t]) (hnote : t.note = .put next id o.name ts)
    (hhanded : e'.handed = e.handed) (hord : Orderly (Engine.record r e) t)
    (hactive : o.state = .active) (hnewer : o.ts < ts) :
    Anchored r e' id { o with state := .old } v.retired ∧
      ∀ done, HeaderBy r e o v.header done →
        HeaderBy r e' { o with state := .old } v.header done := by
  have hheld := h.own
  rw [own_active hactive] at hheld
  have hrecord := @record_concat r e e' t hlog
  have hlen : e'.core.log.length = e.core.log.length + 1 := by
    rw [hlog, List.length_append, List.length_singleton]
  have hts : v.stat.ts = o.ts := congrArg Stat.ts h.stat
  have hheader : ∀ done, HeaderBy r e o v.header done →
      HeaderBy r e' { o with state := .old } v.header done := by
    intro done hby
    refine headerBy_concat (o := o) hby hlog hhanded hord fun hrew => ?_
    unfold Rewrites at hrew
    rw [hnote] at hrew
    contradiction
  have hput := hord
  unfold Orderly at hput
  rw [hnote] at hput
  obtain ⟨⟨w, hw⟩, hnone, -⟩ := hput
  have hne : id ≠ next := by
    rintro rfl
    rw [hnone] at hw
    contradiction
  have happly : Engine.record r e' =
      (((Engine.record r e).setTemp id (some v.retired)).setTemp next none).setHeld o.name
        (some (w.placed ts)) := by
    rw [hrecord, hnote, Record.apply_put hw hnone, hheld, Option.map_some]
  have htemp : (Engine.record r e').temp id = some v.retired := by
    rw [happly, Record.setHeld_temp, Record.setTemp_of_ne _ _ hne, Record.setTemp_self]
  have hplaced : (Engine.record r e').held o.name = some (w.placed ts) := by
    rw [happly, Record.setHeld_self]
  refine ⟨⟨htemp, ?_, dataBy_concat h.data hlog hhanded hord, hheader _ h.header, fun _ => ?_⟩,
    hheader⟩
  · simp only [Version.retired, h.stat]
  · refine ⟨e.core.log.length, t, by rw [hlog, List.getElem?_concat_length],
      ⟨next, o.name, ts, hnote⟩, ⟨v, ?_, hts⟩, fun k u hk hu => ?_, fun k hk => ?_⟩
    · rw [hlog, List.take_left]
      exact hheld
    · have hlt := (List.getElem?_eq_some_iff.mp hu).1
      omega
    rw [List.take_of_length_le (by omega)]
    exact ⟨htemp, w.placed ts, hplaced, hnewer⟩

theorem anchored_still (h : Anchored r e id o v) (hlog : e'.core.log = e.core.log)
    (hhanded : e.handed ≤ e'.handed) : Anchored r e' id o v := by
  have hrecord : Engine.record r e' = Engine.record r e := congrArg r.after hlog
  refine ⟨by rw [hrecord]; exact h.own, h.stat, ?_, headerBy_still h.header hlog hhanded, ?_⟩
  · obtain ⟨pos, hsince, hpos⟩ := h.data
    refine ⟨pos, by rw [hlog]; exact hsince, ?_⟩
    rw [hlog]
    exact hpos.imp_left fun hle => hle.trans hhanded
  · rw [hlog]
    exact h.retired

/-- What stays of an Object that is kept: it may be retired, by a put that is
then queued, and its data is the same. So is its metadata where no move wrote
it, and what it was no later than. -/
structure Follows (r : Record) (e : Engine) (o : Object) (v : Version) (m : Move) (e' : Engine)
    (o' : Object) (v' : Version) : Prop where
  name : o'.name = o.name
  ts : o'.ts = o.ts
  state : o'.state = o.state ∨
    o.state = .active ∧ o'.state = .old ∧ ∃ t ∈ e'.queue, Retires id t
  data : v'.data = v.data
  header : (o.state = .active ∧ ∃ blob, m = .call (.writeMetadata id blob)) ∨
    v'.header = v.header ∧ ∀ done, HeaderBy r e o v.header done → HeaderBy r e' o' v'.header done

theorem anchored_move {m : Move} (hg : Grounded r s e) (hm : Sparing r id e m)
    (hstep : move e m = some e') (ho : e.core.heap id = some o) (hleg : Legible o)
    (h : Anchored r e id o v) : ∃ o' v', e'.core.heap id = some o' ∧ Legible o' ∧
      Anchored r e' id o' v' ∧ @Follows id r e o v m e' o' v' := by
  have hg' := grounded_move hg hm.1 hstep
  cases move_meanwhile hg hm hstep ho hleg with
  | still hlog hhanded ho' =>
    exact ⟨o, v, ho', hleg, anchored_still h hlog hhanded, rfl, rfl, Or.inl rfl, rfl,
      Or.inr ⟨rfl, fun done hby => headerBy_still hby hlog hhanded⟩⟩
  | other t hlog hhanded hord ho' hconcerns hrewrites havoids =>
    obtain ⟨hanchored, hheader⟩ :=
      anchored_other hg' hleg h hlog hhanded hord ho' hconcerns hrewrites havoids
    exact ⟨o, v, ho', hleg, hanchored, rfl, rfl, Or.inl rfl, rfl, Or.inr ⟨rfl, hheader⟩⟩
  | posted name ops blob hmove hlog hhanded hactive ho' =>
    exact ⟨_, _, ho', Or.inl hactive, anchored_posted h hlog rfl hhanded hactive, rfl, rfl,
      Or.inl rfl, rfl, Or.inl ⟨hactive, blob, hmove⟩⟩
  | retired name ops next ts hlog hhanded hord hactive hnewer ho' =>
    obtain ⟨hanchored, hheader⟩ := anchored_retired h hlog rfl hhanded hord hactive hnewer
    have hqueued : ⟨name, ops, .put next id o.name ts⟩ ∈ e'.queue := by
      rw [Engine.queue, hlog, hhanded, List.drop_append_of_le_length hg.sound.handed_le]
      exact List.mem_append_right _ (List.mem_singleton_self _)
    exact ⟨_, _, ho', Or.inr rfl, hanchored, rfl, rfl,
      Or.inr ⟨hactive, rfl, _, hqueued, next, o.name, ts, rfl⟩, rfl, Or.inr ⟨rfl, hheader⟩⟩

/-- An Object found in the store, where nothing that is queued touches its name:
it is held by what it was held by when all else was handed over. -/
theorem anchored_found (hg : Grounded r s e) (ho : e.core.heap id = some o)
    (hactive : o.state = .active) (hqueue : ∀ t ∈ e.queue, ¬ Touches o.name t) :
    ∃ v, Anchored r e id o v := by
  obtain ⟨v, hv, hstat⟩ := (hg.sound.stands.drafts id o ho).holding hactive
  have hts := congrArg Stat.ts hstat
  have hsince : ∀ P : Version → Prop, P v → Since r e.core.log o.name o.ts P e.handed := by
    intro P hP
    refine ⟨hg.sound.handed_le, fun k hk => ⟨v, ?_, Or.inl ⟨hts, hP⟩⟩⟩
    have hsplit := Record.after_append r (e.core.log.take k) (e.core.log.drop k)
    rw [List.take_append_drop] at hsplit
    rw [← hv]
    refine Eq.symm ((congrArg (fun rec => rec.held o.name) hsplit).trans
      (held_quiet fun t ht => ?_))
    refine hqueue t (List.mem_of_mem_drop (i := k - e.handed) ?_)
    rw [Engine.queue, List.drop_drop, Nat.add_sub_cancel' hk]
    exact ht
  refine ⟨v, (own_active hactive).trans hv, hstat, ⟨_, hsince _ rfl, Or.inl (le_refl _)⟩,
    ⟨_, hsince _ rfl, Or.inl (le_refl _)⟩, fun hold => ?_⟩
  rw [hactive] at hold
  contradiction

/-- What is for another name does not touch a name. -/
theorem named_untouched {t : Txn} (h : Named t) (hne : t.name ≠ name) : ¬ Touches name t := by
  intro htouch
  have hn := h.2
  unfold Touches at htouch
  cases hnote : t.note with
  | write i stat data =>
    rw [hnote] at htouch
    contradiction
  | remove i =>
    rw [hnote] at htouch
    contradiction
  | header i stat blob =>
    rw [hnote] at htouch hn
    exact hne (hn.symm.trans htouch.2)
  | put i j n k =>
    rw [hnote] at htouch hn
    exact hne (hn.symm.trans htouch)

/-- An Object that comes to be read. -/
theorem anchored_new (hg' : Grounded r s e') (h : Arrives e e' id o)
    (ho : e'.core.heap id = some o) : ∃ v, Anchored r e' id o v := by
  cases h with
  | found hlog hhanded hactive hqueue =>
    refine anchored_found hg' ho hactive fun t ht => ?_
    have hmem : t ∈ e.queue := by
      rwa [Engine.queue, hlog, hhanded] at ht
    exact named_untouched (hg'.sound.named t (List.mem_of_mem_drop ht)) (hqueue t hmem)
  | placed name ops prev hlog hhanded hactive hdone =>
    obtain ⟨v, hv, hstat⟩ := (hg'.sound.stands.drafts id o ho).holding hactive
    have hts := congrArg Stat.ts hstat
    have hlen : e'.core.log.length = e.core.log.length + 1 := by
      rw [hlog, List.length_append, List.length_singleton]
    refine ⟨v, (own_active hactive).trans hv, hstat,
      ⟨_, since_last hv hts rfl, Or.inr ⟨e.core.log.length,
        ⟨name, ops, .put id prev o.name o.ts⟩, hlen, ?_, prev, rfl⟩⟩,
      ⟨_, since_last hv hts rfl, Or.inr ⟨e.core.log.length, hdone, hlen.le⟩⟩, fun hold => ?_⟩
    · rw [hlog, List.getElem?_concat_length]
    · rw [hactive] at hold
      contradiction

/-- Every Object that can be read, at every point of a run. -/
structure Anchorage (r : Record) (s : Store) (e : Engine) : Prop where
  grounded : Grounded r s e
  anchored : ∀ id o, e.core.heap id = some o → Legible o → ∃ v, Anchored r e id o v

theorem anchorage_start (h : Swept r s) (last : UInt64) : Anchorage r s (Engine.start s last) :=
  ⟨grounded_start h last, fun _ _ ho => by contradiction⟩

theorem anchorage_move {m : Move} (h : Anchorage r s e) (hm : Allowed r e m)
    (hstep : move e m = some e') : Anchorage r s e' := by
  have hg' := grounded_move h.grounded hm hstep
  refine ⟨hg', fun id o ho hleg => ?_⟩
  by_cases hold : ∃ p, e.core.heap id = some p ∧ Legible p
  · obtain ⟨p, hp, hpleg⟩ := hold
    obtain ⟨v, hv⟩ := h.anchored id p hp hpleg
    have hkeep : m ≠ .call (.release id) := by
      rintro rfl
      obtain rfl := Option.some.inj hstep
      have hgone : (e.core.release id).heap id = none := by
        simp only [Core.release, hp, update_self]
      rw [hgone] at ho
      contradiction
    obtain ⟨o', v', ho', -, hanchored, -⟩ := anchored_move h.grounded ⟨hm, hkeep⟩ hstep hp hpleg hv
    obtain rfl := Option.some.inj (ho.symm.trans ho')
    exact ⟨v', hanchored⟩
  · have hnew : ∀ p, e.core.heap id = some p → ¬ Legible p := fun p hp hpleg => hold ⟨p, hp, hpleg⟩
    exact anchored_new hg' (move_arrives hm hstep hnew ho hleg) ho

theorem Grounded.rendered (h : Grounded r s e) :
    Renders (r.after (e.core.log.take e.handed)) e.store :=
  h.sound.journal e.handed e.store h.sound.stored

/-- Something newer holds the name in the store. -/
def Overtaken (r : Record) (e : Engine) (name : Name) (ts : ℕ) : Prop :=
  ∃ w, (r.after (e.core.log.take e.handed)).held name = some w ∧ ts < w.stat.ts

theorem mem_queue {t : Txn} {k : ℕ} (hk : e.core.log[k]? = some t) (hle : e.handed ≤ k) :
    t ∈ e.queue := by
  refine List.mem_of_getElem? (i := k - e.handed) ?_
  rw [Engine.queue, List.getElem?_drop, Nat.add_sub_cancel' hle, hk]

theorem look_ordinary (h : Grounded r s e) (hsince : Since r e.core.log name ts P pos)
    (hpos : pos ≤ e.handed) : ∃ w, e.store (ordinary name) = some w.entry ∧
      (w.stat.ts = ts ∧ P w ∨ Overtaken r e name ts) := by
  obtain ⟨w, hw, hcase⟩ := hsince.2 e.handed hpos
  refine ⟨w, by rw [(Grounded.rendered h).holder, hw, Option.map_some], ?_⟩
  exact hcase.imp_right fun hlt => ⟨w, hw, hlt⟩

/-- The put that retired the Object is still queued. -/
def Retiring (e : Engine) (id : ℕ) : Prop := ∃ t ∈ e.queue, Retires id t

instance (e : Engine) (id : ℕ) : Decidable (Retiring e id) :=
  inferInstanceAs (Decidable (∃ t ∈ e.queue, Retires id t))

theorem look_temporary (h : Grounded r s e) (ha : Anchored r e id o v) (hold : o.state = .old)
    (hhanded : ¬ Retiring e id) : e.store (temporary o.name o.ts) = some v.entry := by
  obtain ⟨k, t, hk, hretires, -, -, hall⟩ := ha.retired hold
  have hlt : k < e.handed := by
    by_contra hlater
    exact hhanded ⟨t, mem_queue hk (by omega), hretires⟩
  have hentry := (Grounded.rendered h).version id v (hall e.handed hlt).1
  have hname : v.stat.name = o.name := congrArg Stat.name ha.stat
  have hts : v.stat.ts = o.ts := congrArg Stat.ts ha.stat
  rwa [hname, hts] at hentry

/-- What is ACTIVE is not overtaken. -/
theorem active_not_overtaken (h : Grounded r s e) (ha : Anchored r e id o v)
    (hactive : o.state = .active) : ¬ Overtaken r e o.name o.ts := by
  rintro ⟨w, hw, hlt⟩
  obtain ⟨u, hu, hle⟩ := held_mono h.orderly h.sound.handed_le hw
  have hown := ha.own
  rw [own_active hactive] at hown
  rw [List.take_length] at hu
  obtain rfl := Option.some.inj (hown.symm.trans hu)
  have hts : v.stat.ts = o.ts := congrArg Stat.ts ha.stat
  omega

end Swiftacular.AnchoredObjects
