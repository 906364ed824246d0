import Swiftacular.AnchoredObjects
import Swiftacular.DeviceRuns

/-!
What the store shows of a name while a transaction is shown in part. At the
address of the name it is the version that holds it or, from the first change
of a put on, nothing or a version of another timestamp. At the temporary
address of an Object that the put retires it is the Object's own version, from
the same change on.
-/
namespace Swiftacular.ShownVersions

open Function EntryStore EngineObjects Versions EngineRuns LiveObjects PreparedLog HeldEntries
  EngineMoves StepRuns AnchoredObjects DeviceRuns

/-! The changes of a put over a holder. -/

theorem handOver_eq {n p : Object} {name : Name} (hn : n.state = .inWrite) (hnn : n.name = name)
    (hp : p.state = .active) (hpn : p.name = name) (ts : ℕ) : Backend.handOverOps n p ts =
      [.rename (ordinary name) (temporary name p.ts),
        .setattrs (temporary name p.ts) ⟨p.ts, p.deleted, true⟩,
        .rename (temporary name n.ts) (ordinary name),
        .setattrs (ordinary name) ⟨ts, n.deleted, false⟩] := by
  subst hnn
  have hretire : Backend.retire p = { p with state := .old } := by
    simp only [Backend.retire, hp, if_true]
  have hold : address (Backend.retire p).toStat = temporary n.name p.ts := by
    rw [hretire, ← hpn]
    rfl
  have hfrom : address n.toStat = temporary n.name n.ts := writing_address (Or.inr hn)
  have hto : address (Backend.settle n ts).toStat = ordinary n.name := address_active rfl
  have hout : address p.toStat = ordinary n.name := by rw [address_active hp, hpn]
  unfold Backend.handOverOps
  simp only [hp, if_true, save, hold, hfrom, hto, hout, List.cons_append, List.nil_append]
  rw [hretire]
  rfl

/-- A put over a holder, from its first change on. -/
theorem shown_put {n p : Object} {name : Name} {ts part : ℕ} {u store : EngineObjects.Store}
    {x y : Entry Attrs} (hn : n.state = .inWrite) (hnn : n.name = name) (hp : p.state = .active)
    (hpn : p.name = name) (hx : u (ordinary name) = some x)
    (hy : u (temporary name n.ts) = some y)
    (h : applyAll u ((Backend.handOverOps n p ts).take (part + 1)) = some store) :
    n.ts ≠ p.ts ∧
      (∀ z, store (ordinary name) = some z →
        z.attrs = y.attrs ∨ ∃ k, z.attrs = some k ∧ k.ts = ts) ∧
      ∃ z, store (temporary name p.ts) = some z ∧ z.data = x.data ∧
        (z.attrs = x.attrs ∨ ∃ k, z.attrs = some k ∧ k.ts = p.ts) := by
  rw [handOver_eq hn hnn hp hpn] at h
  simp only [List.take_succ_cons, applyAll_cons] at h
  obtain ⟨u₁, h₁, h⟩ := Option.bind_eq_some_iff.mp h
  -- nothing is at the address the holder moves to
  obtain ⟨hnone, rfl⟩ : u (temporary name p.ts) = none ∧
      u₁ = update (update u (ordinary name) none) (temporary name p.ts) (some x) := by
    simp only [EntryStore.apply, hx] at h₁
    cases hq : u (temporary name p.ts) with
    | some q => simp [hq] at h₁
    | none => exact ⟨rfl, by simpa [hq] using h₁.symm⟩
  have hne : n.ts ≠ p.ts := by
    intro heq
    rw [heq, hnone] at hy
    contradiction
  have hord : ∀ (f : EngineObjects.Store) e, update f (temporary name p.ts) e (ordinary name) =
      f (ordinary name) := fun f e => update_of_ne (ordinary_ne_temporary _ _ _) _ _
  have htemp : ∀ (f : EngineObjects.Store) e, update f (ordinary name) e (temporary name p.ts) =
      f (temporary name p.ts) := fun f e => update_of_ne (temporary_ne_ordinary _ _ _) _ _
  have hapart : temporary name p.ts ≠ temporary name n.ts := by
    intro heq
    exact hne (temporary_inj.mp heq).2.symm
  refine ⟨hne, ?_⟩
  cases part with
  | zero =>
    obtain rfl := Option.some.inj h
    refine ⟨fun z hz => ?_, x, update_self .., rfl, Or.inl rfl⟩
    rw [hord, update_self] at hz
    contradiction
  | succ part =>
    simp only [List.take_succ_cons, applyAll_cons, EntryStore.apply, update_self, Option.map_some,
      Option.bind_some] at h
    cases part with
    | zero =>
      obtain rfl := Option.some.inj h
      refine ⟨fun z hz => ?_, _, update_self .., rfl, Or.inr ⟨_, rfl, rfl⟩⟩
      rw [hord, hord, update_self] at hz
      contradiction
    | succ part =>
      have hfrom : ∀ e e' : Option (Entry Attrs), update (update (update u (ordinary name) none)
          (temporary name p.ts) e) (temporary name p.ts) e' (temporary name n.ts) = some y := by
        intro e e'
        rw [update_of_ne hapart.symm, update_of_ne hapart.symm,
          update_of_ne (temporary_ne_ordinary _ _ _), hy]
      simp only [List.take_succ_cons, applyAll_cons, EntryStore.apply, hfrom, hord, update_self,
        Option.bind_some] at h
      cases part with
      | zero =>
        obtain rfl := Option.some.inj h
        refine ⟨fun z hz => ?_, { x with attrs := some ⟨p.ts, p.deleted, true⟩ }, ?_, rfl,
          Or.inr ⟨_, rfl, rfl⟩⟩
        · rw [update_self] at hz
          obtain rfl := Option.some.inj hz
          exact Or.inl rfl
        · rw [htemp, update_of_ne hapart, update_self]
      | succ part =>
        simp only [List.take_succ_cons, List.take_nil, applyAll_cons, applyAll_nil,
          EntryStore.apply, update_self, Option.map_some, Option.bind_some] at h
        obtain rfl := Option.some.inj h
        refine ⟨fun z hz => ?_, { x with attrs := some ⟨p.ts, p.deleted, true⟩ }, ?_, rfl,
          Or.inr ⟨_, rfl, rfl⟩⟩
        · rw [update_self] at hz
          obtain rfl := Option.some.inj hz
          exact Or.inr ⟨_, rfl, rfl⟩
        · rw [htemp, htemp, update_of_ne hapart, update_self]

/-- How far into the log the store shows any change. -/
def reach (w : World) : ℕ := if w.part = 0 then w.handed else w.handed + 1

/-- The engine with what the store was handed whole, and the store as it is shown. -/
structure Footing (r : Record) (s : EngineObjects.Store) (w : World) (u : EngineObjects.Store) :
    Prop where
  anchorage : Anchorage r s ⟨w.core, w.handed, u⟩
  confined : ∀ t ∈ w.core.log, Confined t
  part : w.handed = w.core.log.length → w.part = 0
  shown : applyAll u (((w.core.log[w.handed]?.map Txn.ops).getD []).take w.part) = some w.store

variable {r : Record} {s u : EngineObjects.Store} {w : World} {id : ℕ} {o : Object} {v h₀ : Version}
  {name : Name}

theorem Footing.renders (h : Footing r s w u) :
    Renders (r.after (w.core.log.take w.handed)) u := Grounded.rendered h.anchorage.grounded

/-- The transaction shown in part, if there is one. -/
theorem shown_cases (h : Footing r s w u) :
    w.part = 0 ∧ w.store = u ∧ reach w = w.handed ∨
      ∃ part t, w.part = part + 1 ∧ w.core.log[w.handed]? = some t ∧
        applyAll u (t.ops.take (part + 1)) = some w.store ∧ reach w = w.handed + 1 ∧
        w.core.log.take (reach w) = w.core.log.take w.handed ++ [t] := by
  have hshown := h.shown
  cases hpart : w.part with
  | zero =>
    rw [hpart, List.take_zero] at hshown
    exact Or.inl ⟨rfl, (Option.some.inj hshown).symm, if_pos hpart⟩
  | succ part =>
    have hreach : reach w = w.handed + 1 := if_neg (by omega)
    cases ht : w.core.log[w.handed]? with
    | none =>
      have hle := h.anchorage.grounded.sound.handed_le
      have hge := List.getElem?_eq_none_iff.mp ht
      have hzero := h.part (le_antisymm hle hge)
      omega
    | some t =>
      rw [ht, hpart, Option.map_some, Option.getD_some] at hshown
      refine Or.inr ⟨part, t, rfl, rfl, hshown, hreach, ?_⟩
      rw [hreach, List.take_add_one, ht]
      rfl

/-- A metadata write in place, shown in part, leaves the data and the timestamp. -/
theorem shown_rewrite {x : Entry Attrs} {stat : Stat} {blob : Bytes} {ops : List EngineObjects.Op}
    {store : EngineObjects.Store} (hx : u (ordinary stat.name) = some x)
    (hk : ∃ k, x.attrs = some k ∧ k.ts = stat.ts) (hactive : stat.state = .active)
    (hops : ops = [.setheader (ordinary stat.name) blob, save stat]) {part : ℕ}
    (h : applyAll u (ops.take (part + 1)) = some store) :
    ∃ z k, store (ordinary stat.name) = some z ∧ z.attrs = some k ∧ z.data = x.data ∧
      k.ts = stat.ts := by
  obtain ⟨k, hk, hts⟩ := hk
  have haddr : address stat = ordinary stat.name := by
    unfold address
    rw [hactive]
    rfl
  subst hops
  simp only [List.take_succ_cons, applyAll_cons, EntryStore.apply, hx, Option.map_some,
    Option.bind_some] at h
  cases part with
  | zero =>
    obtain rfl := Option.some.inj h
    exact ⟨_, k, update_self .., hk, rfl, hts⟩
  | succ part =>
    simp only [List.take_succ_cons, List.take_nil, applyAll_cons, applyAll_nil, EntryStore.apply,
      save, haddr, update_self, Option.map_some, Option.bind_some] at h
    obtain rfl := Option.some.inj h
    exact ⟨_, _, update_self .., rfl, rfl, rfl⟩

/-- What is at the address of a name is the data and the timestamp of what held
it in what was handed over; or a put over that is shown in part. -/
theorem shown_ordinary (h : Footing r s w u)
    (hheld : (r.after (w.core.log.take w.handed)).held name = some h₀) :
    (∃ z k h₁, w.store (ordinary name) = some z ∧ z.attrs = some k ∧ z.data = h₀.data ∧
      k.ts = h₀.stat.ts ∧ (r.after (w.core.log.take (reach w))).held name = some h₁ ∧
      h₁.stat.ts = h₀.stat.ts) ∨
    ∃ h₁, (r.after (w.core.log.take (reach w))).held name = some h₁ ∧ h₀.stat.ts < h₁.stat.ts ∧
      ∀ z, w.store (ordinary name) = some z → ∃ k, z.attrs = some k ∧
        (k.ts = h₁.stat.ts ∨ k.ts ≠ h₀.stat.ts ∧ ∃ t op, w.core.log[w.handed]? = some t ∧
          op ∈ t.ops ∧ temporary name k.ts ∈ op.addresses) := by
  have hu : u (ordinary name) = some h₀.entry := by
    rw [h.renders.holder, hheld]
    rfl
  rcases shown_cases h with ⟨-, hstore, hreach⟩ | ⟨part, t, -, ht, happly, -, htake⟩
  · rw [hstore, hreach]
    exact Or.inl ⟨_, _, h₀, hu, rfl, rfl, rfl, hheld, rfl⟩
  rw [htake, Record.after_concat]
  by_cases htouch : Touches name t
  swap
  · rw [held_untouched _ htouch, applyAll_untouched (h.confined t (List.mem_of_getElem? ht)) htouch
      (fun op hop => List.mem_of_mem_take hop) happly]
    exact Or.inl ⟨_, _, h₀, hu, rfl, rfl, rfl, hheld, rfl⟩
  have hformed := h.anchorage.grounded.formed _ t ht
  have horderly := h.anchorage.grounded.orderly _ t ht
  dsimp only at hformed horderly
  unfold Touches at htouch
  unfold Formed at hformed
  unfold Orderly at horderly
  cases hnote : t.note with
  | write i stat data =>
    rw [hnote] at htouch
    contradiction
  | remove i =>
    rw [hnote] at htouch
    contradiction
  | header i stat blob =>
    rw [hnote] at htouch hformed
    obtain ⟨hactive, rfl⟩ := htouch
    obtain ⟨hops, v, hv, hstat⟩ := hformed hactive
    obtain rfl := Option.some.inj (hheld.symm.trans hv)
    obtain ⟨z, k, hz, hk, hdata, hts⟩ :=
      shown_rewrite hu ⟨_, rfl, congrArg Stat.ts hstat⟩ hactive hops happly
    refine Or.inl ⟨z, k, { h₀ with header := blob }, hz, hk, hdata,
      hts.trans (congrArg Stat.ts hstat).symm, ?_, rfl⟩
    simp only [Record.apply, hactive, if_true, hheld, Option.map_some, Record.setHeld_self]
  | put i j n' ts =>
    rw [hnote] at htouch hformed horderly
    dsimp only at htouch
    subst htouch
    obtain ⟨n, p, v, hops, hn, hnn, hv, hstat, hpn, -, hholds⟩ := hformed
    obtain ⟨-, hj, hnewer⟩ := horderly
    unfold Holds at hholds
    rw [hpn, hheld] at hholds
    obtain ⟨hactive, hpstat⟩ := hholds
    have hy : u (temporary n' n.ts) = some v.entry := by
      have hentry := h.renders.version i v hv
      rwa [hstat, hnn] at hentry
    rw [hops] at happly
    obtain ⟨hne, hord, -⟩ := shown_put hn hnn hactive hpn hu hy happly
    refine Or.inr ⟨v.placed ts, ?_, hnewer h₀ hheld, fun z hz => ?_⟩
    · rw [Record.apply_put hv hj, Record.setHeld_self]
    · rcases hord z hz with hattrs | ⟨k, hk, hts⟩
      · refine ⟨_, hattrs, Or.inr ⟨?_, t, .rename (temporary n' n.ts) (ordinary n'), ht, ?_, ?_⟩⟩
        · rw [hstat]
          exact fun heq => hne (heq.trans (congrArg Stat.ts hpstat).symm)
        · rw [hops, handOver_eq hn hnn hactive hpn]
          simp
        · rw [hstat]
          exact List.mem_cons_self
      · exact ⟨k, hk, Or.inl hts⟩

/-- Something newer holds the name, or is about to in what the store shows. -/
def Beyond (r : Record) (w : World) (name : Name) (ts : ℕ) : Prop :=
  ∃ h₁, (r.after (w.core.log.take (reach w))).held name = some h₁ ∧ ts < h₁.stat.ts

/-- No put from a place of the log on retires the Object. -/
def Unretired (id n : ℕ) (log : List Txn) : Prop := ∀ t ∈ log.drop n, ¬ Retires id t

/-- Every put that retired the Object shows its first change. -/
abbrev Cleared (w : World) (id : ℕ) : Prop := Unretired id (reach w) w.core.log

instance (id n : ℕ) (log : List Txn) : Decidable (Unretired id n log) :=
  inferInstanceAs (Decidable (∀ t ∈ log.drop n, ¬ Retires id t))

/-! The two looks of a read. -/

theorem check_decodable {store : EngineObjects.Store} (op : String) (a : Address) (stat : Stat)
    (h : ∀ z, store a = some z → ∃ k, z.attrs = some k) : check op store a stat true = .ok () ∨
      check op store a stat true = .error (.changed op stat.name stat.ts) := by
  unfold check load
  rw [if_pos rfl]
  cases hz : store a with
  | none => exact Or.inr rfl
  | some z =>
    obtain ⟨k, hk⟩ := h z hz
    simp only [hk]
    by_cases hts : k.ts = stat.ts
    · exact Or.inl (if_neg fun hne => hne hts)
    · exact Or.inr (if_pos hts)

theorem check_newer {store : EngineObjects.Store} (op : String) (a : Address) (stat : Stat)
    (h : ∀ z, store a = some z → ∃ k, z.attrs = some k ∧ k.ts ≠ stat.ts) :
    check op store a stat true = .error (.changed op stat.name stat.ts) := by
  unfold check load
  rw [if_pos rfl]
  cases hz : store a with
  | none => rfl
  | some z =>
    obtain ⟨k, hk, hts⟩ := h z hz
    simp only [hk]
    exact if_pos hts

section Ordinary

variable {data : Bytes} {ts pos : ℕ}

theorem reach_le (h : Footing r s w u) : w.handed ≤ reach w ∧ reach w ≤ w.core.log.length := by
  rcases shown_cases h with ⟨-, -, hreach⟩ | ⟨part, t, -, ht, -, hreach, -⟩
  · have hle := h.anchorage.grounded.sound.handed_le
    dsimp only at hle
    omega
  · have hlt := (List.getElem?_eq_some_iff.mp ht).1
    omega

/-- What is met at the address of a name that a version has come to hold. -/
theorem look_own (h : Footing r s w u)
    (hsince : Since r w.core.log name ts (fun v => v.data = data) pos) (hpos : pos ≤ w.handed)
    {z : Entry Attrs} (hz : w.store (ordinary name) = some z) :
    z.data = data ∨ Beyond r w name ts := by
  obtain ⟨h₀, hheld, hcase⟩ := hsince.2 w.handed hpos
  rcases shown_ordinary h hheld with ⟨z', k, h₁, hz', -, hdata, -, hheld₁, hts₁⟩ |
    ⟨h₁, hheld₁, hlt, -⟩
  · obtain rfl := Option.some.inj (hz.symm.trans hz')
    rcases hcase with ⟨-, hown⟩ | hnewer
    · exact Or.inl (hdata.trans hown)
    · exact Or.inr ⟨h₁, hheld₁, hts₁ ▸ hnewer⟩
  · refine Or.inr ⟨h₁, hheld₁, ?_⟩
    rcases hcase with ⟨rfl, -⟩ | hnewer
    · exact hlt
    · exact hnewer.trans hlt

theorem ordinary_decodable (h : Footing r s w u)
    (hsince : Since r w.core.log name ts (fun v => v.data = data) pos) (hpos : pos ≤ w.handed) :
    ∀ z, w.store (ordinary name) = some z → ∃ k, z.attrs = some k := by
  obtain ⟨h₀, hheld, -⟩ := hsince.2 w.handed hpos
  intro z hz
  rcases shown_ordinary h hheld with ⟨z', k, _, hz', hk, -⟩ | ⟨_, -, -, hall⟩
  · obtain rfl := Option.some.inj (hz.symm.trans hz')
    exact ⟨k, hk⟩
  · obtain ⟨k, hk, -⟩ := hall z hz
    exact ⟨k, hk⟩

/-- Where something newer is, the attributes are of another timestamp, those
that a put is yet to rewrite among them. -/
theorem check_beyond (h : Footing r s w u) (ha : Anchored r ⟨w.core, w.handed, u⟩ id o v)
    (hleg : Legible o) (hsince : Since r w.core.log o.name o.ts (fun v => v.data = data) pos)
    (hpos : pos ≤ w.handed) (hbeyond : Beyond r w o.name o.ts) (op : String) :
    check op w.store (ordinary o.name) o.toStat true = .error (.changed op o.name o.ts) := by
  obtain ⟨h₀, hheld, hcase⟩ := hsince.2 w.handed hpos
  obtain ⟨h₂, hheld₂, hlt₂⟩ := hbeyond
  refine check_newer op (ordinary o.name) o.toStat fun z hz => ?_
  rcases shown_ordinary h hheld with ⟨z', k, h₁, hz', hk, -, hts, hheld₁, hts₁⟩ |
    ⟨h₁, hheld₁, hlt, hall⟩
  · obtain rfl := Option.some.inj (hz.symm.trans hz')
    obtain rfl := Option.some.inj (hheld₁.symm.trans hheld₂)
    exact ⟨k, hk, by omega⟩
  obtain ⟨k, hk, hkts⟩ := hall z hz
  refine ⟨k, hk, ?_⟩
  rcases hkts with hkts | ⟨hne, t, op, ht, hop, hmem⟩
  · have hle : o.ts ≤ h₀.stat.ts := hcase.elim (fun hsame => hsame.1.ge) fun hnewer => hnewer.le
    omega
  rcases hcase with ⟨hsame, -⟩ | hnewer
  · exact hsame ▸ hne
  -- the Object was retired before, so the put is at another address
  have hover : Overtaken r ⟨w.core, w.handed, u⟩ o.name o.ts := ⟨h₀, hheld, hnewer⟩
  have hold : o.state = .old := hleg.resolve_left fun hactive =>
    active_not_overtaken h.anchorage.grounded ha hactive hover
  obtain ⟨p, t', -, -, ⟨q, hq, hqts⟩, havoids, -⟩ := ha.retired hold
  have hp : p < w.handed := by
    by_contra hge
    obtain ⟨q', hq', hle⟩ := held_mono h.anchorage.grounded.orderly (Nat.le_of_not_lt hge) hheld
    obtain rfl := Option.some.inj (hq.symm.trans hq')
    omega
  intro hts
  exact havoids w.handed t hp ht op hop (hts ▸ hmem)

end Ordinary

/-- What is met at the temporary address of a retired Object. -/
theorem look_retired (h : Footing r s w u) (ha : Anchored r ⟨w.core, w.handed, u⟩ id o v)
    (hold : o.state = .old) (hcleared : Cleared w id) :
    ∃ z k, w.store (temporary o.name o.ts) = some z ∧ z.attrs = some k ∧ z.data = v.data := by
  obtain ⟨p, t, hp, hretires, -, havoids, hall⟩ := ha.retired hold
  dsimp only at hp havoids hall
  have hname : v.stat.name = o.name := congrArg Stat.name ha.stat
  have hts : v.stat.ts = o.ts := congrArg Stat.ts ha.stat
  have hreach : p < reach w := by
    by_contra hge
    refine hcleared t (List.mem_of_getElem? (i := p - reach w) ?_) hretires
    rw [List.getElem?_drop, Nat.add_sub_cancel' (Nat.le_of_not_lt hge), hp]
  have hwhole : p < w.handed → u (temporary o.name o.ts) = some v.entry := by
    intro hlt
    have hentry := h.renders.version id v (hall w.handed hlt).1
    rwa [hname, hts] at hentry
  rcases shown_cases h with ⟨-, hstore, hr⟩ | ⟨part, t', -, ht', happly, hr, htake⟩
  · rw [hstore]
    exact ⟨_, _, hwhole (hr ▸ hreach), rfl, rfl⟩
  by_cases hlt : p < w.handed
  · have hsame := applyAll_other happly fun op hop =>
      havoids w.handed t' hlt ht' op (List.mem_of_mem_take hop)
    exact ⟨_, _, hsame.trans (hwhole hlt), rfl, rfl⟩
  -- the put that retires it is the one shown in part
  obtain rfl : p = w.handed := by omega
  obtain rfl := Option.some.inj (hp.symm.trans ht')
  obtain ⟨i, name, ts, hnote⟩ := hretires
  have hformed := h.anchorage.grounded.formed _ t hp
  have horderly := h.anchorage.grounded.orderly _ t hp
  unfold Formed at hformed
  unfold Orderly at horderly
  rw [hnote] at hformed horderly
  obtain ⟨n, p, y, hops, hn, hnn, hy, hystat, hpn, -, hholds⟩ := hformed
  obtain ⟨-, hj, -⟩ := horderly
  have hij : id ≠ i := by
    rintro rfl
    rw [hj] at hy
    contradiction
  have htemp := (hall (w.handed + 1) (Nat.lt_succ_self _)).1
  rw [← hr, htake, Record.after_concat, hnote, Record.apply_put hy hj, Record.setHeld_temp,
    Record.setTemp_of_ne _ _ hij, Record.setTemp_self] at htemp
  obtain ⟨h₀, hheld, rfl⟩ := Option.map_eq_some_iff.mp htemp
  obtain rfl : name = o.name :=
    (h.anchorage.grounded.sound.holders w.handed name h₀ hheld).1 ▸ hname
  unfold Holds at hholds
  rw [hpn, hheld] at hholds
  obtain ⟨hactive, hpstat⟩ := hholds
  have hpts : p.ts = o.ts := (congrArg Stat.ts hpstat).trans hts
  have hx : u (ordinary o.name) = some h₀.entry := by
    rw [h.renders.holder, hheld]
    rfl
  have hz : u (temporary o.name n.ts) = some y.entry := by
    have hentry := h.renders.version i y hy
    rwa [hystat, hnn] at hentry
  rw [hops] at happly
  obtain ⟨-, -, z, hz, hdata, hattrs⟩ := shown_put hn hnn hactive hpn hx hz happly
  rw [hpts] at hz
  rcases hattrs with hattrs | ⟨k, hk, -⟩
  · exact ⟨z, _, hz, hattrs, hdata⟩
  · exact ⟨z, k, hz, hk, hdata⟩

end Swiftacular.ShownVersions
