import Swiftacular.LiveObjects

/-!
The ordinary space alone. What holds a name is seen there: its metadata, its
timestamp and its deleted flag, whatever the temporary addresses are. Only a
put of the name and a metadata write of its holder change it, and a put that
comes right after the metadata write of its next version places just that.
-/
namespace Swiftacular.HeldEntries

open Function EntryStore EngineObjects Versions EngineRuns LiveObjects

/-- What an entry shows besides its bytes. -/
def shown (e : Entry Attrs) : Bytes × Option Attrs := (e.header, e.attrs)

/-- The ordinary entries show what the record says holds the names. -/
def Shows (r : Record) (s : Store) : Prop :=
  ∀ n, (s (ordinary n)).map shown = (r.held n).map fun v => shown v.entry

/-- The transactions that change what holds a name. -/
def Touches (name : Name) (t : Txn) : Prop :=
  match t.note with
  | .put _ _ n _ => n = name
  | .header _ stat _ => stat.state = .active ∧ stat.name = name
  | _ => False

/-- A transaction names the ordinary address of no name it does not touch. -/
def Confined (t : Txn) : Prop := ∀ op ∈ t.ops, ∀ n, ordinary n ∈ op.addresses → Touches n t

/-- A put places a version that was written, newer than the holder, and a
metadata write in place is that of the holder. -/
def Orderly (r : Record) (t : Txn) : Prop :=
  match t.note with
  | .put i j n ts => (∃ v, r.temp i = some v) ∧ r.temp j = none ∧
      ∀ u, r.held n = some u → u.stat.ts < ts
  | .header _ stat _ => stat.state = .active → ∃ u, r.held stat.name = some u
  | _ => True

/-- No rename of a transaction lands on an ordinary entry. -/
def Landing (s : Store) (t : Txn) : Prop :=
  ∀ m a n, t.ops[m]? = some (.rename a (ordinary n)) →
    ∀ u, applyAll s (t.ops.take m) = some u → u (ordinary n) = none

theorem Shows.attrs {r : Record} {s : Store} (h : Shows r s) (name : Name) :
    (s (ordinary name)).map Entry.attrs = (r.held name).map fun v => v.entry.attrs := by
  have hname := congrArg (Option.map Prod.snd) (h name)
  rwa [Option.map_map, Option.map_map] at hname

theorem Shows.vacant {r : Record} {s : Store} (h : Shows r s) {name : Name}
    (hnone : r.held name = none) : s (ordinary name) = none := by
  have hname := h name
  rw [hnone] at hname
  simpa using hname

theorem Shows.holder {r : Record} {s : Store} (h : Shows r s) {name : Name} {v : Version}
    (hv : r.held name = some v) : ∃ e, s (ordinary name) = some e ∧ shown e = shown v.entry := by
  have hname := h name
  rw [hv] at hname
  exact Option.map_eq_some_iff.mp hname

theorem held_untouched (r : Record) {t : Txn} {name : Name} (h : ¬ Touches name t) :
    (r.apply t.note).held name = r.held name := by
  unfold Touches at h
  cases hnote : t.note with
  | write id stat data => rfl
  | remove id => rfl
  | header id stat blob =>
    rw [hnote] at h
    dsimp only at h
    simp only [Record.apply]
    split
    · rename_i hactive
      have hn : name ≠ stat.name := fun heq => h ⟨hactive, heq.symm⟩
      exact Record.setHeld_of_ne _ _ hn
    · rfl
  | put i j n ts =>
    rw [hnote] at h
    have hn : name ≠ n := fun heq => h heq.symm
    have hretire : (r.retire j n).held name = r.held name := by
      unfold Record.retire
      split
      · rfl
      · exact Record.setHeld_of_ne _ _ hn
    simp only [Record.apply]
    unfold Record.place
    split
    · exact hretire
    · rw [Record.setHeld_of_ne _ _ hn, Record.setTemp_held, hretire]

/-- Changes that do not touch a name leave its ordinary address as it was. -/
theorem applyAll_untouched {t : Txn} (hc : Confined t) {name : Name} (h : ¬ Touches name t)
    {s s' : Store} {ops : List Op} (hops : ∀ op ∈ ops, op ∈ t.ops)
    (hs : applyAll s ops = some s') : s' (ordinary name) = s (ordinary name) :=
  applyAll_other hs fun op hop hmem => h (hc op (hops op hop) name hmem)

theorem shows_untouched {r : Record} {s s' : Store} (h : Shows r s) {t : Txn} (hc : Confined t)
    (hnone : ∀ n, ¬ Touches n t) (hs : applyAll s t.ops = some s') :
    Shows (r.apply t.note) s' := by
  intro n
  rw [held_untouched r (hnone n), applyAll_untouched hc (hnone n) (fun _ ho => ho) hs, h n]

/-- A transaction in the temporary space alone. -/
theorem confined_temporary {t : Txn}
    (h : ∀ op ∈ t.ops, ∀ a ∈ op.addresses, a.space = .temporary) : Confined t := by
  intro op hop n hn
  have hspace := h op hop _ hn
  contradiction

theorem landing_of_no_rename {s : Store} {t : Txn} (h : ∀ a b, Op.rename a b ∉ t.ops) :
    Landing s t := fun _ a n hm => absurd (List.mem_of_getElem? hm) (h a (ordinary n))

theorem writing_address {o : Object} (h : Writing o) :
    address o.toStat = temporary o.name o.ts := by
  rcases h with h | h <;> exact address_temp (by rw [h]; rfl)

/-- A write, which stays in the temporary space. -/
theorem write_quiet {id : ℕ} {o o' : Object} {data : Bytes} {ops : List Op}
    (h : o.write data = .ok (o', ops)) :
    Confined ⟨o.name, ops, .write id o'.toStat data⟩ ∧
      ∀ s, Landing s ⟨o.name, ops, .write id o'.toStat data⟩ := by
  obtain ⟨hstate, rfl, rfl⟩ := write_ok h
  have haddr := writing_address hstate
  have haddr' : address { o.toStat with state := .inWrite } = temporary o.name o.ts := rfl
  constructor
  · refine confined_temporary fun op hop a ha => ?_
    dsimp only at hop
    rw [haddr] at hop
    split at hop
    · simp only [List.cons_append, List.nil_append, List.mem_cons, List.not_mem_nil, or_false] at hop
      rcases hop with rfl | rfl | rfl
      · rw [List.mem_singleton.mp ha]
        rfl
      · rw [save, haddr'] at ha
        rw [List.mem_singleton.mp ha]
        rfl
      · rw [List.mem_singleton.mp ha]
        rfl
    · rw [List.nil_append, List.mem_singleton] at hop
      subst hop
      rw [List.mem_singleton.mp ha]
      rfl
  · intro s
    refine landing_of_no_rename fun a b hmem => ?_
    dsimp only at hmem
    split at hmem <;> simp [save] at hmem

/-- The changes of a metadata write of a version not yet put. -/
theorem draft_ops {o o' : Object} {data : Bytes} {ops : List Op}
    (h : o.writeMetadata data = .ok (o', ops)) (hw : Writing o) :
    o' = { o with state := .inWrite } ∧
      ops = (if o.state = .preWrite then [Op.touch (temporary o.name o.ts)] else []) ++
        [.setheader (temporary o.name o.ts) data,
          .setattrs (temporary o.name o.ts) ⟨o.ts, o.deleted, false⟩] := by
  obtain ⟨-, rfl, rfl⟩ := writeMetadata_ok h
  have haddr := writing_address hw
  have hnext : (if o.state = .preWrite then { o with state := .inWrite } else o) =
      { o with state := .inWrite } := by
    rcases hw with hpre | hin
    · rw [if_pos hpre]
    · have hnot : ¬ o.state = .preWrite := by rw [hin]; simp
      rw [if_neg hnot, ← hin]
  rw [hnext, haddr]
  exact ⟨rfl, rfl⟩

theorem draft_quiet {id : ℕ} {name : Name} {o o' : Object} {data : Bytes} {ops : List Op}
    (h : o.writeMetadata data = .ok (o', ops)) (hw : Writing o) :
    Confined ⟨name, ops, .header id o'.toStat data⟩ ∧
      (∀ s, Landing s ⟨name, ops, .header id o'.toStat data⟩) ∧
      ∀ n, ¬ Touches n ⟨name, ops, .header id o'.toStat data⟩ := by
  obtain ⟨rfl, rfl⟩ := draft_ops h hw
  refine ⟨confined_temporary fun op hop a ha => ?_, fun s => landing_of_no_rename fun a b hmem => ?_,
    fun n hn => ?_⟩
  · have hop : op ∈ [Op.touch (temporary o.name o.ts), .setheader (temporary o.name o.ts) data,
        .setattrs (temporary o.name o.ts) ⟨o.ts, o.deleted, false⟩] := by
      dsimp only at hop
      split at hop
      · exact hop
      · exact List.mem_cons_of_mem _ hop
    simp only [List.mem_cons, List.not_mem_nil, or_false] at hop
    rcases hop with rfl | rfl | rfl <;> rw [List.mem_singleton.mp ha] <;> rfl
  · dsimp only at hmem
    split at hmem <;> simp at hmem
  · have hstate : State.inWrite = State.active := hn.1
    contradiction

/-- The entry of a version whose metadata was just written. -/
theorem drafted_entry {o o' : Object} {data : Bytes} {ops : List Op}
    (h : o.writeMetadata data = .ok (o', ops)) (hw : Writing o) {s s' : Store}
    (hs : applyAll s ops = some s') :
    ∃ e, s' (temporary o.name o.ts) = some e ∧ e.header = data := by
  obtain ⟨-, rfl⟩ := draft_ops h hw
  have hlast : ∀ {u : Store}, applyAll u [Op.setheader (temporary o.name o.ts) data,
      .setattrs (temporary o.name o.ts) ⟨o.ts, o.deleted, false⟩] = some s' →
      ∃ e, s' (temporary o.name o.ts) = some e ∧ e.header = data := by
    intro u hu
    simp only [applyAll_cons, applyAll_nil, EntryStore.apply, Option.bind_eq_some_iff,
      Option.map_eq_some_iff] at hu
    obtain ⟨v, ⟨e, -, rfl⟩, w, ⟨e', he', rfl⟩, hw⟩ := hu
    rw [update_self] at he'
    obtain rfl := Option.some.inj hw
    obtain rfl := Option.some.inj he'
    exact ⟨_, update_self .., rfl⟩
  split at hs
  · obtain ⟨u, -, hu⟩ := applyAll_append_some hs
    exact hlast hu
  · exact hlast hs

/-- A metadata write in place touches its name and renames nothing. -/
theorem post_quiet {id : ℕ} {name : Name} {o o' : Object} {data : Bytes} {ops : List Op}
    (hm : o.writeMetadata data = .ok (o', ops)) (hactive : o.state = .active) :
    Confined ⟨name, ops, .header id o'.toStat data⟩ ∧
      ∀ s, Landing s ⟨name, ops, .header id o'.toStat data⟩ := by
  obtain ⟨-, rfl, rfl⟩ := writeMetadata_ok hm
  have hnot : ¬ o.state = .preWrite := by rw [hactive]; simp
  have haddr := address_active hactive
  simp only [if_neg hnot, List.nil_append, haddr]
  refine ⟨fun op hop n hn => ?_, fun s => landing_of_no_rename fun a b hmem => ?_⟩
  · have hordinary : ∀ a ∈ op.addresses, a = ordinary o.name := by
      intro a ha
      simp only [List.mem_cons, List.not_mem_nil, or_false] at hop
      rcases hop with rfl | rfl
      · exact List.mem_singleton.mp ha
      · rw [save, haddr] at ha
        exact List.mem_singleton.mp ha
    exact ⟨hactive, (ordinary_inj.mp (hordinary _ hn)).symm⟩
  · simp [save] at hmem

/-- A metadata write of the holder, in place. -/
theorem shows_post {r : Record} {s s' : Store} (h : Shows r s) {id : ℕ} {o o' : Object}
    {data : Bytes} {ops : List Op} (hm : o.writeMetadata data = .ok (o', ops))
    (hactive : o.state = .active) {v : Version} (hv : r.held o.name = some v)
    (hstat : v.stat = o.toStat) (hs : applyAll s ops = some s') :
    Shows (r.apply (.header id o'.toStat data)) s' := by
  obtain ⟨-, rfl, rfl⟩ := writeMetadata_ok hm
  have hnot : ¬ o.state = .preWrite := by rw [hactive]; simp
  have haddr := address_active hactive
  simp only [if_neg hnot, List.nil_append, haddr] at hs ⊢
  have happly : r.apply (.header id o.toStat data) =
      r.setHeld o.name (some { v with header := data }) := by
    simp only [Record.apply, hactive, if_true, hv, Option.map_some]
  rw [happly]
  intro n
  by_cases hn : n = o.name
  · subst hn
    obtain ⟨e, he, -⟩ := h.holder hv
    simp only [applyAll_cons, applyAll_nil, EntryStore.apply, save, haddr, he, Option.map_some,
      Option.bind_some, update_self, Option.some.injEq] at hs
    rw [← hs, update_self, Record.setHeld_self]
    simp only [Option.map_some, shown, Version.entry, hstat]
  · have hsame : s' (ordinary n) = s (ordinary n) := by
      refine applyAll_other hs fun op hop hmem => ?_
      simp only [List.mem_cons, List.not_mem_nil, or_false] at hop
      rcases hop with rfl | rfl
      · exact hn (ordinary_inj.mp (List.mem_singleton.mp hmem))
      · rw [save, haddr] at hmem
        exact hn (ordinary_inj.mp (List.mem_singleton.mp hmem))
    rw [hsame, h n, Record.setHeld_of_ne _ _ hn]

/-- A put touches the name it is for, and no rename of it lands on an entry there. -/
theorem put_quiet {p i j : ℕ} {next prev next' prev' : Object} {ts : Option ℕ} {ops : List Op}
    (h : Backend.put p next prev ts = .ok (next', prev', ops)) {s : Store}
    (hmissing : prev.state = .missing → s (ordinary next.name) = none) :
    Confined ⟨next.name, ops, .put i j next.name (ts.getD next.ts)⟩ ∧
      Landing s ⟨next.name, ops, .put i j next.name (ts.getD next.ts)⟩ := by
  obtain ⟨hin, hstate, hname, -, -, -, rfl⟩ := put_ok h
  have hfrom : address next.toStat = temporary next.name next.ts :=
    address_temp (by rw [hin]; rfl)
  have hto : address (Backend.settle next (ts.getD next.ts)).toStat = ordinary next.name :=
    address_active rfl
  rcases hstate with hactive | hmiss
  · have hout : address prev.toStat = ordinary next.name := by
      rw [address_active hactive, hname]
    have hmoved : address (Backend.retire prev).toStat = temporary next.name prev.ts := by
      rw [hname]
      simp only [Backend.retire, hactive, if_true]
      rfl
    simp only [Backend.handOverOps, hactive, if_true, List.cons_append, List.nil_append, save,
      hfrom, hto, hout, hmoved]
    refine ⟨fun op hop n hn => ?_, fun m a n hm u hu => ?_⟩
    · simp only [List.mem_cons, List.not_mem_nil, or_false] at hop
      change next.name = n
      have hname : ordinary n = ordinary next.name := by
        rcases hop with rfl | rfl | rfl | rfl
        · simpa [EntryStore.Op.addresses] using hn
        · simp [EntryStore.Op.addresses] at hn
        · simpa [EntryStore.Op.addresses] using hn
        · simpa [EntryStore.Op.addresses] using hn
      exact (ordinary_inj.mp hname).symm
    · have hthird : m = 2 := by
        obtain _ | _ | _ | _ | m := m
        · simp at hm
        · simp at hm
        · rfl
        · simp at hm
        · simp at hm
      subst hthird
      obtain ⟨-, rfl⟩ : _ ∧ next.name = n := by simpa using hm
      -- the holder has moved out, or there was none
      simp only [List.take_succ_cons, List.take_zero, applyAll_cons, applyAll_nil,
        Option.bind_eq_some_iff] at hu
      obtain ⟨v, hv, w, hw, hwu⟩ := hu
      obtain rfl := Option.some.inj hwu
      have hgone : v (ordinary next.name) = none := by
        simp only [EntryStore.apply] at hv
        split at hv
        · rename_i hnone
          rw [← Option.some.inj hv]
          exact hnone
        · contradiction
        · rw [← Option.some.inj hv, update_of_ne (ordinary_ne_temporary _ _ _), update_self]
      exact (apply_other hw (by simp [EntryStore.Op.addresses])).trans hgone
  · have hnot : ¬ prev.state = .active := by rw [hmiss]; simp
    simp only [Backend.handOverOps, hnot, if_false, List.nil_append, save, hfrom, hto]
    refine ⟨fun op hop n hn => ?_, fun m a n hm u hu => ?_⟩
    · simp only [List.mem_cons, List.not_mem_nil, or_false] at hop
      change next.name = n
      rcases hop with rfl | rfl
      · exact (by simpa [EntryStore.Op.addresses] using hn : n = next.name).symm
      · exact (by simpa [EntryStore.Op.addresses] using hn : n = next.name).symm
    · have hfirst : m = 0 := by
        obtain _ | _ | m := m
        · rfl
        · simp at hm
        · simp at hm
      subst hfirst
      obtain ⟨-, rfl⟩ : _ ∧ next.name = n := by simpa using hm
      obtain rfl := Option.some.inj hu
      exact hmissing hmiss

/-- A put right after the metadata write of its next version. -/
theorem shows_put {r : Record} {s s' : Store} (h : Shows r s) {p i j : ℕ}
    {next prev next' prev' : Object} {ts : Option ℕ} {ops : List Op}
    (hput : Backend.put p next prev ts = .ok (next', prev', ops)) {v : Version}
    (hv : r.temp i = some v) (hstat : v.stat = next.toStat) (hj : r.temp j = none)
    (hdraft : ∃ e, s (temporary next.name next.ts) = some e ∧ e.header = v.header)
    (hmissing : prev.state = .missing → r.held next.name = none)
    (hholding : prev.state = .active → ∃ u, r.held next.name = some u)
    (hs : applyAll s ops = some s') :
    Shows (r.apply (.put i j next.name (ts.getD next.ts))) s' := by
  obtain ⟨e, he, hheader⟩ := hdraft
  have hquiet := (@put_quiet p i j _ _ _ _ _ _ hput s fun hmiss => h.vacant (hmissing hmiss)).1
  obtain ⟨hin, hstate, hname, -, -, -, rfl⟩ := put_ok hput
  have hfrom : address next.toStat = temporary next.name next.ts :=
    address_temp (by rw [hin]; rfl)
  have hto : address (Backend.settle next (ts.getD next.ts)).toStat = ordinary next.name :=
    address_active rfl
  -- what is placed, whatever moved out before it
  have hplaced : s' (ordinary next.name) =
      some { e with attrs := some ⟨ts.getD next.ts, next.deleted, false⟩ } := by
    have hlast : ∀ {u : Store}, u (temporary next.name next.ts) = some e →
        applyAll u [Op.rename (temporary next.name next.ts) (ordinary next.name),
          .setattrs (ordinary next.name) ⟨ts.getD next.ts, next.deleted, false⟩] = some s' →
        s' (ordinary next.name) =
          some { e with attrs := some ⟨ts.getD next.ts, next.deleted, false⟩ } := by
      intro u hu happly
      simp only [applyAll_cons, applyAll_nil, EntryStore.apply, hu] at happly
      split at happly
      · contradiction
      · contradiction
      · rename_i e' heq hnone
        obtain rfl := Option.some.inj heq
        simp only [Option.bind_some, update_self, Option.map_some, Option.some.injEq] at happly
        rw [← happly, update_self]
    rcases hstate with hactive | hmiss
    · have hout : address prev.toStat = ordinary next.name := by
        rw [address_active hactive, hname]
      have hmoved : address (Backend.retire prev).toStat = temporary next.name prev.ts := by
        rw [hname]
        simp only [Backend.retire, hactive, if_true]
        rfl
      simp only [Backend.handOverOps, hactive, if_true, hfrom, hto, hout, hmoved, save] at hs
      obtain ⟨u, hu, hrest⟩ := applyAll_append_some hs
      refine hlast ?_ hrest
      simp only [applyAll_cons, applyAll_nil, EntryStore.apply, Option.bind_eq_some_iff] at hu
      obtain ⟨w, hw, w', hw', hwu⟩ := hu
      obtain rfl := Option.some.inj hwu
      obtain ⟨x, -, rfl⟩ := Option.map_eq_some_iff.mp hw'
      obtain ⟨holder, hholder⟩ := hholding hactive
      obtain ⟨y, hy, -⟩ := h.holder hholder
      rw [hy] at hw
      split at hw
      · contradiction
      · contradiction
      · rename_i y' heq hvacant
        have hne : temporary next.name next.ts ≠ temporary next.name prev.ts := by
          intro heq
          rw [← heq, he] at hvacant
          contradiction
        rw [update_of_ne hne, ← Option.some.inj hw, update_of_ne hne,
          update_of_ne (temporary_ne_ordinary _ _ _), he]
    · have hnot : ¬ prev.state = .active := by rw [hmiss]; simp
      simp only [Backend.handOverOps, hnot, if_false, List.nil_append, hfrom, hto, save] at hs
      exact hlast he hs
  intro n
  rw [Record.apply_put hv hj]
  by_cases hn : n = next.name
  · subst hn
    rw [hplaced, Record.setHeld_self]
    simp only [Option.map_some, shown, Version.entry, Version.placed, hheader, hstat]
    rfl
  · have hother : ¬ Touches n ⟨next.name, Backend.handOverOps next prev (ts.getD next.ts),
        .put i j next.name (ts.getD next.ts)⟩ := fun heq => hn heq.symm
    rw [applyAll_untouched hquiet hother (fun _ ho => ho) hs, h n, Record.setHeld_of_ne _ _ hn]
    rfl

theorem release_quiet {id : ℕ} {o : Object} {ops : List Op} (h : o.release = some ops) :
    Confined ⟨o.name, ops, .remove id⟩ ∧ ∀ s, Landing s ⟨o.name, ops, .remove id⟩ := by
  unfold Object.release at h
  split at h
  · rename_i hstate
    obtain rfl := Option.some.inj h
    have haddr : address o.toStat = temporary o.name o.ts := by
      rcases hstate with h | h <;> exact address_temp (by rw [h]; rfl)
    refine ⟨confined_temporary fun op hop a ha => ?_, fun s => landing_of_no_rename fun a b hmem => ?_⟩
    · obtain rfl := List.mem_singleton.mp hop
      rw [List.mem_singleton.mp ha, haddr]
      rfl
    · simp at hmem
  · contradiction

/-! A log of such transactions, each in its place. -/

structure Kept (r : Record) (s : Store) (log : List Txn) : Prop where
  shows : ∀ k t, applyAll s (opsOf (log.take k)) = some t → Shows (r.after (log.take k)) t
  confined : ∀ t ∈ log, Confined t
  landing : ∀ k t, log[k]? = some t → ∀ u, applyAll s (opsOf (log.take k)) = some u → Landing u t
  orderly : ∀ k t, log[k]? = some t → Orderly (r.after (log.take k)) t

theorem kept_nil {r : Record} {s : Store} (h : Shows r s) : Kept r s [] := by
  refine ⟨fun k t ht => ?_, fun t ht => by contradiction, fun k t ht => ?_, fun k t ht => ?_⟩
  · rw [List.take_nil] at ht ⊢
    obtain rfl := Option.some.inj ht
    exact h
  · rw [List.getElem?_nil] at ht
    contradiction
  · rw [List.getElem?_nil] at ht
    contradiction

theorem take_concat {log : List Txn} {t : Txn} {k : ℕ} :
    (k ≤ log.length ∧ (log ++ [t]).take k = log.take k) ∨
      log.length < k ∧ (log ++ [t]).take k = log ++ [t] := by
  by_cases hk : k ≤ log.length
  · exact Or.inl ⟨hk, List.take_append_of_le_length hk⟩
  · exact Or.inr ⟨by omega, List.take_of_length_le (by simp; omega)⟩

theorem getElem?_concat_cases {log : List Txn} {t u : Txn} {k : ℕ}
    (h : (log ++ [t])[k]? = some u) :
    (log[k]? = some u ∧ (log ++ [t]).take k = log.take k) ∨
      u = t ∧ (log ++ [t]).take k = log := by
  have hlen := (List.getElem?_eq_some_iff.mp h).1
  rw [List.length_append, List.length_singleton] at hlen
  by_cases hk : k < log.length
  · rw [List.getElem?_append_left hk] at h
    exact Or.inl ⟨h, List.take_append_of_le_length (by omega)⟩
  · obtain rfl : k = log.length := by omega
    rw [List.getElem?_concat_length] at h
    refine Or.inr ⟨(Option.some.inj h).symm, ?_⟩
    rw [List.take_append_of_le_length (le_refl _), List.take_length]

theorem kept_concat {r : Record} {s : Store} {log : List Txn} (h : Kept r s log) {t : Txn}
    (hc : Confined t) (ho : Orderly (r.after log) t)
    (ht : ∀ u, applyAll s (opsOf log) = some u → Shows (r.after log) u →
      Landing u t ∧ ∀ v, applyAll u t.ops = some v → Shows ((r.after log).apply t.note) v) :
    Kept r s (log ++ [t]) := by
  have hall : ∀ u, applyAll s (opsOf log) = some u → Shows (r.after log) u := by
    intro u hu
    have hshows := h.shows log.length u
    rw [List.take_length] at hshows
    exact hshows hu
  refine ⟨fun k v hv => ?_, fun u hu => ?_, fun k u hu => ?_, fun k u hu => ?_⟩
  · rcases @take_concat log t k with ⟨-, htake⟩ | ⟨-, htake⟩
    · rw [htake] at hv ⊢
      exact h.shows k v hv
    · rw [htake, opsOf_concat] at hv
      obtain ⟨u, hu, huv⟩ := applyAll_append_some hv
      rw [htake, Record.after_concat]
      exact (ht u hu (hall u hu)).2 v huv
  · rcases List.mem_append.mp hu with hu | hu
    · exact h.confined u hu
    · rw [List.mem_singleton.mp hu]
      exact hc
  · rcases getElem?_concat_cases hu with ⟨hu, htake⟩ | ⟨rfl, htake⟩
    · rw [htake]
      exact h.landing k u hu
    · rw [htake]
      exact fun v hv => (ht v hv (hall v hv)).1
  · rcases getElem?_concat_cases hu with ⟨hu, htake⟩ | ⟨rfl, htake⟩
    · rw [htake]
      exact h.orderly k u hu
    · rw [htake]
      exact ho

/-- A transaction that touches no name. -/
theorem kept_quiet {r : Record} {s : Store} {log : List Txn} (h : Kept r s log) {t : Txn}
    (hc : Confined t) (hnone : ∀ n, ¬ Touches n t) (hl : ∀ u, Landing u t) :
    Kept r s (log ++ [t]) := by
  have horderly : Orderly (r.after log) t := by
    unfold Orderly
    cases hnote : t.note with
    | put i j n ts => exact absurd (by unfold Touches; rw [hnote]) (hnone n)
    | header id stat blob =>
      intro hactive
      exact absurd (by unfold Touches; rw [hnote]; exact ⟨hactive, rfl⟩) (hnone stat.name)
    | write id stat data => trivial
    | remove id => trivial
  exact kept_concat h hc horderly fun u _ hu => ⟨hl u, fun v hv => shows_untouched hu hc hnone hv⟩

theorem held_quiet {r : Record} {log : List Txn} {name : Name}
    (h : ∀ t ∈ log, ¬ Touches name t) : (r.after log).held name = r.held name := by
  induction log generalizing r with
  | nil => rfl
  | cons t rest ih =>
    have htail := ih (r := r.apply t.note) fun u hu => h u (List.mem_cons_of_mem _ hu)
    exact htail.trans (held_untouched r (h t (List.mem_cons_self ..)))

/-- What holds a name stays or gives way to something newer. -/
theorem held_step {r : Record} {t : Txn} (h : Orderly r t) {name : Name} {v : Version}
    (hv : r.held name = some v) :
    ∃ u, (r.apply t.note).held name = some u ∧ v.stat.ts ≤ u.stat.ts := by
  by_cases ht : Touches name t
  · unfold Touches at ht
    unfold Orderly at h
    cases hnote : t.note with
    | write id stat data =>
      rw [hnote] at ht
      contradiction
    | remove id =>
      rw [hnote] at ht
      contradiction
    | header id stat blob =>
      rw [hnote] at ht
      obtain ⟨hactive, rfl⟩ := ht
      refine ⟨{ v with header := blob }, ?_, le_refl _⟩
      simp only [Record.apply, hactive, if_true, hv, Option.map_some, Record.setHeld_self]
    | put i j n ts =>
      rw [hnote] at ht h
      dsimp only at ht h
      subst ht
      obtain ⟨⟨w, hw⟩, hj, hnewer⟩ := h
      refine ⟨w.placed ts, ?_, (hnewer v hv).le⟩
      rw [Record.apply_put hw hj, Record.setHeld_self]
  · exact ⟨v, (held_untouched r ht).trans hv, le_refl _⟩

theorem held_mono {r : Record} {log : List Txn}
    (h : ∀ k t, log[k]? = some t → Orderly (r.after (log.take k)) t) {name : Name} {i j : ℕ}
    (hij : i ≤ j) {v : Version} (hv : (r.after (log.take i)).held name = some v) :
    ∃ u, (r.after (log.take j)).held name = some u ∧ v.stat.ts ≤ u.stat.ts := by
  induction j, hij using Nat.le_induction with
  | base => exact ⟨v, hv, le_refl _⟩
  | succ j hij ih =>
    obtain ⟨u, hu, hle⟩ := ih
    by_cases hj : j < log.length
    · have hget : log[j]? = some (log.get ⟨j, hj⟩) := List.getElem?_eq_getElem hj
      obtain ⟨w, hw, hle'⟩ := held_step (h j _ hget) hu
      have htake : log.take (j + 1) = log.take j ++ [log.get ⟨j, hj⟩] :=
        List.take_succ_eq_append_getElem hj
      exact ⟨w, by rw [htake, Record.after_concat, hw], hle.trans hle'⟩
    · have htake : log.take (j + 1) = log.take j := by
        rw [List.take_of_length_le (by omega), List.take_of_length_le (by omega)]
      exact ⟨u, by rw [htake, hu], hle⟩

end Swiftacular.HeldEntries
