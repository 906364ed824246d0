import Swiftacular.PreparedLog
import Swiftacular.HeldEntries
import Swiftacular.StepRuns

/-!
The engine around a reader. Calls go on, and what is queued is handed over one
transaction at a time, by whoever holds the submit lock; the reader keeps its
Object. To that Object one move does one of four things.
-/
namespace Swiftacular.EngineMoves

open Function EntryStore EngineObjects Versions EngineRuns LiveObjects PreparedLog HeldEntries
  StepRuns

/-- The next transaction of the queue; `none` is a process the store stopped. -/
def hand (e : Engine) : Option Engine :=
  match e.queue with
  | [] => some e
  | t :: _ => (applyAll e.store t.ops).map fun store => { e with handed := e.handed + 1, store }

inductive Move
  | call (call : Call)
  | hand
  deriving DecidableEq

def move (e : Engine) : Move → Option Engine
  | .call call => e.step call
  | .hand => hand e

/-- Calls are the Device's: each put is given the holder, and temporary
addresses stay apart. -/
def Allowed (r : Record) (e : Engine) : Move → Prop
  | .call call => Driven r e call
  | .hand => True

/-- `Allowed`, by others than the one that keeps the Object. -/
def Sparing (r : Record) (id : ℕ) (e : Engine) (m : Move) : Prop :=
  Allowed r e m ∧ m ≠ .call (.release id)

theorem hand_cases {e e' : Engine} (h : hand e = some e') :
    e' = e ∨ ∃ t store, e.queue[0]? = some t ∧ applyAll e.store t.ops = some store ∧
      e' = { e with handed := e.handed + 1, store } := by
  unfold hand at h
  split at h
  · exact Or.inl (Option.some.inj h).symm
  · rename_i t rest hqueue
    obtain ⟨store, hstore, rfl⟩ := Option.map_eq_some_iff.mp h
    exact Or.inr ⟨t, store, by rw [hqueue]; rfl, hstore, rfl⟩

variable {r : Record} {s : Store} {e e' : Engine}

/-- A put is of a version that was written over what holds the name, and a
metadata write in place that of the holder. -/
def Formed (rec : Record) (t : Txn) : Prop :=
  match t.note with
  | .put i _ name ts => ∃ n p v, t.ops = Backend.handOverOps n p ts ∧ n.state = .inWrite ∧
      n.name = name ∧ rec.temp i = some v ∧ v.stat = n.toStat ∧ p.name = name ∧
      (p.state = .active ∨ p.state = .missing) ∧ Holds rec p
  | .header _ stat blob => stat.state = .active →
      t.ops = [.setheader (ordinary stat.name) blob, save stat] ∧
      ∃ v, rec.held stat.name = some v ∧ v.stat = stat
  | _ => True

/-- The store takes the log in order. -/
theorem sound_hand (h : Sound r s e) (hstep : hand e = some e') : Sound r s e' := by
  rcases hand_cases hstep with rfl | ⟨t, store, ht, hstore, rfl⟩
  · exact h
  · have hget : e.core.log[e.handed]? = some t := by
      rw [Engine.queue, List.getElem?_drop, Nat.add_zero] at ht
      exact ht
    have hlt := (List.getElem?_eq_some_iff.mp hget).1
    have htake : e.core.log.take (e.handed + 1) = e.core.log.take e.handed ++ [t] := by
      rw [List.take_add_one, hget]
      rfl
    refine ⟨h.stands, h.journal, h.named, h.holders, hlt, ?_⟩
    change applyAll s (opsOf (e.core.log.take (e.handed + 1))) = some store
    rw [htake, opsOf_concat, applyAll_append, h.stored, Option.bind_some, hstore]

/-- The log only grows, one transaction at a time, and each is in its place. -/
def Extends (r : Record) (e e' : Engine) : Prop :=
  e'.core.log = e.core.log ∧ e.handed ≤ e'.handed ∨
    ∃ t, e'.core.log = e.core.log ++ [t] ∧ e'.handed = e.handed ∧ e'.store = e.store ∧
      Orderly (Engine.record r e) t ∧ Formed (Engine.record r e) t

theorem hand_extends (h : hand e = some e') : Extends r e e' := by
  rcases hand_cases h with rfl | ⟨t, store, -, -, rfl⟩
  · exact Or.inl ⟨rfl, le_refl _⟩
  · exact Or.inl ⟨rfl, Nat.le_succ _⟩

/-- A metadata write is of a version being written or of the holder. -/
theorem metadata_orderly {c : Core} {rec : Record} (hs : Stands c rec) {id : ℕ}
    {o o₁ o' : Object} {data : Bytes} {ops : List Op} (ho : c.heap id = some o)
    (hsame : o₁ = o ∨ o.state = .preWrite ∧ o₁ = { o with deleted := true })
    (hm : o₁.writeMetadata data = .ok (o', ops)) :
    Orderly rec ⟨o.name, ops, .header id o'.toStat data⟩ := by
  intro hactive
  obtain ⟨-, rfl, -⟩ := writeMetadata_ok hm
  split at hactive
  · contradiction
  · rcases hsame with rfl | ⟨hpre, rfl⟩
    · rename_i hnot
      rw [if_neg hnot]
      obtain ⟨v, hv, -⟩ := (hs.drafts id _ ho).holding hactive
      exact ⟨v, hv⟩
    · rw [show ({ o with deleted := true } : Object).state = o.state from rfl, hpre] at hactive
      contradiction

theorem metadata_formed {c : Core} {rec : Record} (hs : Stands c rec) {id : ℕ}
    {o o₁ o' : Object} {data : Bytes} {ops : List Op} (ho : c.heap id = some o)
    (hsame : o₁ = o ∨ o.state = .preWrite ∧ o₁ = { o with deleted := true })
    (hm : o₁.writeMetadata data = .ok (o', ops)) :
    Formed rec ⟨o.name, ops, .header id o'.toStat data⟩ := by
  intro hactive
  obtain ⟨-, rfl, rfl⟩ := writeMetadata_ok hm
  split at hactive
  · contradiction
  rename_i hnot
  have hsame : o₁ = o := by
    rcases hsame with rfl | ⟨hpre, rfl⟩
    · rfl
    · exact absurd hpre hnot
  subst hsame
  simp only [if_neg hnot, List.nil_append, address_active hactive]
  exact ⟨trivial, (hs.drafts id _ ho).holding hactive⟩

theorem put_formed {c : Core} {rec : Record} (hs : Stands c rec) {i j : ℕ}
    {n p n' p' : Object} {ts : Option ℕ} {ops : List Op} (hn : c.heap i = some n)
    (h : Backend.put 0 n p ts = .ok (n', p', ops)) (hholds : Holds rec p) :
    Formed rec ⟨n.name, ops, .put i j n.name (ts.getD n.ts)⟩ := by
  obtain ⟨hin, hstate, hname, -, -, -, rfl⟩ := put_ok h
  obtain ⟨v, hv, hstat, -⟩ := (hs.drafts i n hn).draft hin
  exact ⟨n, p, v, rfl, hin, rfl, hv, hstat, hname.symm, hstate, hholds⟩

theorem put_orderly {c : Core} {rec : Record} (hs : Stands c rec) {i j : ℕ}
    {n p n' p' : Object} {ts : Option ℕ} {ops : List Op} (hn : c.heap i = some n)
    (hp : c.heap j = some p) (h : Backend.put 0 n p ts = .ok (n', p', ops)) (hholds : Holds rec p) :
    Orderly rec ⟨n.name, ops, .put i j n.name (ts.getD n.ts)⟩ := by
  obtain ⟨hin, hstate, hname, hnewer, -⟩ := put_ok h
  obtain ⟨v, hv, -⟩ := (hs.drafts i n hn).draft hin
  have hnot : ¬ InTemp p := by rcases hstate with h | h <;> simp [InTemp, h]
  refine ⟨⟨v, hv⟩, hs.not_temp hp hnot, fun u hu => ?_⟩
  unfold Holds at hholds
  rw [← hname, hu] at hholds
  have hts : p.ts = u.stat.ts := congrArg Stat.ts hholds.2
  omega

theorem call_extends {call : Call} (h : Sound r s e) (hd : Disciplined r e call)
    (hstep : e.step call = some e') : Extends r e e' := by
  have hsame : Extends r e e := Or.inl ⟨rfl, le_refl _⟩
  cases call with
  | create name ts us =>
    obtain rfl := Option.some.inj hstep
    exact Or.inl ⟨rfl, le_refl _⟩
  | find name =>
    obtain rfl := Option.some.inj hstep
    exact Or.inl ⟨rfl, le_refl _⟩
  | «open» id =>
    obtain rfl := Option.some.inj hstep
    refine Or.inl ⟨?_, le_refl _⟩
    dsimp only [Core.open]
    split <;> rfl
  | write id data =>
    rcases attempt_cases hstep with rfl | ⟨c, hc, rfl⟩
    · exact hsame
    rcases write_cases hc with rfl | ⟨o, o', ops, -, -, rfl⟩
    · exact hsame
    · exact Or.inr ⟨_, rfl, rfl, rfl, trivial, trivial⟩
  | writeMetadata id data =>
    rcases attempt_cases hstep with rfl | ⟨c, hc, rfl⟩
    · exact hsame
    rcases writeMetadata_cases hc with rfl | ⟨o, o', ops, ho, hm, rfl⟩
    · exact hsame
    · exact Or.inr ⟨_, rfl, rfl, rfl, metadata_orderly h.stands ho (Or.inl rfl) hm,
        metadata_formed h.stands ho (Or.inl rfl) hm⟩
  | tombstone id data =>
    rcases attempt_cases hstep with rfl | ⟨c, hc, rfl⟩
    · exact hsame
    rcases tombstone_cases hc with rfl | ⟨o, o', ops, ho, hpre, hm, rfl⟩
    · exact hsame
    · exact Or.inr ⟨_, rfl, rfl, rfl, metadata_orderly h.stands ho (Or.inr ⟨hpre, rfl⟩) hm,
        metadata_formed h.stands ho (Or.inr ⟨hpre, rfl⟩) hm⟩
  | put next prev ts =>
    rcases attempt_cases hstep with rfl | ⟨c, hc, rfl⟩
    · exact hsame
    rcases put_cases hc with rfl | ⟨n, p, n', p', ops, hn, hp, hput, rfl⟩
    · exact hsame
    · have hholds := hd n p _ hn hp hput
      exact Or.inr ⟨_, rfl, rfl, rfl, put_orderly h.stands hn hp hput hholds,
        put_formed h.stands hn hput hholds⟩
  | submit =>
    unfold Engine.step at hstep
    dsimp only at hstep
    split at hstep
    · contradiction
    · obtain rfl := Option.some.inj hstep
      exact Or.inl ⟨rfl, h.handed_le⟩
  | release id =>
    obtain rfl := Option.some.inj hstep
    change Extends r e { e with core := e.core.release id }
    cases ho : e.core.heap id with
    | none => exact Or.inl ⟨by simp only [Core.release, ho], le_refl _⟩
    | some o =>
      cases hrel : o.release with
      | none => exact Or.inl ⟨by simp only [Core.release, ho, hrel], le_refl _⟩
      | some ops =>
        exact Or.inr ⟨⟨o.name, ops, .remove id⟩, by simp only [Core.release, ho, hrel], rfl, rfl,
          trivial, trivial⟩

/-- What a run of moves starts from and keeps. -/
structure Grounded (r : Record) (s : Store) (e : Engine) : Prop where
  sound : Sound r s e
  apart : Apart e.core
  orderly : ∀ k t, e.core.log[k]? = some t → Orderly (r.after (e.core.log.take k)) t
  formed : ∀ k t, e.core.log[k]? = some t → Formed (r.after (e.core.log.take k)) t

theorem grounded_start (h : Swept r s) (last : UInt64) : Grounded r s (Engine.start s last) := by
  have hnil : ∀ k, (Engine.start s last).core.log[k]? = none := fun _ => List.getElem?_nil
  refine ⟨sound_start h last, apart_start s last, fun k t ht => ?_, fun k t ht => ?_⟩
  all_goals
    rw [hnil] at ht
    contradiction

theorem move_extends {m : Move} (h : Sound r s e) (hm : Allowed r e m)
    (hstep : move e m = some e') : Extends r e e' := by
  cases m with
  | call call => exact call_extends h hm.1 hstep
  | hand => exact hand_extends hstep

theorem grounded_move {m : Move} (h : Grounded r s e) (hm : Allowed r e m)
    (hstep : move e m = some e') : Grounded r s e' := by
  have hplaced : ∀ k t, e'.core.log[k]? = some t →
      Orderly (r.after (e'.core.log.take k)) t ∧ Formed (r.after (e'.core.log.take k)) t := by
    intro k t ht
    rcases move_extends h.sound hm hstep with ⟨hlog, -⟩ | ⟨u, hlog, -, -, hu⟩
    · rw [hlog] at ht ⊢
      exact ⟨h.orderly k t ht, h.formed k t ht⟩
    · rw [hlog] at ht ⊢
      rcases getElem?_concat_cases ht with ⟨ht, htake⟩ | ⟨rfl, htake⟩
      · rw [htake]
        exact ⟨h.orderly k t ht, h.formed k t ht⟩
      · rw [htake]
        exact hu
  have horderly := fun k t ht => (hplaced k t ht).1
  have hformed := fun k t ht => (hplaced k t ht).2
  cases m with
  | call call =>
    have hapart := hm.2 e' hstep
    exact ⟨(sound_step h.sound h.apart hm.1 hstep hapart).1, hapart, horderly, hformed⟩
  | hand =>
    have hcore : e'.core = e.core := by
      rcases hand_cases hstep with rfl | ⟨t, store, -, -, rfl⟩ <;> rfl
    exact ⟨sound_hand h.sound hstep, hcore ▸ h.apart, horderly, hformed⟩

/-- Nothing prepared, and the Objects still stand for the same. -/
theorem grounded_unprepared (h : Grounded r s e) {c : Core} (hlog : c.log = e.core.log)
    (hstands : Stands c (Engine.record r e)) (ha : Apart c) :
    Grounded r s { e with core := c } := by
  refine ⟨sound_unprepared h.sound hlog hstands, ha, ?_, ?_⟩
  · intro k t
    rw [hlog]
    exact h.orderly k t
  · intro k t
    rw [hlog]
    exact h.formed k t

/-! What a move does to an Object that can be read. -/

/-- The Objects that can be read. -/
def Legible (o : Object) : Prop := o.state = .active ∨ o.state = .old

instance (o : Object) : Decidable (Legible o) := inferInstanceAs (Decidable (_ ∨ _))

/-- Whose versions in the temporary space a transaction is about. -/
def Concerns (id : ℕ) : Note → Prop
  | .write i _ _ => i = id
  | .header i _ _ => i = id
  | .put i j _ _ => i = id ∨ j = id
  | .remove i => i = id

/-- A metadata write in place. -/
def Rewrites (name : Name) (t : Txn) : Prop :=
  match t.note with
  | .header _ stat _ => stat.state = .active ∧ stat.name = name
  | _ => False

theorem temp_unconcerned (r : Record) {id : ℕ} {note : Note} (h : ¬ Concerns id note) :
    (r.apply note).temp id = r.temp id := by
  cases note with
  | write i stat data => exact Record.setTemp_of_ne _ _ fun heq => h heq.symm
  | header i stat blob =>
    simp only [Record.apply]
    split
    · rfl
    · exact Record.setTemp_of_ne _ _ fun heq => h heq.symm
  | remove i => exact Record.setTemp_of_ne _ _ fun heq => h heq.symm
  | put i j name ts =>
    have hi : id ≠ i := fun heq => h (Or.inl heq.symm)
    have hj : id ≠ j := fun heq => h (Or.inr heq.symm)
    have hretire : (r.retire j name).temp id = r.temp id := by
      unfold Record.retire
      split
      · rfl
      · exact Record.setTemp_of_ne _ _ hj
    simp only [Record.apply]
    unfold Record.place
    split
    · exact hretire
    · exact (Record.setTemp_of_ne _ _ hi).trans hretire

/-- A transaction names the temporary address of an Object nowhere. -/
def Avoids (o : Object) (t : Txn) : Prop := ∀ op ∈ t.ops, temporary o.name o.ts ∉ op.addresses

/-- Changes at ordinary addresses, and at a temporary one that another Object has. -/
theorem avoids_other {o p : Object} {t : Txn}
    (h : ∀ op ∈ t.ops, ∀ a ∈ op.addresses, a = ordinary p.name ∨ a = temporary p.name p.ts)
    (hne : ¬ (o.name = p.name ∧ o.ts = p.ts)) : Avoids o t := by
  intro op hop ha
  rcases h op hop _ ha with heq | heq
  · exact absurd heq (temporary_ne_ordinary _ _ _)
  · exact hne (temporary_inj.mp heq)

/-- Two Objects that have entries in the temporary space have them apart. -/
theorem apart_addresses {c : Core} (h : Apart c) {i j : ℕ} {o p : Object}
    (ho : c.heap i = some o) (hp : c.heap j = some p) (hto : InTemp o) (htp : InTemp p)
    (hij : i ≠ j) : ¬ (o.name = p.name ∧ o.ts = p.ts) :=
  fun heq => hij (h i j o p ho hp hto htp heq.1 heq.2)

theorem write_addresses {o o' : Object} {data : Bytes} {ops : List Op}
    (h : o.write data = .ok (o', ops)) :
    ∀ op ∈ ops, ∀ a ∈ op.addresses, a = ordinary o.name ∨ a = temporary o.name o.ts := by
  obtain ⟨hstate, -, rfl⟩ := write_ok h
  have haddr := writing_address hstate
  have haddr' : address { o.toStat with state := .inWrite } = temporary o.name o.ts := rfl
  intro op hop a ha
  have hops : op ∈ [EntryStore.Op.touch (address o.toStat),
      save { o with state := .inWrite }.toStat, .write (address o.toStat) o.written data] := by
    split at hop
    · exact hop
    · exact List.mem_cons_of_mem _ (List.mem_cons_of_mem _ hop)
  simp only [List.mem_cons, List.not_mem_nil, or_false] at hops
  rcases hops with rfl | rfl | rfl
  · exact Or.inr ((List.mem_singleton.mp ha).trans haddr)
  · exact Or.inr ((List.mem_singleton.mp ha).trans haddr')
  · exact Or.inr ((List.mem_singleton.mp ha).trans haddr)

theorem metadata_addresses {o o' : Object} {data : Bytes} {ops : List Op}
    (h : o.writeMetadata data = .ok (o', ops)) :
    ∀ op ∈ ops, ∀ a ∈ op.addresses,
      a = ordinary o.name ∨ Writing o ∧ a = temporary o.name o.ts := by
  obtain ⟨hstate, ho', hops⟩ := writeMetadata_ok h
  intro op hop a ha
  have hplace : a = address o.toStat ∨ a = address o'.toStat := by
    have hall : op ∈ [EntryStore.Op.touch (address o.toStat), .setheader (address o.toStat) data,
        save o'.toStat] := by
      rw [hops] at hop
      split at hop
      · exact hop
      · exact List.mem_cons_of_mem _ hop
    simp only [List.mem_cons, List.not_mem_nil, or_false] at hall
    rcases hall with rfl | rfl | rfl
    · exact Or.inl (List.mem_singleton.mp ha)
    · exact Or.inl (List.mem_singleton.mp ha)
    · exact Or.inr (List.mem_singleton.mp ha)
  rcases hstate with hpre | hin | hactive
  · rw [if_pos hpre] at ho'
    have haddr : address o'.toStat = temporary o.name o.ts := by rw [ho']; rfl
    rw [writing_address (Or.inl hpre), haddr, or_self] at hplace
    exact Or.inr ⟨Or.inl hpre, hplace⟩
  · rw [if_neg (by simp [hin])] at ho'
    rw [ho', writing_address (Or.inr hin), or_self] at hplace
    exact Or.inr ⟨Or.inr hin, hplace⟩
  · rw [if_neg (by simp [hactive])] at ho'
    rw [ho', address_active hactive, or_self] at hplace
    exact Or.inl hplace

theorem handOver_addresses {n p : Object} {ts : ℕ} (hn : n.state = .inWrite)
    (hname : p.name = n.name) :
    ∀ op ∈ Backend.handOverOps n p ts, ∀ a ∈ op.addresses, a = ordinary n.name ∨
      a = temporary n.name n.ts ∨ p.state = .active ∧ a = temporary p.name p.ts := by
  have hfrom : address n.toStat = temporary n.name n.ts := writing_address (Or.inr hn)
  have hto : address (Backend.settle n ts).toStat = ordinary n.name := address_active rfl
  intro op hop a ha
  unfold Backend.handOverOps at hop
  rcases List.mem_append.mp hop with hout | hin
  · split at hout
    swap
    · contradiction
    rename_i hactive
    have hout' : address p.toStat = ordinary n.name := by rw [address_active hactive, hname]
    have hmoved : address (Backend.retire p).toStat = temporary p.name p.ts := by
      simp only [Backend.retire, hactive, if_true]
      rfl
    simp only [List.mem_cons, List.not_mem_nil, or_false] at hout
    rcases hout with rfl | rfl
    · simp only [EntryStore.Op.addresses, List.mem_cons, List.not_mem_nil, or_false] at ha
      rcases ha with rfl | rfl
      · exact Or.inl hout'
      · exact Or.inr (Or.inr ⟨hactive, hmoved⟩)
    · exact Or.inr (Or.inr ⟨hactive, (List.mem_singleton.mp ha).trans hmoved⟩)
  · simp only [List.mem_cons, List.not_mem_nil, or_false] at hin
    rcases hin with rfl | rfl
    · simp only [EntryStore.Op.addresses, List.mem_cons, List.not_mem_nil, or_false] at ha
      rcases ha with rfl | rfl
      · exact Or.inr (Or.inl hfrom)
      · exact Or.inl hto
    · exact Or.inl ((List.mem_singleton.mp ha).trans hto)

theorem release_addresses {o : Object} {ops : List Op} (h : o.release = some ops) :
    InTemp o ∧ ∀ op ∈ ops, ∀ a ∈ op.addresses, a = ordinary o.name ∨ a = temporary o.name o.ts := by
  unfold Object.release at h
  split at h
  · rename_i hstate
    obtain rfl := Option.some.inj h
    refine ⟨hstate, fun op hop a ha => Or.inr ?_⟩
    obtain rfl := List.mem_singleton.mp hop
    rw [List.mem_singleton.mp ha]
    rcases hstate with h | h <;> exact address_temp (by rw [h]; rfl)
  · contradiction

/-- To an Object that is kept: nothing; a transaction of other Objects; a
metadata write of its own; the put that retires it. -/
inductive Meanwhile (r : Record) (e : Engine) (m : Move) (e' : Engine) (id : ℕ) (o : Object) : Prop
  | still (hlog : e'.core.log = e.core.log) (hhanded : e.handed ≤ e'.handed)
      (ho : e'.core.heap id = some o)
  | other (t : Txn) (hlog : e'.core.log = e.core.log ++ [t]) (hhanded : e'.handed = e.handed)
      (hord : Orderly (Engine.record r e) t) (ho : e'.core.heap id = some o)
      (hconcerns : ¬ Concerns id t.note) (hrewrites : Rewrites o.name t → o.state = .old)
      (havoids : o.state = .old → Avoids o t)
  | posted (name : Name) (ops : List Op) (blob : Bytes) (hmove : m = .call (.writeMetadata id blob))
      (hlog : e'.core.log = e.core.log ++ [⟨name, ops, .header id o.toStat blob⟩])
      (hhanded : e'.handed = e.handed) (hactive : o.state = .active)
      (ho : e'.core.heap id = some { o with done := some e.core.log.length })
  | retired (name : Name) (ops : List Op) (next ts : ℕ)
      (hlog : e'.core.log = e.core.log ++ [⟨name, ops, .put next id o.name ts⟩])
      (hhanded : e'.handed = e.handed)
      (hord : Orderly (Engine.record r e) ⟨name, ops, .put next id o.name ts⟩)
      (hactive : o.state = .active) (hnewer : o.ts < ts)
      (ho : e'.core.heap id = some { o with state := .old })

theorem Legible.not_writing {o : Object} (h : Legible o) : ¬ Writing o := by
  rintro (hw | hw) <;> rcases h with h | h <;> simp [h] at hw

/-- A metadata write, of another Object or of the Object itself. -/
theorem metadata_meanwhile {c : Core} {i id : ℕ} {o p p₁ p' : Object} {data : Bytes}
    {ops : List Op} (h : Sound r s e) (ho : e.core.heap id = some o) (hleg : Legible o)
    (hp : e.core.heap i = some p)
    (hsame : p₁ = p ∨ p.state = .preWrite ∧ p₁ = { p with deleted := true })
    (hm : p₁.writeMetadata data = .ok (p', ops)) {m : Move}
    (hmove : p.state = .preWrite ∨ m = .call (.writeMetadata i data))
    (hc : c = e.core.prepared i p' ⟨p.name, ops, .header i p'.toStat data⟩) (hapart : Apart c) :
    Meanwhile r e m { e with core := c } id o := by
  subst hc
  have hord := metadata_orderly h.stands hp hsame hm
  by_cases hi : i = id
  · subst hi
    obtain rfl := Option.some.inj (ho.symm.trans hp)
    have hnot : ¬ o.state = .preWrite := fun hpre => hleg.not_writing (Or.inl hpre)
    obtain rfl := hsame.resolve_right fun hpre => hnot hpre.1
    obtain ⟨hstate, rfl, -⟩ := writeMetadata_ok hm
    have hactive : p₁.state = .active :=
      (hstate.resolve_left hnot).resolve_left fun hin => hleg.not_writing (Or.inr hin)
    rw [if_neg hnot]
    exact .posted p₁.name ops data (hmove.resolve_left hnot) rfl rfl hactive (update_self ..)
  · have ho' : (e.core.prepared i p' ⟨p.name, ops, .header i p'.toStat data⟩).heap id = some o :=
      (update_of_ne (Ne.symm hi) _ _).trans ho
    refine .other _ rfl rfl hord ho' hi (fun hrew => ?_) fun hold => ?_
    swap
    · intro op hop ha
      have hsame : p₁.name = p.name ∧ p₁.ts = p.ts := by
        rcases hsame with rfl | ⟨-, rfl⟩ <;> exact ⟨rfl, rfl⟩
      rcases metadata_addresses hm op hop _ ha with heq | ⟨hwriting, heq⟩
      · exact absurd heq (temporary_ne_ordinary _ _ _)
      · obtain ⟨hname, hts⟩ := temporary_inj.mp heq
        obtain ⟨rfl, -⟩ := draft_ops hm hwriting
        exact apart_addresses hapart ho' (update_self ..) (Or.inr hold) (Or.inl rfl) (Ne.symm hi)
          ⟨hname, hts⟩
    -- two ACTIVE Objects of a name are one
    obtain ⟨hactive, hname⟩ := hrew
    refine hleg.resolve_left fun hact => hi ?_
    have hpost : p'.state = .active → p.state = .active ∧ p'.name = p.name := by
      intro hactive
      obtain ⟨-, rfl, -⟩ := writeMetadata_ok hm
      split at hactive
      · contradiction
      rename_i hnot
      rw [if_neg hnot]
      rcases hsame with rfl | ⟨hpre, rfl⟩
      · exact ⟨hactive, rfl⟩
      · exact absurd hpre hnot
    obtain ⟨hpact, hpname⟩ := hpost hactive
    exact h.stands.one i id p o hp ho hpact hact (hpname.symm.trans hname)

theorem put_meanwhile {c : Core} {i j id : ℕ} {o n p n' p' : Object} {ts : Option ℕ}
    {ops : List Op} (h : Sound r s e) (ho : e.core.heap id = some o) (hleg : Legible o)
    (hn : e.core.heap i = some n) (hp : e.core.heap j = some p)
    (hput : Backend.put 0 n p ts = .ok (n', p', ops)) (hholds : Holds (Engine.record r e) p)
    (m : Move) (hc : c = { e.core with heap := update e.core.heap j (some p') }.prepared i n'
      ⟨n.name, ops, .put i j n.name (ts.getD n.ts)⟩) (hapart : Apart e.core) (hapart' : Apart c) :
    Meanwhile r e m { e with core := c } id o := by
  subst hc
  have hord := put_orderly h.stands hn hp hput hholds
  obtain ⟨hin, hstate, hname, hnewer, rfl, rfl, rfl⟩ := put_ok hput
  have hi : id ≠ i := by
    rintro rfl
    obtain rfl := Option.some.inj (ho.symm.trans hn)
    exact hleg.not_writing (Or.inr hin)
  by_cases hj : id = j
  · subst hj
    obtain rfl := Option.some.inj (ho.symm.trans hp)
    have hactive : o.state = .active := by
      rcases hleg with h | h
      · exact h
      · rcases hstate with h' | h' <;> simp [h] at h'
    have hretire : Backend.retire o = { o with state := .old } := by
      simp only [Backend.retire, hactive, if_true]
    refine .retired n.name (Backend.handOverOps n o (ts.getD n.ts)) i (ts.getD n.ts) ?_ rfl ?_
      hactive hnewer ?_
    · rw [← hname]
      rfl
    · rw [← hname]
      exact hord
    · rw [← hretire]
      exact (update_of_ne hi _ _).trans (update_self ..)
  · have ho' : ({ e.core with heap := update e.core.heap j (some (Backend.retire p)) }.prepared i
        (Backend.settle n (ts.getD n.ts)) ⟨n.name, Backend.handOverOps n p (ts.getD n.ts),
          .put i j n.name (ts.getD n.ts)⟩).heap id = some o :=
      ((update_of_ne hi _ _).trans (update_of_ne hj _ _)).trans ho
    refine .other _ rfl rfl hord ho' (fun hconcerns => ?_) (fun hrew => by contradiction)
      fun hold op hop ha => ?_
    · rcases hconcerns with h | h
      · exact hi h.symm
      · exact hj h.symm
    · rcases handOver_addresses hin hname.symm op hop _ ha with heq | heq | ⟨hactive, heq⟩
      · exact absurd heq (temporary_ne_ordinary _ _ _)
      · exact apart_addresses hapart ho hn (Or.inr hold) (Or.inl hin) hi (temporary_inj.mp heq)
      · have hretire : Backend.retire p = { p with state := .old } := by
          simp only [Backend.retire, hactive, if_true]
        have hij : j ≠ i := by
          rintro rfl
          obtain rfl := Option.some.inj (hn.symm.trans hp)
          rw [hin] at hactive
          contradiction
        have hp' := (update_of_ne hij
          (some { Backend.settle n (ts.getD n.ts) with done := some e.core.log.length }) _).trans
            (update_self j (some (Backend.retire p)) e.core.heap)
        exact apart_addresses hapart' ho' hp' (Or.inr hold) (by rw [hretire]; exact Or.inr rfl) hj
          (by rw [hretire]; exact temporary_inj.mp heq)

theorem call_meanwhile {call : Call} (h : Sound r s e) (hapart : Apart e.core)
    (hd : Driven r e call) (hstep : e.step call = some e') {id : ℕ} {o : Object}
    (ho : e.core.heap id = some o) (hleg : Legible o) (hkeep : call ≠ .release id) :
    Meanwhile r e (.call call) e' id o := by
  have hapart' := hd.2 e' hstep
  have hsame : Meanwhile r e (.call call) e id o := .still rfl (le_refl _) ho
  have hfresh : id ≠ e.core.fresh := Nat.ne_of_lt (h.stands.lt_fresh ho)
  cases call with
  | create name ts us =>
    obtain rfl := Option.some.inj hstep
    exact .still rfl (le_refl _) ((update_of_ne hfresh _ _).trans ho)
  | find name =>
    obtain rfl := Option.some.inj hstep
    exact .still rfl (le_refl _) ((update_of_ne hfresh _ _).trans ho)
  | «open» i =>
    obtain rfl := Option.some.inj hstep
    cases hp : e.core.heap i with
    | none =>
      have hopen : (e.core.open e.store i).1 = e.core := by simp only [Core.open, hp]
      rw [hopen]
      exact hsame
    | some p =>
      have hopen : (e.core.open e.store i).1 =
          { e.core with heap := update e.core.heap i (some (p.open e.store).1) } := by
        simp only [Core.open, hp]
      rw [hopen]
      refine .still rfl (le_refl _) ?_
      by_cases hi : id = i
      · subst hi
        obtain rfl := Option.some.inj (ho.symm.trans hp)
        rcases open_state e.store o with hopened | ⟨hpre, -⟩
        · rw [hopened]
          exact update_self ..
        · rcases hleg with h | h <;> simp [h] at hpre
      · exact (update_of_ne hi _ _).trans ho
  | write i data =>
    rcases attempt_cases hstep with rfl | ⟨c, hc, rfl⟩
    · exact hsame
    rcases write_cases hc with rfl | ⟨p, p', ops, hp, hw, rfl⟩
    · exact hsame
    · have hi : id ≠ i := by
        rintro rfl
        obtain rfl := Option.some.inj (ho.symm.trans hp)
        exact hleg.not_writing (write_ok hw).1
      have ho' : (e.core.prepared i p' ⟨p.name, ops, .write i p'.toStat data⟩).heap id = some o :=
        (update_of_ne hi _ _).trans ho
      refine .other _ rfl rfl trivial ho' (Ne.symm hi) (fun hrew => by contradiction) fun hold =>
        avoids_other (write_addresses hw) ?_
      obtain ⟨-, rfl, -⟩ := write_ok hw
      exact fun heq =>
        apart_addresses hapart' ho' (update_self ..) (Or.inr hold) (Or.inl rfl) hi heq
  | writeMetadata i data =>
    rcases attempt_cases hstep with rfl | ⟨c, hc, rfl⟩
    · exact hsame
    rcases writeMetadata_cases hc with rfl | ⟨p, p', ops, hp, hm, hc⟩
    · exact hsame
    · exact metadata_meanwhile h ho hleg hp (Or.inl rfl) hm (Or.inr rfl) hc hapart'
  | tombstone i data =>
    rcases attempt_cases hstep with rfl | ⟨c, hc, rfl⟩
    · exact hsame
    rcases tombstone_cases hc with rfl | ⟨p, p', ops, hp, hpre, hm, hc⟩
    · exact hsame
    · exact metadata_meanwhile h ho hleg hp (Or.inr ⟨hpre, rfl⟩) hm (Or.inl hpre) hc hapart'
  | put next prev ts =>
    rcases attempt_cases hstep with rfl | ⟨c, hc, rfl⟩
    · exact hsame
    rcases put_cases hc with rfl | ⟨n, p, n', p', ops, hn, hp, hput, hc⟩
    · exact hsame
    · exact put_meanwhile h ho hleg hn hp hput (hd.1 n p _ hn hp hput) _ hc hapart hapart'
  | submit =>
    unfold Engine.step at hstep
    dsimp only at hstep
    split at hstep
    · contradiction
    · obtain rfl := Option.some.inj hstep
      exact .still rfl h.handed_le ho
  | release i =>
    obtain rfl := Option.some.inj hstep
    change Meanwhile r e _ { e with core := e.core.release i } id o
    have hi : id ≠ i := by
      rintro rfl
      exact hkeep rfl
    cases hp : e.core.heap i with
    | none =>
      have hrel : e.core.release i = e.core := by simp only [Core.release, hp]
      rw [hrel]
      exact hsame
    | some p =>
      have hheap : (e.core.release i).heap id = some o := by
        simp only [Core.release, hp]
        exact (update_of_ne hi _ _).trans ho
      cases hrel : p.release with
      | none => exact .still (by simp only [Core.release, hp, hrel]) (le_refl _) hheap
      | some ops =>
        obtain ⟨htemp, haddr⟩ := release_addresses hrel
        exact .other ⟨p.name, ops, .remove i⟩ (by simp only [Core.release, hp, hrel]) rfl trivial
          hheap (Ne.symm hi) (fun hrew => by contradiction) fun hold =>
            avoids_other haddr (apart_addresses hapart ho hp (Or.inr hold) htemp hi)

theorem move_meanwhile {m : Move} {id : ℕ} {o : Object} (h : Grounded r s e)
    (hm : Sparing r id e m) (hstep : move e m = some e') (ho : e.core.heap id = some o)
    (hleg : Legible o) : Meanwhile r e m e' id o := by
  cases m with
  | call call => exact call_meanwhile h.sound h.apart hm.1 hstep ho hleg fun heq => hm.2 (heq ▸ rfl)
  | hand =>
    rcases hand_cases hstep with rfl | ⟨t, store, -, -, rfl⟩
    · exact .still rfl (le_refl _) ho
    · exact .still rfl (Nat.le_succ _) ho

/-! How an Object comes to be read: a search finds it, or a put places it. -/

inductive Arrives (e e' : Engine) (id : ℕ) (o : Object) : Prop
  | found (hlog : e'.core.log = e.core.log) (hhanded : e'.handed = e.handed)
      (hactive : o.state = .active) (hqueue : ∀ t ∈ e.queue, t.name ≠ o.name)
  | placed (name : Name) (ops : List Op) (prev : ℕ)
      (hlog : e'.core.log = e.core.log ++ [⟨name, ops, .put id prev o.name o.ts⟩])
      (hhanded : e'.handed = e.handed) (hactive : o.state = .active)
      (hdone : o.done = some e.core.log.length)

theorem open_name (s : Store) (o : Object) : (o.open s).1.name = o.name := by
  by_cases hpre : o.state = .preSearch
  · have hreq : o.require "open" [.preSearch] = .ok () := require_of_mem (by simp [hpre])
    have haddr : address { o with state := .inSearch }.toStat = ordinary o.name := rfl
    cases hload : load s (ordinary o.name) with
    | error err =>
      cases err with
      | noEntry => simp only [Object.open, hreq, haddr, hload]
      | undecodable => simp only [Object.open, hreq, haddr, hload]
    | ok stored =>
      have hname : stored.name = o.name := by
        unfold load at hload
        split at hload
        · contradiction
        · split at hload
          · contradiction
          · rw [← Except.ok.inj hload]
            rfl
      simp only [Object.open, hreq, haddr, hload, hname]
  · have hreq : o.require "open" [.preSearch] = .error (.state "open" o.name o.state) :=
      require_error (by simpa using hpre)
    simp only [Object.open, hreq]

theorem metadata_arrives {i id : ℕ} {o p p₁ p' : Object} {data : Bytes} {ops : List Op} {t : Txn}
    (hp : e.core.heap i = some p)
    (hsame : p₁ = p ∨ p.state = .preWrite ∧ p₁ = { p with deleted := true })
    (hm : p₁.writeMetadata data = .ok (p', ops))
    (hnew : ∀ p, e.core.heap id = some p → ¬ Legible p)
    (ho : (e.core.prepared i p' t).heap id = some o) : ¬ Legible o := by
  rcases heap_update ho with ⟨rfl, heq⟩ | ⟨-, ho⟩
  · obtain rfl := Option.some.inj heq
    have hnot := hnew p hp
    obtain ⟨hstate, rfl, -⟩ := writeMetadata_ok hm
    rcases hsame with rfl | ⟨hpre, rfl⟩
    · rcases hstate with h | h | h
      · simp [h, Legible]
      · simp [h, Legible]
      · exact absurd (Or.inl h) hnot
    · simp [hpre, Legible]
  · exact hnew o ho

theorem call_arrives {call : Call} (hd : Disciplined r e call) (hstep : e.step call = some e')
    {id : ℕ} {o : Object} (hnew : ∀ p, e.core.heap id = some p → ¬ Legible p)
    (ho : e'.core.heap id = some o) (hleg : Legible o) : Arrives e e' id o := by
  have hold : ∀ {p : Object}, e.core.heap id = some p → p = o → False := by
    rintro p hp rfl
    exact hnew p hp hleg
  cases call with
  | create name ts us =>
    obtain rfl := Option.some.inj hstep
    rcases heap_update ho with ⟨-, heq⟩ | ⟨-, ho⟩
    · obtain rfl := Option.some.inj heq
      simp [Legible, Backend.create] at hleg
    · exact (hold ho rfl).elim
  | find name =>
    obtain rfl := Option.some.inj hstep
    rcases heap_update ho with ⟨-, heq⟩ | ⟨-, ho⟩
    · obtain rfl := Option.some.inj heq
      simp [Legible, Backend.find] at hleg
    · exact (hold ho rfl).elim
  | «open» i =>
    obtain rfl := Option.some.inj hstep
    cases hp : e.core.heap i with
    | none =>
      have hopen : (e.core.open e.store i).1 = e.core := by simp only [Core.open, hp]
      dsimp only at ho
      rw [hopen] at ho
      exact (hold ho rfl).elim
    | some p =>
      have hopen : (e.core.open e.store i).1 =
          { e.core with heap := update e.core.heap i (some (p.open e.store).1) } := by
        simp only [Core.open, hp]
      dsimp only at ho
      rw [hopen] at ho ⊢
      rcases heap_update ho with ⟨rfl, heq⟩ | ⟨-, ho⟩
      · have heq := Option.some.inj heq
        rcases open_state e.store p with hsame | ⟨hpre, hstate⟩
        · exact (hold hp (hsame.symm.trans heq)).elim
        · rw [heq] at hstate
          have hactive : o.state = .active := by
            rcases hstate with h | h | h
            · rcases hleg with h' | h' <;> simp [h] at h'
            · rcases hleg with h' | h' <;> simp [h] at h'
            · exact h
          have hname : o.name = p.name := heq ▸ open_name e.store p
          exact .found rfl rfl hactive (hname ▸ (hd p hp hpre).1)
      · exact (hold ho rfl).elim
  | write i data =>
    rcases attempt_cases hstep with rfl | ⟨c, hc, rfl⟩
    · exact (hold ho rfl).elim
    rcases write_cases hc with rfl | ⟨p, p', ops, hp, hw, rfl⟩
    · exact (hold ho rfl).elim
    · rcases heap_update ho with ⟨-, heq⟩ | ⟨-, ho⟩
      · obtain ⟨-, rfl, -⟩ := write_ok hw
        obtain rfl := Option.some.inj heq
        simp [Legible] at hleg
      · exact (hold ho rfl).elim
  | writeMetadata i data =>
    rcases attempt_cases hstep with rfl | ⟨c, hc, rfl⟩
    · exact (hold ho rfl).elim
    rcases writeMetadata_cases hc with rfl | ⟨p, p', ops, hp, hm, rfl⟩
    · exact (hold ho rfl).elim
    · exact absurd hleg (metadata_arrives hp (Or.inl rfl) hm hnew ho)
  | tombstone i data =>
    rcases attempt_cases hstep with rfl | ⟨c, hc, rfl⟩
    · exact (hold ho rfl).elim
    rcases tombstone_cases hc with rfl | ⟨p, p', ops, hp, hpre, hm, rfl⟩
    · exact (hold ho rfl).elim
    · exact absurd hleg (metadata_arrives hp (Or.inr ⟨hpre, rfl⟩) hm hnew ho)
  | put next prev ts =>
    rcases attempt_cases hstep with rfl | ⟨c, hc, rfl⟩
    · exact (hold ho rfl).elim
    rcases put_cases hc with rfl | ⟨n, p, n', p', ops, hn, hp, hput, rfl⟩
    · exact (hold ho rfl).elim
    · obtain ⟨hin, hstate, hname, -, rfl, rfl, rfl⟩ := put_ok hput
      rcases heap_update ho with ⟨rfl, heq⟩ | ⟨-, ho⟩
      · obtain rfl := Option.some.inj heq
        exact .placed _ _ _ rfl rfl rfl rfl
      rcases heap_update ho with ⟨rfl, heq⟩ | ⟨-, ho⟩
      · obtain rfl := Option.some.inj heq
        rcases hstate with hactive | hmiss
        · exact absurd (Or.inl hactive) (hnew p hp)
        · have hretire : Backend.retire p = p := by simp [Backend.retire, hmiss]
          rw [hretire] at hleg
          exact absurd hleg (hnew p hp)
      · exact (hold ho rfl).elim
  | submit =>
    unfold Engine.step at hstep
    dsimp only at hstep
    split at hstep
    · contradiction
    · obtain rfl := Option.some.inj hstep
      exact (hold ho rfl).elim
  | release i =>
    obtain rfl := Option.some.inj hstep
    dsimp only [Core.release] at ho
    split at ho
    · exact (hold ho rfl).elim
    · rcases heap_update ho with ⟨-, heq⟩ | ⟨-, ho⟩
      · contradiction
      · exact (hold ho rfl).elim

theorem move_arrives {m : Move} (hm : Allowed r e m) (hstep : move e m = some e') {id : ℕ}
    {o : Object} (hnew : ∀ p, e.core.heap id = some p → ¬ Legible p)
    (ho : e'.core.heap id = some o) (hleg : Legible o) : Arrives e e' id o := by
  cases m with
  | call call => exact call_arrives hm.1 hstep hnew ho hleg
  | hand =>
    have hcore : e'.core = e.core := by
      rcases hand_cases hstep with rfl | ⟨t, store, -, -, rfl⟩ <;> rfl
    rw [hcore] at ho
    exact absurd hleg (hnew o ho)

/-! A run on given moves can be checked. -/

def allows (r : Record) (e : Engine) : Move → Bool
  | .call call => drives r e call
  | .hand => true

theorem numbered_move {m : Move} (h : Numbered e.core) (hstep : move e m = some e') :
    Numbered e'.core := by
  cases m with
  | call call => exact numbered_step h hstep
  | hand => rcases hand_cases hstep with rfl | ⟨t, store, -, -, rfl⟩ <;> exact h

theorem allowed_of_allows {m : Move} (hc : Numbered e.core) (h : allows r e m = true) :
    Allowed r e m := by
  cases m with
  | call call =>
    obtain ⟨hchecked, hapart⟩ := Bool.and_eq_true_iff.mp h
    refine ⟨disciplined_of_checked hc hchecked, fun e' hstep => ?_⟩
    rw [hstep] at hapart
    exact (apart_iff (numbered_step hc hstep)).mp hapart
  | hand => trivial

theorem along_allowed {ms : List Move} (hc : Numbered e.core)
    (h : Along move (fun e m => allows r e m = true) e ms) : Along move (Allowed r) e ms :=
  Along.imp (I := fun e => Numbered e.core) (fun _ _ _ => numbered_move)
    (fun _ _ => allowed_of_allows) hc h

end Swiftacular.EngineMoves
