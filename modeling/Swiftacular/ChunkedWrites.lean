import Swiftacular.PreparedLog
import Swiftacular.RangedReads
import Swiftacular.WrittenEntries

/-!
A body written a chunk at a time and put, over nothing or over an older version
of its name, with no other request on the name. What other names do in between
leaves the entries of this one alone, so they are followed by themselves
through the queue to the store and into the reads.
-/
namespace Swiftacular.ChunkedWrites

open Function EntryStore EngineObjects Versions EngineRuns PreparedLog RangedReads WrittenEntries
open Piles (laid)

/-- A call for Objects of other names. -/
def Foreign (name : Name) (e : Engine) : Call → Prop
  | .create n _ _ | .find n => n ≠ name
  | .open id | .write id _ | .writeMetadata id _ | .tombstone id _ | .release id =>
      ∀ o, e.core.heap id = some o → o.name ≠ name
  | .put i j _ => ∀ id ∈ [i, j], ∀ o, e.core.heap id = some o → o.name ≠ name
  | .submit => True

/-- A name's own calls, made in their order with those for other names, and
submits, anywhere between them. -/
inductive Between (name : Name) : Engine → List Call → Engine → Prop
  | done (e : Engine) : Between name e [] e
  | own {e e' e'' : Engine} {call : Call} {rest : List Call} : e.step call = some e' →
      Between name e' rest e'' → Between name e (call :: rest) e''
  | other {e e' e'' : Engine} {call : Call} {calls : List Call} : Foreign name e call →
      e.step call = some e' → Between name e' calls e'' → Between name e calls e''

/-- What may come after a PUT before the next request on its name: calls for
other names, submits, and Objects that are dropped, the replaced one too. -/
inductive After (name : Name) : Engine → Engine → Prop
  | done (e : Engine) : After name e e
  | other {e e' e'' : Engine} {call : Call} : Foreign name e call → e.step call = some e' →
      After name e' e'' → After name e e''
  | dropped {e e' e'' : Engine} (id : ℕ) : e.step (.release id) = some e' → After name e' e'' →
      After name e e''

/-- `BluestoreDiskFileWriter`: its Object, its size, and what its digest was fed. -/
structure Writer where
  object : ℕ
  size : ℕ
  fed : Bytes

namespace Writer

def new (id : ℕ) : Writer := ⟨id, 0, []⟩

/-- `write`, and the calls it makes on the engine. -/
def write (w : Writer) (chunk : Bytes) : Writer × List Call :=
  ({ w with size := w.size + chunk.length, fed := w.fed ++ chunk },
    [.write w.object chunk, .submit])

def writeAll (w : Writer) : List Bytes → Writer × List Call
  | [] => (w, [])
  | chunk :: rest =>
      let written := w.write chunk
      let all := written.1.writeAll rest
      (all.1, written.2 ++ all.2)

def chunksFinished (hexdigest : Bytes → String) (w : Writer) : ℕ × String :=
  (w.size, hexdigest w.fed)

/-- `put`, as `BluestoreDevice.put` makes it over the Object the name resolves to. -/
def put (w : Writer) (prev : ℕ) (blob : Bytes) (ts : ℕ) : List Call :=
  [.writeMetadata w.object blob, .put w.object prev (some ts), .submit]

end Writer

/-- A PUT of a name: the search for it, then the writer's Object, its chunks
and its put. -/
def Puts (name : Name) (chunks : List Bytes) (blob : Bytes) (ts : ℕ) (e e' : Engine) (id : ℕ) :
    Prop :=
  ∃ e₁ e₂ e₃ e₄ us, Between name e [] e₁ ∧ e₁.step (.find name) = some e₂ ∧
    Between name e₂ [.open e₁.core.fresh] e₃ ∧ e₃.step (.create name none us) = some e₄ ∧
    id = e₃.core.fresh ∧
    Between name e₄ (((Writer.new id).writeAll chunks).2 ++
      ((Writer.new id).writeAll chunks).1.put e₁.core.fresh blob ts) e'

/-- Of a name the store has at most one version, an older one, and nothing that
is being written or was replaced. -/
structure Older (name : Name) (ts : ℕ) (s : Store) : Prop where
  others : ∀ a, a.name = name → a ≠ ordinary name → s a = none
  holder : ∀ x, s (ordinary name) = some x → ∃ k, x.attrs = some k ∧ k.ts < ts

/-- The entries of a name in the store, with nothing queued for them. -/
structure Settled (name : Name) (f : Store) (e : Engine) : Prop where
  store : ∀ a, a.name = name → e.store a = f a
  queue : ∀ op ∈ opsOf e.queue, ∀ a ∈ op.addresses, a.name ≠ name

/-- What holds a name in the store, with nothing queued that changes it. -/
structure Holding (name : Name) (x : Entry Attrs) (e : Engine) : Prop where
  handed : e.handed ≤ e.core.log.length
  store : e.store (ordinary name) = some x
  queue : ∀ op ∈ opsOf e.queue, ordinary name ∉ op.addresses

/-- The entries of a name once the queue is applied, if the store takes it all,
and some of its Objects. -/
structure Around (name : Name) (own : ℕ → Option Object) (f : Option Store) (e : Engine) :
    Prop where
  handed : e.handed ≤ e.core.log.length
  numbered : Numbered e.core
  named : ∀ i o, own i = some o → o.name = name
  objects : ∀ i o, own i = some o → e.core.heap i = some o
  entries : ∀ t, Engine.drained e = some t → ∃ u, f = some u ∧ ∀ a, a.name = name → t a = u a

variable {name : Name} {e e' : Engine} {call : Call} {own : ℕ → Option Object} {f : Option Store}
  {s u : Store}

theorem drained_concat {c : Core} {t : Txn} (hle : e.handed ≤ e.core.log.length)
    (hlog : c.log = e.core.log ++ [t]) :
    Engine.drained { e with core := c } =
      (Engine.drained e).bind fun s => applyAll s t.ops := by
  have hqueue : Engine.queue { e with core := c } = e.queue ++ [t] := by
    change c.log.drop e.handed = e.core.log.drop e.handed ++ [t]
    rw [hlog, List.drop_append_of_le_length hle]
  unfold Engine.drained
  rw [hqueue, opsOf_concat, applyAll_append]

theorem drained_same {c : Core} (hlog : c.log = e.core.log) :
    Engine.drained { e with core := c } = Engine.drained e := by
  have hqueue : Engine.queue { e with core := c } = e.queue := congrArg (List.drop e.handed) hlog
  unfold Engine.drained
  rw [hqueue]

/-- What a call for other names comes to: it hands the queue over, or prepares
at most one transaction of theirs, and leaves this name's Objects alone. -/
structure Elsewhere (name : Name) (e e' : Engine) : Prop where
  objects : ∀ i o, e.core.heap i = some o → o.name = name → e'.core.heap i = some o
  prepared : Engine.drained e = some e'.store ∧ e' = { e with handed := e.core.log.length, store := e'.store } ∨
    ∃ c, e' = { e with core := c } ∧ (c.log = e.core.log ∨
      ∃ t, c.log = e.core.log ++ [t] ∧ ∀ op ∈ t.ops, ∀ a ∈ op.addresses, a.name ≠ name)

theorem elsewhere_refl : Elsewhere name e e :=
  ⟨fun _ _ ho _ => ho, Or.inr ⟨e.core, rfl, Or.inl rfl⟩⟩

/-- A transaction prepared for an Object of another name. -/
theorem elsewhere_prepared {id : ℕ} {o o' : Object} {note : Note} {ops : List Op}
    (ho : e.core.heap id = some o) (hne : o.name ≠ name) (hnamed : Named ⟨o.name, ops, note⟩) :
    Elsewhere name e { e with core := e.core.prepared id o' ⟨o.name, ops, note⟩ } := by
  refine ⟨fun i p hp hname => ?_, Or.inr ⟨_, rfl, Or.inr ⟨_, rfl, fun op hop a ha => ?_⟩⟩⟩
  · have hi : i ≠ id := by
      rintro rfl
      rw [ho] at hp
      exact hne (Option.some.inj hp ▸ hname)
    exact (update_of_ne hi _ _).trans hp
  · rw [hnamed.1 op hop a ha]
    exact hne

theorem elsewhere_attempt {r : Except Error Core} (hs : e.attempt r = some e')
    (h : ∀ c, r = .ok c → Elsewhere name e { e with core := c }) : Elsewhere name e e' := by
  obtain rfl | ⟨c, hc, rfl⟩ := attempt_cases hs
  · exact elsewhere_refl
  · exact h c hc

/-- Nothing prepared, and at most one Object changed that is not the name's. -/
theorem elsewhere_unprepared {c : Core} (hlog : c.log = e.core.log)
    (hheap : ∀ i o, e.core.heap i = some o → o.name = name → c.heap i = some o) :
    Elsewhere name e { e with core := c } :=
  ⟨hheap, Or.inr ⟨c, rfl, Or.inl hlog⟩⟩

theorem update_other {h : ℕ → Option Object} {id : ℕ} (hid : ∀ o, h id = some o → o.name ≠ name)
    (p : Option Object) (i : ℕ) (o : Object) (ho : h i = some o) (hname : o.name = name) :
    update h id p i = some o := by
  have hi : i ≠ id := by
    rintro rfl
    exact hid o ho hname
  rw [update_of_ne hi, ho]

theorem foreign_step (hn : Numbered e.core) (hf : Foreign name e call)
    (hs : e.step call = some e') : Elsewhere name e e' := by
  have hnew : ∀ o, e.core.heap e.core.fresh = some o → o.name ≠ name := by
    intro o ho
    rw [hn e.core.fresh (le_refl _)] at ho
    contradiction
  cases call with
  | create n ts us =>
    obtain rfl := Option.some.inj hs
    exact elsewhere_unprepared rfl (update_other hnew _)
  | find n =>
    obtain rfl := Option.some.inj hs
    exact elsewhere_unprepared rfl (update_other hnew _)
  | «open» id =>
    obtain rfl := Option.some.inj hs
    unfold Core.open
    split
    · exact elsewhere_refl
    · exact elsewhere_unprepared rfl (update_other hf _)
  | write id data =>
    refine elsewhere_attempt hs fun c hc => ?_
    obtain rfl | ⟨o, o', ops, ho, hcall, rfl⟩ := write_cases hc
    · exact elsewhere_refl
    · exact elsewhere_prepared ho (hf o ho) (named_write hcall)
  | writeMetadata id data =>
    refine elsewhere_attempt hs fun c hc => ?_
    obtain rfl | ⟨o, o', ops, ho, hcall, rfl⟩ := writeMetadata_cases hc
    · exact elsewhere_refl
    · exact elsewhere_prepared ho (hf o ho) (named_writeMetadata hcall)
  | tombstone id data =>
    refine elsewhere_attempt hs fun c hc => ?_
    obtain rfl | ⟨o, o', ops, ho, hstate, hcall, rfl⟩ := tombstone_cases hc
    · exact elsewhere_refl
    · have hnamed := @named_writeMetadata id _ _ _ _ hcall
      exact elsewhere_prepared ho (hf o ho) hnamed
  | put i j ts =>
    refine elsewhere_attempt hs fun c hc => ?_
    obtain rfl | ⟨n, p, n', p', ops, hi, hj, hcall, rfl⟩ := put_cases hc
    · exact elsewhere_refl
    · have hnamed := @named_put _ i j _ _ _ _ _ _ hcall
      refine ⟨fun k o hk hname => ?_, Or.inr ⟨_, rfl, Or.inr ⟨_, rfl, fun op hop a ha => ?_⟩⟩⟩
      · refine update_other (fun q hq => ?_) _ k o (update_other (hf j (by simp)) _ k o hk hname) hname
        rcases heap_update hq with ⟨-, hq⟩ | ⟨-, hq⟩
        · have hsame : p'.name = p.name := by
            obtain ⟨-, -, -, -, -, rfl, -⟩ := put_ok hcall
            unfold Backend.retire
            split <;> rfl
          rw [← Option.some.inj hq, hsame]
          exact hf j (by simp) p hj
        · exact hf i (by simp) q hq
      · rw [hnamed.1 op hop a ha]
        exact hf i (by simp) n hi
  | submit =>
    unfold Engine.step at hs
    dsimp only at hs
    split at hs
    · contradiction
    · rename_i s hs'
      obtain rfl := Option.some.inj hs
      exact ⟨fun _ _ ho _ => ho, Or.inl ⟨hs', rfl⟩⟩
  | release id =>
    obtain rfl := Option.some.inj hs
    unfold Core.release
    split
    · exact elsewhere_refl
    · rename_i o ho
      refine ⟨update_other hf none, Or.inr ⟨_, rfl, ?_⟩⟩
      cases hops : o.release with
      | none => exact Or.inl rfl
      | some ops =>
        refine Or.inr ⟨_, rfl, fun op hop a ha => ?_⟩
        rw [(@named_release id _ _ hops).1 op hop a ha]
        exact hf o ho

theorem around_elsewhere (h : Around name own f e) (he : Elsewhere name e e')
    (hn : Numbered e'.core) : Around name own f e' := by
  have hobjects : ∀ i o, own i = some o → e'.core.heap i = some o :=
    fun i o ho => he.objects i o (h.objects i o ho) (h.named i o ho)
  rcases he.prepared with ⟨hdrained, heq⟩ | ⟨c, rfl, hlog | ⟨t, hlog, hother⟩⟩
  · rw [heq] at hn hobjects ⊢
    refine ⟨le_refl _, hn, h.named, hobjects, fun s hs => ?_⟩
    have hempty : Engine.drained { e with handed := e.core.log.length, store := e'.store } =
        some e'.store := by
      unfold Engine.drained Engine.queue
      rw [List.drop_length]
      rfl
    obtain rfl := Option.some.inj (hs.symm.trans hempty)
    exact h.entries _ hdrained
  · refine ⟨?_, hn, h.named, hobjects, fun s hs => h.entries s (by rw [← hs, drained_same hlog])⟩
    rw [hlog]
    exact h.handed
  · refine ⟨?_, hn, h.named, hobjects, fun s hs => ?_⟩
    · rw [hlog, List.length_append]
      exact h.handed.trans (Nat.le_add_right _ _)
    · rw [drained_concat h.handed hlog] at hs
      obtain ⟨s₀, hs₀, happly⟩ := Option.bind_eq_some_iff.mp hs
      obtain ⟨u, hu, hsame⟩ := h.entries s₀ hs₀
      refine ⟨u, hu, fun a ha => ?_⟩
      rw [applyAll_other happly fun op hop hin => hother op hop a hin ha, hsame a ha]

theorem settled_elsewhere (h : Settled name u e) (hle : e.handed ≤ e.core.log.length)
    (he : Elsewhere name e e') : Settled name u e' ∧ e'.handed ≤ e'.core.log.length := by
  rcases he.prepared with ⟨hdrained, heq⟩ | ⟨c, rfl, hlog | ⟨t, hlog, hother⟩⟩
  · have hstore : ∀ a, a.name = name → e'.store a = u a := by
      intro a ha
      rw [applyAll_other hdrained fun op hop hin => h.queue op hop a hin ha, h.store a ha]
    rw [heq]
    refine ⟨⟨hstore, fun op hop => ?_⟩, le_refl _⟩
    unfold Engine.queue at hop
    rw [List.drop_length] at hop
    contradiction
  · have hqueue : Engine.queue { e with core := c } = e.queue := congrArg (List.drop e.handed) hlog
    refine ⟨⟨h.store, fun op hop => h.queue op (by rw [← hqueue]; exact hop)⟩, ?_⟩
    rw [hlog]
    exact hle
  · refine ⟨⟨h.store, fun op hop => ?_⟩, ?_⟩
    · have hqueue : Engine.queue { e with core := c } = e.queue ++ [t] := by
        change c.log.drop e.handed = e.core.log.drop e.handed ++ [t]
        rw [hlog, List.drop_append_of_le_length hle]
      rw [hqueue, opsOf_concat] at hop
      rcases List.mem_append.mp hop with hop | hop
      · exact h.queue op hop
      · exact hother op hop
    · rw [hlog, List.length_append]
      exact hle.trans (Nat.le_add_right _ _)

theorem Settled.around (h : Settled name u e) (hle : e.handed ≤ e.core.log.length)
    (hn : Numbered e.core) : Around name (fun _ => none) (some u) e where
  handed := hle
  numbered := hn
  named := fun i o ho => by contradiction
  objects := fun i o ho => by contradiction
  entries := fun s hs => ⟨u, rfl, fun a ha => by
    rw [applyAll_other hs fun op hop hin => h.queue op hop a hin ha, h.store a ha]⟩

/-! What holds a name, while nothing is asked of it. -/

/-- A transaction more that leaves the ordinary entry alone. -/
theorem holding_prepared {x : Entry Attrs} {c : Core} {t : Txn} (h : Holding name x e)
    (hlog : c.log = e.core.log ++ [t]) (hother : ∀ op ∈ t.ops, ordinary name ∉ op.addresses) :
    Holding name x { e with core := c } := by
  have hqueue : Engine.queue { e with core := c } = e.queue ++ [t] := by
    change c.log.drop e.handed = e.core.log.drop e.handed ++ [t]
    rw [hlog, List.drop_append_of_le_length h.handed]
  refine ⟨?_, h.store, fun op hop => ?_⟩
  · rw [hlog, List.length_append]
    exact h.handed.trans (Nat.le_add_right _ _)
  · rw [hqueue, opsOf_concat] at hop
    rcases List.mem_append.mp hop with hop | hop
    · exact h.queue op hop
    · exact hother op hop

theorem holding_unprepared {x : Entry Attrs} {c : Core} (h : Holding name x e)
    (hlog : c.log = e.core.log) : Holding name x { e with core := c } := by
  have hqueue : Engine.queue { e with core := c } = e.queue := congrArg (List.drop e.handed) hlog
  refine ⟨?_, h.store, fun op hop => h.queue op (by rw [← hqueue]; exact hop)⟩
  rw [hlog]
  exact h.handed

theorem holding_elsewhere {x : Entry Attrs} (h : Holding name x e) (he : Elsewhere name e e') :
    Holding name x e' := by
  rcases he.prepared with ⟨hdrained, heq⟩ | ⟨c, rfl, hlog | ⟨t, hlog, hother⟩⟩
  · have hstore : e'.store (ordinary name) = some x := by
      rw [applyAll_other hdrained h.queue, h.store]
    rw [heq]
    refine ⟨le_refl _, hstore, fun op hop => ?_⟩
    unfold Engine.queue at hop
    rw [List.drop_length] at hop
    contradiction
  · exact holding_unprepared h hlog
  · exact holding_prepared h hlog fun op hop hin => hother op hop _ hin rfl

/-- An Object that is dropped removes no ordinary entry. -/
theorem holding_release {x : Entry Attrs} {id : ℕ} (h : Holding name x e)
    (hs : e.step (.release id) = some e') : Holding name x e' := by
  obtain rfl := Option.some.inj hs
  unfold Core.release
  split
  · exact h
  · rename_i o ho
    cases hops : o.release with
    | none => exact holding_unprepared h rfl
    | some ops =>
      refine holding_prepared h rfl fun op hop hin => ?_
      unfold Object.release at hops
      split at hops
      · rename_i hstate
        obtain rfl := Option.some.inj hops
        obtain rfl := List.mem_singleton.mp hop
        have haddr : address o.toStat = temporary o.name o.ts := by
          apply address_temp
          rcases hstate with hstate | hstate <;> rw [hstate] <;> rfl
        rw [haddr] at hin
        exact absurd (List.mem_singleton.mp hin) (by simp [ordinary, temporary])
      · contradiction

theorem holding_after {x : Entry Attrs} (ha : After name e e') (h : Holding name x e)
    (hn : Numbered e.core) : Holding name x e' := by
  induction ha with
  | done e => exact h
  | other hforeign hstep _ ih =>
    exact ih (holding_elsewhere h (foreign_step hn hforeign hstep)) (numbered_step hn hstep)
  | dropped id hstep _ ih => exact ih (holding_release h hstep) (numbered_step hn hstep)

theorem after_between {calls : List Call} (hb : Between name e calls e') (hnil : calls = []) :
    After name e e' := by
  induction hb with
  | done e => exact .done e
  | own hstep hrest ih => contradiction
  | other hforeign hstep hrest ih => exact .other hforeign hstep (ih hnil)

/-- A name's own call, with what other names do before it. -/
theorem Between.next {calls : List Call} (h : Between name e calls e') :
    ∀ call rest, calls = call :: rest →
      ∃ e₁ e₂, Between name e [] e₁ ∧ e₁.step call = some e₂ ∧ Between name e₂ rest e' := by
  induction h with
  | done e => exact fun call rest heq => by contradiction
  | own hstep hrest ih =>
    intro call rest heq
    obtain ⟨rfl, rfl⟩ := List.cons.inj heq
    exact ⟨_, _, .done _, hstep, hrest⟩
  | other hforeign hstep hrest ih =>
    intro call rest heq
    obtain ⟨e₁, e₂, hbefore, hown, hafter⟩ := ih call rest heq
    exact ⟨e₁, e₂, .other hforeign hstep hbefore, hown, hafter⟩

theorem around_between {calls : List Call} (hb : Between name e calls e') (hnil : calls = [])
    (h : Around name own f e) : Around name own f e' := by
  induction hb with
  | done e => exact h
  | own hstep hrest ih => contradiction
  | other hforeign hstep hrest ih =>
    exact ih hnil (around_elsewhere h (foreign_step h.numbered hforeign hstep)
      (numbered_step h.numbered hstep))

theorem settled_between {calls : List Call} (hb : Between name e calls e') (hnil : calls = [])
    (h : Settled name u e) (hle : e.handed ≤ e.core.log.length) (hn : Numbered e.core) :
    Settled name u e' ∧ e'.handed ≤ e'.core.log.length ∧ Numbered e'.core := by
  induction hb with
  | done e => exact ⟨h, hle, hn⟩
  | own hstep hrest ih => contradiction
  | other hforeign hstep hrest ih =>
    obtain ⟨hsettled, hle'⟩ := settled_elsewhere h hle (foreign_step hn hforeign hstep)
    exact ih hnil hsettled hle' (numbered_step hn hstep)

/-! The name's own calls. -/

theorem entries_apply {s' : Store} {ops : List EngineObjects.Op}
    (hnames : ∀ op ∈ ops, ∀ a ∈ op.addresses, a.name = name)
    (hs : ∀ a, a.name = name → s a = u a) (h : applyAll s ops = some s') :
    ∃ u', applyAll u ops = some u' ∧ ∀ a, a.name = name → s' a = u' a := by
  have hfiltered := @applyAll_filter _ _ _ {a : Address | a.name = name}
    (fun a => inferInstanceAs (Decidable (a.name = name))) s u s' ops (fun _ => true)
    (fun op hop _ => hnames op hop) (fun _ _ h => by contradiction) hs h
  rwa [List.filter_true] at hfiltered

theorem around_prepared (h : Around name own f e) {id : ℕ} {o o' : Object} {note : Note}
    {ops : List EngineObjects.Op} (ho : own id = some o) (hnamed : Named ⟨o.name, ops, note⟩)
    (hname : o'.name = name) :
    Around name (update own id (some { o' with done := some e.core.log.length }))
      (f.bind fun u => applyAll u ops)
      { e with core := e.core.prepared id o' ⟨o.name, ops, note⟩ } := by
  have hlive := h.objects id o ho
  have hlog : (e.core.prepared id o' ⟨o.name, ops, note⟩).log = e.core.log ++ [⟨o.name, ops, note⟩] :=
    rfl
  refine ⟨?_, numbered_update h.numbered hlive _, fun i p hp => ?_, fun i p hp => ?_, fun s hs => ?_⟩
  · rw [hlog, List.length_append]
    exact h.handed.trans (Nat.le_add_right _ _)
  · rcases heap_update hp with ⟨-, hp⟩ | ⟨-, hp⟩
    · rw [← Option.some.inj hp]
      exact hname
    · exact h.named i p hp
  · rcases heap_update hp with ⟨rfl, hp'⟩ | ⟨hi, hp'⟩
    · exact (update_self ..).trans hp'
    · exact (update_of_ne hi _ _).trans (h.objects i p hp')
  · rw [drained_concat h.handed hlog] at hs
    obtain ⟨s₀, hs₀, hops⟩ := Option.bind_eq_some_iff.mp hs
    obtain ⟨u, rfl, hsame⟩ := h.entries s₀ hs₀
    refine entries_apply (fun op hop a ha => ?_) hsame hops
    rw [hnamed.1 op hop a ha]
    exact h.named id o ho

/-- An Object of the name changes, with nothing prepared. -/
theorem around_changed (h : Around name own f e) {id : ℕ} {o o' : Object} (ho : own id = some o)
    (hname : o'.name = name) : Around name (update own id (some o')) f
      { e with core.heap := update e.core.heap id (some o') } := by
  refine ⟨h.handed, numbered_update h.numbered (h.objects id o ho) _, fun i p hp => ?_,
    fun i p hp => ?_, h.entries⟩
  · rcases heap_update hp with ⟨-, hp⟩ | ⟨-, hp⟩
    · rw [← Option.some.inj hp]
      exact hname
    · exact h.named i p hp
  · rcases heap_update hp with ⟨rfl, hp'⟩ | ⟨hi, hp'⟩
    · exact (update_self ..).trans hp'
    · exact (update_of_ne hi _ _).trans (h.objects i p hp')

/-- What the search before a put has found of its name. -/
structure Found (name : Name) (ts : ℕ) (b : Store) (q : Object) : Prop where
  back : q.back = 0
  state : q.state = .active ∨ q.state = .missing
  older : q.ts < ts
  held : q.state = .active → (b (ordinary name)).isSome

/-- A writer at work over the store `b`: its Object, and its entry once it was
written to. -/
structure Drafting (name : Name) (id p ts : ℕ) (b : Store) (body : Bytes) (own : ℕ → Option Object)
    (o q : Object) (u : Store) (e : Engine) : Prop where
  around : Around name own (some u) e
  object : own id = some o
  prev : own p = some q
  apart : p ≠ id
  found : Found name ts b q
  fresh : o.back = 0 ∧ o.deleted = false ∧ o.written = body.length
  begun : Begun b (temporary name o.ts) body o.state u

theorem Drafting.name_eq {id p ts : ℕ} {b : Store} {body : Bytes} {o q : Object}
    (h : Drafting name id p ts b body own o q u e) : o.name = name :=
  h.around.named id o h.object

variable {id p ts : ℕ} {b : Store} {body : Bytes} {o q : Object}

theorem write_step {o' : Object} {data : Bytes} {ops : List EngineObjects.Op}
    (hlive : e.core.heap id = some o) (hcall : o.write data = .ok (o', ops)) :
    e.step (.write id data) = some { e with
      core := e.core.prepared id o' ⟨o.name, ops, .write id o'.toStat data⟩ } := by
  unfold Engine.step Core.write
  dsimp only
  rw [hlive]
  dsimp only
  rw [hcall]
  rfl

theorem writeMetadata_step {o' : Object} {data : Bytes} {ops : List EngineObjects.Op}
    (hlive : e.core.heap id = some o) (hcall : o.writeMetadata data = .ok (o', ops)) :
    e.step (.writeMetadata id data) = some { e with
      core := e.core.prepared id o' ⟨o.name, ops, .header id o'.toStat data⟩ } := by
  unfold Engine.step Core.writeMetadata
  dsimp only
  rw [hlive]
  dsimp only
  rw [hcall]
  rfl

theorem drafting_write {data : Bytes} (h : Drafting name id p ts b body own o q u e)
    (hs : e.step (.write id data) = some e') :
    ∃ own' o' u', Drafting name id p ts b (body ++ data) own' o' q u' e' := by
  have hwrite := write_eq h.begun.writing data
  obtain ⟨hback, hdeleted, hwritten⟩ := h.fresh
  obtain ⟨u', hops, hbegun⟩ := begun_write h.begun h.name_eq rfl hwritten data
  have hname : ({ o with state := .inWrite, written := o.written + data.length } : Object).name =
    name := h.name_eq
  have haround := around_prepared h.around h.object (@named_write id _ _ _ _ hwrite) hname
  rw [Option.bind_some, hops] at haround
  rw [write_step (h.around.objects id o h.object) hwrite] at hs
  obtain rfl := Option.some.inj hs
  refine ⟨_, _, u', haround, update_self .., ?_, h.apart, h.found, ⟨hback, hdeleted, ?_⟩, hbegun⟩
  · rw [update_of_ne h.apart]
    exact h.prev
  · rw [List.length_append, ← hwritten]

theorem drafting_between {calls : List Call} (hb : Between name e calls e') (hnil : calls = [])
    (h : Drafting name id p ts b body own o q u e) : Drafting name id p ts b body own o q u e' :=
  ⟨around_between hb hnil h.around, h.object, h.prev, h.apart, h.found, h.fresh, h.begun⟩

/-- A call in front of others: what comes before it is of other names. -/
theorem drafting_next {call : Call} {rest : List Call} (hb : Between name e (call :: rest) e')
    (h : Drafting name id p ts b body own o q u e) :
    ∃ e₁ e₂, Drafting name id p ts b body own o q u e₁ ∧ e₁.step call = some e₂ ∧
      Between name e₂ rest e' := by
  obtain ⟨e₁, e₂, hbefore, hstep, hafter⟩ := hb.next call rest rfl
  exact ⟨e₁, e₂, drafting_between hbefore rfl h, hstep, hafter⟩

theorem drafting_submit (h : Drafting name id p ts b body own o q u e)
    (hs : e.step .submit = some e') : Drafting name id p ts b body own o q u e' :=
  drafting_between (@Between.other name e e' e' .submit [] trivial hs (.done e')) rfl h

/-- The writer writes chunk after chunk at the offset it has come to. -/
theorem drafting_chunks {w : Writer} {chunks : List Bytes} {rest : List Call}
    (hw : w.object = id) (h : Drafting name id p ts b body own o q u e)
    (hb : Between name e ((w.writeAll chunks).2 ++ rest) e') :
    ∃ e₁ own' o' u', Drafting name id p ts b (body ++ chunks.flatten) own' o' q u' e₁ ∧
      Between name e₁ rest e' := by
  induction chunks generalizing w body own o u e with
  | nil => exact ⟨e, own, o, u, by simpa using h, hb⟩
  | cons chunk chunks ih =>
    have hcalls : (w.writeAll (chunk :: chunks)).2 =
        .write w.object chunk :: .submit :: ((w.write chunk).1.writeAll chunks).2 := rfl
    rw [hcalls, hw, List.cons_append, List.cons_append] at hb
    obtain ⟨e₁, e₂, h₁, hwrite, hb⟩ := drafting_next hb h
    obtain ⟨own', o', u', h₂⟩ := drafting_write h₁ hwrite
    obtain ⟨e₃, e₄, h₃, hsubmit, hb⟩ := drafting_next hb h₂
    obtain ⟨e₅, own'', o'', u'', h₅, hb⟩ :=
      @ih _ _ _ _ _ (w.write chunk).1 hw (drafting_submit h₃ hsubmit) hb
    exact ⟨e₅, own'', o'', u'', by rwa [List.flatten_cons, ← List.append_assoc], hb⟩

theorem chunksFinished_writeAll (hexdigest : Bytes → String) (w : Writer) (chunks : List Bytes) :
    (w.writeAll chunks).1.chunksFinished hexdigest =
      (w.size + chunks.flatten.length, hexdigest (w.fed ++ chunks.flatten)) := by
  induction chunks generalizing w with
  | nil => simp [Writer.writeAll, Writer.chunksFinished]
  | cons chunk chunks ih =>
    have hall : (w.writeAll (chunk :: chunks)).1 = ((w.write chunk).1.writeAll chunks).1 := rfl
    rw [hall, ih]
    simp only [Writer.write, List.flatten_cons, List.length_append, List.append_assoc,
      Nat.add_assoc]

theorem writeAll_object (w : Writer) (chunks : List Bytes) :
    (w.writeAll chunks).1.object = w.object := by
  induction chunks generalizing w with
  | nil => rfl
  | cons chunk chunks ih => exact ih (w.write chunk).1

/-- The Object has its metadata, and only its put is missing. -/
structure Finished (name : Name) (id p ts : ℕ) (b : Store) (body blob : Bytes)
    (own : ℕ → Option Object) (o q : Object) (e : Engine) : Prop where
  around : Around name own (some (completed b name o.ts false body blob)) e
  object : own id = some o
  prev : own p = some q
  apart : p ≠ id
  found : Found name ts b q
  state : o.state = .inWrite ∧ o.back = 0 ∧ o.deleted = false

theorem drafting_metadata {blob : Bytes} (h : Drafting name id p ts b body own o q u e)
    (hs : e.step (.writeMetadata id blob) = some e') :
    ∃ own' o', Finished name id p ts b body blob own' o' q e' := by
  have hwrite := writeMetadata_eq h.begun.writing blob
  obtain ⟨hback, hdeleted, -⟩ := h.fresh
  have hname : ({ o with state := .inWrite } : Object).name = name := h.name_eq
  have haround := around_prepared h.around h.object (@named_writeMetadata id _ _ _ _ hwrite) hname
  have hcompleted : completed b name o.ts o.deleted body blob = completed b name o.ts false body blob := by
    rw [hdeleted]
  rw [Option.bind_some, begun_header h.begun h.name_eq rfl blob, hcompleted] at haround
  rw [writeMetadata_step (h.around.objects id o h.object) hwrite] at hs
  obtain rfl := Option.some.inj hs
  refine ⟨_, { o with state := .inWrite, done := some e.core.log.length }, haround, update_self ..,
    ?_, h.apart, h.found, rfl, hback, hdeleted⟩
  rw [update_of_ne h.apart]
  exact h.prev

theorem finished_step {blob : Bytes} (h : Finished name id p ts b body blob own o q e)
    (hs : e.step (.put id p (some ts)) = some e') :
    ∃ own' o', Around name own'
        (applyAll (completed b name o.ts false body blob) (Backend.handOverOps o q ts)) e' ∧
      own' id = some o' ∧ o'.state = .active ∧ o'.ts = ts := by
  obtain ⟨hstate, hback, hdeleted⟩ := h.state
  have hname : o.name = name := h.around.named id o h.object
  have hqname : q.name = name := h.around.named p q h.prev
  have hretired : (Backend.retire q).name = name := by
    rw [← hqname]
    unfold Backend.retire
    split <;> rfl
  have hcall := put_eq (some ts) hstate h.found.state (hname.trans hqname.symm) hback h.found.back
  rw [Option.getD_some, if_neg (Nat.not_le_of_lt h.found.older)] at hcall
  have hchanged := around_changed h.around h.prev hretired
  have hstep : e.step (.put id p (some ts)) = some { e with
      core := ({ e.core with heap := update e.core.heap p (some (Backend.retire q)) } : Core).prepared
        id (Backend.settle o ts) ⟨o.name, Backend.handOverOps o q ts, .put id p o.name ts⟩ } := by
    unfold Engine.step Core.put
    dsimp only
    rw [h.around.objects id o h.object, h.around.objects p q h.prev]
    dsimp only
    rw [hcall]
    rfl
  rw [hstep] at hs
  obtain rfl := Option.some.inj hs
  have hnamed := @named_put 0 id p _ _ _ _ _ _ hcall
  have hsettled : (Backend.settle o ts).name = name := hname
  have hobject : update own p (some (Backend.retire q)) id = some o :=
    (update_of_ne h.apart.symm _ _).trans h.object
  exact ⟨_, _, around_prepared hchanged hobject hnamed hsettled, update_self .., rfl, rfl⟩

/-- With everything handed over, the store has what the queue gave. -/
theorem around_submit {x : Entry Attrs} (h : Around name own f e) (hs : e.step .submit = some e')
    (hf : ∀ v, f = some v → v (ordinary name) = some x) : Holding name x e' := by
  unfold Engine.step at hs
  dsimp only at hs
  split at hs
  · contradiction
  · rename_i s hdrained
    obtain rfl := Option.some.inj hs
    obtain ⟨v, hv, hsame⟩ := h.entries s hdrained
    refine ⟨le_refl _, (hsame _ rfl).trans (hf v hv), fun op hop => ?_⟩
    unfold Engine.queue at hop
    rw [List.drop_length] at hop
    contradiction

/-- What the store takes of a put brings the body to the ordinary address. -/
theorem finished_places {blob : Bytes} {v : Store} (h : Finished name id p ts b body blob own o q e)
    (hb : ∀ g, b (temporary name g) = none)
    (hv : applyAll (completed b name o.ts false body blob) (Backend.handOverOps o q ts) = some v) :
    v (ordinary name) = some ⟨body, blob, some ⟨ts, false, false⟩⟩ := by
  obtain ⟨hstate, -, hdeleted⟩ := h.state
  have hname : o.name = name := h.around.named id o h.object
  have hqname : q.name = name := h.around.named p q h.prev
  have hdraft : completed b name o.ts false body blob (temporary name o.ts) =
      some ⟨body, blob, some ⟨o.ts, false, false⟩⟩ := by
    unfold completed leftover
    rw [update_self, hb, Option.map_none, Option.getD_none, laid, List.drop_nil, List.append_nil]
  have hord : completed b name o.ts false body blob (ordinary name) = b (ordinary name) :=
    update_of_ne (by simp [ordinary, temporary]) _ _
  have hholder : q.state = .active → q.ts ≠ o.ts := by
    intro hactive
    refine handOver_apart hqname ?_ (by rw [hdraft]; rfl) hv hactive
    rw [hord]
    exact h.found.held hactive
  have hplaced := (handOver_places hname rfl hstate hqname hholder hdraft hv).1
  rwa [hdeleted] at hplaced

/-- From the writer's Object on, the calls of a PUT leave the name's entry with
the body, whatever other names do in between. -/
theorem drafting_puts {w : Writer} {chunks : List Bytes} {blob : Bytes} (hw : w.object = id)
    (h : Drafting name id p ts b [] own o q u e) (hvacant : ∀ g, b (temporary name g) = none)
    (hb : Between name e ((w.writeAll chunks).2 ++ (w.writeAll chunks).1.put p blob ts) e') :
    ∃ o', Holding name ⟨chunks.flatten, blob, some ⟨ts, false, false⟩⟩ e' ∧ Numbered e'.core ∧
      e'.core.heap id = some o' ∧ o'.name = name ∧ o'.state = .active ∧ o'.ts = ts := by
  obtain ⟨e₁, own₁, o₁, u₁, h₁, hb⟩ := drafting_chunks hw h hb
  rw [List.nil_append] at h₁
  have hput : (w.writeAll chunks).1.put p blob ts =
      [.writeMetadata id blob, .put id p (some ts), .submit] := by
    rw [Writer.put, writeAll_object, hw]
  rw [hput] at hb
  obtain ⟨e₂, e₃, h₂, hmeta, hb⟩ := drafting_next hb h₁
  obtain ⟨own₃, o₃, h₃⟩ := drafting_metadata h₂ hmeta
  obtain ⟨e₄, e₅, hbefore, hput, hb⟩ := hb.next _ _ rfl
  have h₄ : Finished name id p ts b chunks.flatten blob own₃ o₃ q e₄ :=
    ⟨around_between hbefore rfl h₃.around, h₃.object, h₃.prev, h₃.apart, h₃.found, h₃.state⟩
  obtain ⟨own₅, o₅, h₅, hid, hactive, hots⟩ := finished_step h₄ hput
  obtain ⟨e₆, e₇, hbefore, hsubmit, hb⟩ := hb.next _ _ rfl
  have h₆ := around_between hbefore rfl h₅
  have h₇ := around_elsewhere h₆ (foreign_step h₆.numbered (by trivial) hsubmit)
    (numbered_step h₆.numbered hsubmit)
  have hheld := around_submit h₆ hsubmit fun v hv => finished_places h₄ hvacant hv
  have h₈ := around_between hb rfl h₇
  exact ⟨o₅, holding_after (after_between hb rfl) hheld h₇.numbered, h₈.numbered,
    h₈.objects id o₅ hid, h₈.named id o₅ hid, hactive, hots⟩

/-! The search before the put, and the reads after it. -/

theorem settled_start (store : Store) (last : UInt64) :
    Settled name store (Engine.start store last) :=
  ⟨fun _ _ => rfl, fun op hop => by contradiction⟩

theorem numbered_start (store : Store) (last : UInt64) :
    Numbered (Engine.start store last).core := fun _ _ => rfl

/-- A new Object of the name. -/
theorem around_fresh (h : Around name own f e) {c : Core} {o : Object} (hname : o.name = name)
    (hheap : c.heap = update e.core.heap e.core.fresh (some o)) (hlog : c.log = e.core.log)
    (hn : Numbered c) :
    Around name (update own e.core.fresh (some o)) f { e with core := c } := by
  refine ⟨by rw [hlog]; exact h.handed, hn, fun i p hp => ?_, fun i p hp => ?_, fun s hs => ?_⟩
  · rcases heap_update hp with ⟨-, hp'⟩ | ⟨-, hp'⟩
    · rw [← Option.some.inj hp']
      exact hname
    · exact h.named i p hp'
  · change c.heap i = some p
    rw [hheap]
    rcases heap_update hp with ⟨rfl, hp'⟩ | ⟨hi, hp'⟩
    · exact (update_self ..).trans hp'
    · exact (update_of_ne hi _ _).trans (h.objects i p hp')
  · exact h.entries s (by rw [← hs, drained_same hlog])

/-- What a search finds of a name that has at most an older version. -/
theorem found_older (h : Older name ts b) (hts : 0 < ts) (hs : s (ordinary name) = b (ordinary name)) :
    Found name ts b ((Backend.find 0 name).open s).1 ∧
      ((Backend.find 0 name).open s).1.name = name := by
  rw [open_find]
  cases hx : b (ordinary name) with
  | none =>
    have hload : load s (ordinary name) = .error .noEntry := by rw [load, hs, hx]
    rw [hload]
    exact ⟨⟨rfl, Or.inr rfl, hts, fun hactive => by contradiction⟩, rfl⟩
  | some x =>
    obtain ⟨k, hk, hlt⟩ := h.holder x hx
    rw [load_held (hs.trans hx) hk]
    exact ⟨⟨rfl, Or.inl rfl, hlt, fun _ => by rw [hx]; rfl⟩, rfl⟩

/-- A search of a name that is put finds it as it was put. -/
theorem open_placed {s : Store} {body blob : Bytes} {ts : ℕ}
    (hs : s (ordinary name) = some ⟨body, blob, some ⟨ts, false, false⟩⟩) :
    ((Backend.find 0 name).open s).1.toStat = ⟨name, ts, false, .active⟩ := by
  have hreq : (Backend.find 0 name).require "open" [.preSearch] = .ok () :=
    require_of_mem (by simp [Backend.find])
  have haddr : address { Backend.find 0 name with state := .inSearch }.toStat = ordinary name := rfl
  have hload : load s (ordinary name) = .ok ⟨name, ts, false, .active⟩ := by
    rw [load, hs]
    rfl
  simp only [Object.open, hreq, haddr, hload]

/-- The search before a put finds nothing or the older version. -/
theorem puts_search {e₁ e₂ e₃ : Engine} (h : Older name ts b) (hts : 0 < ts) (hs : Settled name b e₁)
    (hle : e₁.handed ≤ e₁.core.log.length) (hn : Numbered e₁.core)
    (hfind : e₁.step (.find name) = some e₂)
    (hopen : Between name e₂ [.open e₁.core.fresh] e₃) :
    ∃ own q, Around name own (some b) e₃ ∧ own e₁.core.fresh = some q ∧ Found name ts b q := by
  have hn₂ := numbered_step hn hfind
  have h₂ : Around name (update (fun _ => none) e₁.core.fresh (some (Backend.find 0 name)))
      (some b) e₂ := by
    obtain rfl := Option.some.inj hfind
    exact around_fresh (hs.around hle hn) rfl rfl rfl hn₂
  have hs₂ : Settled name b e₂ ∧ e₂.handed ≤ e₂.core.log.length := by
    obtain rfl := Option.some.inj hfind
    exact ⟨⟨hs.store, hs.queue⟩, hle⟩
  obtain ⟨e₄, e₅, hbefore, hstep, hafter⟩ := hopen.next _ _ rfl
  have h₄ := around_between hbefore rfl h₂
  obtain ⟨hs₄, -, -⟩ := settled_between hbefore rfl hs₂.1 hs₂.2 hn₂
  have hown := update_self e₁.core.fresh (some (Backend.find 0 name)) fun _ : ℕ => none
  obtain ⟨hfound, hname⟩ := found_older h hts (hs₄.store (ordinary name) rfl)
  have hcore : e₅ = { e₄ with
      core.heap := update e₄.core.heap e₁.core.fresh
        (some ((Backend.find 0 name).open e₄.store).1) } := by
    obtain rfl := Option.some.inj hstep
    unfold Core.open
    rw [h₄.objects e₁.core.fresh _ hown]
  have h₅ := around_changed h₄ hown hname
  rw [← hcore] at h₅
  exact ⟨_, _, around_between hafter rfl h₅, update_self .., hfound⟩

/-- A PUT leaves the entry of its name with the whole body, for the Object of
its writer and for whoever searches the name. -/
theorem puts_placed {store : Store} {last : UInt64} {chunks : List Bytes} {blob : Bytes}
    (hstore : Older name ts store) (hts : 0 < ts)
    (hputs : Puts name chunks blob ts (Engine.start store last) e' id) :
    ∃ o', Holding name ⟨chunks.flatten, blob, some ⟨ts, false, false⟩⟩ e' ∧ Numbered e'.core ∧
      e'.core.heap id = some o' ∧ o'.name = name ∧ o'.state = .active ∧ o'.ts = ts := by
  obtain ⟨e₁, e₂, e₃, e₄, us, hbefore, hfind, hopen, hcreate, hid, hrest⟩ := hputs
  obtain ⟨hs₁, hle₁, hn₁⟩ := settled_between hbefore rfl (settled_start store last)
    (Nat.zero_le _) (numbered_start store last)
  obtain ⟨own, q, h₃, hq, hfound⟩ := puts_search hstore hts hs₁ hle₁ hn₁ hfind hopen
  have hapart : e₁.core.fresh ≠ id := by
    intro heq
    have hlive := h₃.objects _ _ hq
    rw [h₃.numbered _ (by rw [heq, hid])] at hlive
    contradiction
  have h₄ : Drafting name id e₁.core.fresh ts store [] (update own id (some (Backend.create 0 name
      (estimate e₃.core.last us).toNat))) (Backend.create 0 name (estimate e₃.core.last us).toNat)
      q store e₄ := by
    have hn₄ := numbered_step h₃.numbered hcreate
    obtain rfl := Option.some.inj hcreate
    rw [hid]
    refine ⟨around_fresh h₃ rfl rfl rfl hn₄, update_self .., ?_, by rwa [← hid], hfound,
      ⟨rfl, rfl, rfl⟩, Or.inl ⟨rfl, rfl, rfl⟩⟩
    rw [update_of_ne (by rwa [← hid])]
    exact hq
  exact @drafting_puts _ _ _ _ _ _ _ _ _ _ _ (Writer.new id) chunks blob rfl h₄
    (fun g => hstore.others _ rfl (by simp [ordinary, temporary])) hrest

/-- What is written in chunks and put is what a range read yields, in chunks
that are not empty and no longer than asked for. -/
theorem chunks_round_trip {store : Store} {last : UInt64} {chunks : List Bytes} {blob : Bytes}
    (hstore : Older name ts store) (hts : 0 < ts)
    (hputs : Puts name chunks blob ts (Engine.start store last) e' id)
    {chunkSize : ℕ} (hchunk : 0 < chunkSize) {looks : ℕ → Store}
    (hlooks : ∀ n, ∃ later, After name e' later ∧ looks n = later.store)
    (ho : e'.core.heap id = some o ∨
      ∃ later, After name e' later ∧ o = ((Backend.find 0 name).open later.store).1)
    (hexdigest : Bytes → String) (start stop : Option ℕ) {fuel : ℕ}
    (hfuel : chunks.flatten.length < fuel) :
    ((Writer.new id).writeAll chunks).1.chunksFinished hexdigest =
        (chunks.flatten.length, hexdigest chunks.flatten) ∧
      ∃ yielded, appIterRange looks chunkSize o start stop fuel = some (yielded, .ok ()) ∧
        yielded.flatten = slice chunks.flatten start stop ∧
        ∀ chunk ∈ yielded, chunk ≠ [] ∧ chunk.length ≤ chunkSize := by
  obtain ⟨o', hheld, hn, hlive, hname, hactive, hots⟩ := puts_placed hstore hts hputs
  have hlater : ∀ later, After name e' later → later.store (ordinary name) =
      some ⟨chunks.flatten, blob, some ⟨ts, false, false⟩⟩ :=
    fun later hafter => (holding_after hafter hheld hn).store
  have hstat : o.name = name ∧ o.state = .active ∧ o.ts = ts := by
    rcases ho with ho | ⟨later, hb, rfl⟩
    · obtain rfl := Option.some.inj (hlive.symm.trans ho)
      exact ⟨hname, hactive, hots⟩
    · have hfound := open_placed (hlater later hb)
      exact ⟨congrArg Stat.name hfound, congrArg Stat.state hfound, congrArg Stat.ts hfound⟩
  have haddr : address o.toStat = ordinary name := by
    rw [← hstat.1, address, hstat.2.1]
    rfl
  have hshown : Shown looks o chunks.flatten := by
    intro n
    obtain ⟨later, hb, hlook⟩ := hlooks n
    refine ⟨⟨chunks.flatten, blob, some ⟨ts, false, false⟩⟩, ⟨ts, false, false⟩, ?_, rfl, rfl,
      hstat.2.2.symm⟩
    rw [hlook, haddr]
    exact hlater later hb
  refine ⟨?_, appIterRange_yields hstat.2.1 hshown hchunk start stop hfuel⟩
  rw [chunksFinished_writeAll]
  simp [Writer.new]

theorem between_of_run {calls : List Call} (h : e.run calls = some e') : Between name e calls e' := by
  induction calls generalizing e with
  | nil =>
    obtain rfl := Option.some.inj h
    exact .done e
  | cons call rest ih =>
    obtain ⟨e₁, hstep, hrest⟩ := Option.bind_eq_some_iff.mp h
    exact .own hstep (ih hrest)

/-- A version of 3, and the ten milliseconds that make the first estimate 1000. -/
def olderStore : Store :=
  update (fun _ => none) (ordinary "a/c/o") (some ⟨[7, 7], [8], some ⟨3, false, false⟩⟩)

theorem olderStore_older : Older "a/c/o" 7 olderStore := by
  refine ⟨fun a _ ha => update_of_ne ha _ _, fun x hx => ?_⟩
  have hown : olderStore (ordinary "a/c/o") = some ⟨[7, 7], [8], some ⟨3, false, false⟩⟩ :=
    update_self ..
  obtain rfl := Option.some.inj (hown.symm.trans hx)
  exact ⟨⟨3, false, false⟩, rfl, by decide⟩

/-- A search of the name and a writer's Object. -/
def searched : Engine :=
  ⟨((((Engine.start olderStore 0).core.find "a/c/o").open olderStore 0).1.create "a/c/o" none 10000),
    0, olderStore⟩

def written : List Call :=
  ((Writer.new 1).writeAll [[1, 2], [], [3, 4, 5]]).2 ++
    ((Writer.new 1).writeAll [[1, 2], [], [3, 4, 5]]).1.put 0 [9] 7

/-- The replaced Object is dropped, and its entry removed, before the range is read. -/
theorem chunks_round_trip_range : ∃ e' later o yielded,
    Puts "a/c/o" [[1, 2], [], [3, 4, 5]] [9] 7 (Engine.start olderStore 0) e' 1 ∧
      After "a/c/o" e' later ∧ later.store (temporary "a/c/o" 3) = none ∧
      appIterRange (fun _ => later.store) 2 o (some 1) none 6 = some (yielded, .ok ()) ∧
      yielded.flatten = [2, 3, 4, 5] := by
  have hsome : (searched.run written).isSome := by decide +kernel
  obtain ⟨e', he'⟩ := Option.isSome_iff_exists.mp hsome
  have hputs : Puts "a/c/o" [[1, 2], [], [3, 4, 5]] [9] 7 (Engine.start olderStore 0) e' 1 :=
    ⟨_, _, _, _, 10000, .done _, rfl, .own rfl (.done _), rfl, rfl, between_of_run he'⟩
  have hgone : ((searched.run written).bind fun e => (e.run [.release 0, .submit]).map
      fun later => later.store (temporary "a/c/o" 3)) = some none := by decide +kernel
  rw [he', Option.bind_some] at hgone
  obtain ⟨later, hlater, hnone⟩ := Option.map_eq_some_iff.mp hgone
  obtain ⟨e₁, hdropped, hrest⟩ := Option.bind_eq_some_iff.mp hlater
  obtain ⟨e₂, hsubmit, hend⟩ := Option.bind_eq_some_iff.mp hrest
  obtain rfl := Option.some.inj hend
  have hafter : After "a/c/o" e' e₂ :=
    .dropped 0 hdropped
      (@After.other "a/c/o" e₁ e₂ e₂ .submit trivial hsubmit (.done e₂))
  obtain ⟨-, yielded, hyields, hflat, -⟩ := @chunks_round_trip "a/c/o" e' 1 7
    ((Backend.find 0 "a/c/o").open e₂.store).1 olderStore 0 [[1, 2], [], [3, 4, 5]] [9]
    olderStore_older (by omega) hputs 2 (by omega) (fun _ => e₂.store)
    (fun _ => ⟨e₂, hafter, rfl⟩) (Or.inr ⟨e₂, hafter, rfl⟩) (fun _ => "") (some 1) none 6
    (by decide)
  exact ⟨e', e₂, _, yielded, hputs, hafter, hnone, hyields, hflat⟩

end Swiftacular.ChunkedWrites
