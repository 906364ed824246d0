import Swiftacular.PreparedLog

/-!
The queue and the store refine the Objects. In a run with the Device's
discipline and the temporary addresses apart, what is still queued turns the
store into a rendering of the record, at every point, exactly as long as no
put takes a next version written at the timestamp of the holder it replaces.
-/
namespace Swiftacular.StoreRefinement

open Function EntryStore EngineObjects Versions EngineRuns StepRuns LiveObjects PreparedLog

/-- The record is the Objects': an IN_WRITE or OLD Object has its version, an
ACTIVE one is the holder. With the queue handed over, the store is the record's. -/
def Refined (r : Record) (e : Engine) : Prop :=
  Stands e.core (Engine.record r e) ∧
    ∃ t, Engine.drained e = some t ∧ Renders (Engine.record r e) t

/-- `Refined` at every point of a run. -/
def Refines (r : Record) (e : Engine) (calls : List Call) : Prop :=
  ∀ k, ∃ e', e.run (calls.take k) = some e' ∧ Refined r e'

theorem drained_prepared {e : Engine} (hle : e.handed ≤ e.core.log.length) {c : Core} {t : Txn}
    (hlog : c.log = e.core.log ++ [t]) :
    Engine.drained { e with core := c } = (Engine.drained e).bind fun u => applyAll u t.ops := by
  have hqueue : Engine.queue { e with core := c } = e.queue ++ [t] := by
    change c.log.drop e.handed = _
    rw [hlog, List.drop_append_of_le_length hle]
    rfl
  unfold Engine.drained
  rw [hqueue, opsOf_concat, applyAll_append]

/-- After a put of a version written at the holder's timestamp the store stops. -/
theorem tied_stops {r : Record} {s : Store} {e e' : Engine} (h : Sound r s e) {i j : ℕ}
    {ts : Option ℕ} {n p : Object} {result : Object × Object × List Op}
    (hn : e.core.heap i = some n) (hp : e.core.heap j = some p)
    (hput : Backend.put 0 n p ts = .ok result) (htie : p.state = .active ∧ n.ts = p.ts)
    (hstep : e.step (.put i j ts) = some e') : Engine.drained e' = none := by
  obtain ⟨n', p', ops⟩ := result
  obtain ⟨hin, -, hname, -⟩ := put_ok hput
  let c := { e.core with heap := update e.core.heap j (some p') }.prepared i n'
    ⟨n.name, ops, .put i j n.name (ts.getD n.ts)⟩
  have hcall : e.core.put i j ts = .ok c := by
    unfold Core.put
    rw [hn, hp]
    dsimp only
    rw [hput]
    rfl
  have hafter : e' = { e with core := c } := by
    unfold Engine.step at hstep
    dsimp only at hstep
    rw [hcall] at hstep
    exact (Option.some.inj hstep).symm
  rw [hafter, drained_prepared h.handed_le rfl]
  cases hu : Engine.drained e with
  | none => rfl
  | some u =>
    have hr := h.renders hu
    obtain ⟨v, hv, hstat, -⟩ := (h.stands.drafts i n hn).draft hin
    refine put_collides hr hput (h.stands.drafts j p hp) htie.1 ?_
    have hentry := hr.version i v hv
    rw [hstat, hname, htie.2] at hentry
    rw [hentry]
    rfl

/-- One call keeps the refinement exactly if it is not such a put. -/
theorem refined_step {r : Record} {s : Store} {e : Engine} {call : Call} (h : Sound r s e)
    (ha : Apart e.core) (hr : Refined r e) (hd : Driven r e call) :
    (∃ e', e.step call = some e' ∧ Refined r e') ↔ Untied e call := by
  obtain ⟨-, t, ht, -⟩ := hr
  constructor
  · rintro ⟨e', hstep, -, u, hu, -⟩
    cases call with
    | put next prev ts =>
      intro n p result hn hp hput htie
      rw [tied_stops h hn hp hput htie hstep] at hu
      contradiction
    | _ => trivial
  · intro huntied
    have hopen : (Engine.drained e).isSome := by
      rw [ht]
      rfl
    obtain ⟨e', hstep⟩ := step_exists e fun _ => hopen
    obtain ⟨hsound, hcarries⟩ := sound_step h ha hd.1 hstep (hd.2 e' hstep)
    obtain ⟨u, hu⟩ := Option.isSome_iff_exists.mp (hcarries huntied hopen)
    exact ⟨e', hstep, hsound.stands, u, hu, hsound.renders hu⟩

theorem refined_run {r : Record} {s : Store} {e : Engine} {calls : List Call} (h : Sound r s e)
    (ha : Apart e.core) (hr : Refined r e) (hd : Keeps (Driven r) e calls) :
    Refines r e calls ↔ Keeps Untied e calls := by
  induction calls generalizing e with
  | nil => exact ⟨fun _ => trivial, fun _ k => ⟨e, by rw [List.take_nil]; rfl, hr⟩⟩
  | cons call rest ih =>
    obtain ⟨hcall, hrest⟩ := hd
    have hone := refined_step h ha hr hcall
    constructor
    · intro hall
      have hfirst : ∃ e', e.step call = some e' ∧ Refined r e' := by
        obtain ⟨e', hrun, hr'⟩ := hall 1
        obtain ⟨u, hu, hend⟩ := run_cons_some hrun
        obtain rfl := Option.some.inj hend
        exact ⟨u, hu, hr'⟩
      refine ⟨hone.mp hfirst, fun u hu => ?_⟩
      obtain ⟨e', hstep, hr'⟩ := hfirst
      obtain rfl := Option.some.inj (hu.symm.trans hstep)
      have hapart := hcall.2 u hu
      refine (ih (sound_step h ha hcall.1 hu hapart).1 hapart hr' (hrest u hu)).mp fun k => ?_
      obtain ⟨v, hrun, hv⟩ := hall (k + 1)
      obtain ⟨w, hw, hend⟩ := run_cons_some hrun
      obtain rfl := Option.some.inj (hu.symm.trans hw)
      exact ⟨v, hend, hv⟩
    · rintro ⟨huntied, huntieds⟩ k
      cases k with
      | zero => exact ⟨e, rfl, hr⟩
      | succ k =>
        obtain ⟨u, hu, hr'⟩ := hone.mpr huntied
        have hapart := hcall.2 u hu
        obtain ⟨v, hrun, hv⟩ := (ih (sound_step h ha hcall.1 hu hapart).1 hapart hr'
          (hrest u hu)).mpr (huntieds u hu) k
        refine ⟨v, ?_, hv⟩
        simp only [List.take_succ_cons, Engine.run, run, hu, Option.bind_some, hrun]

theorem refined_start {r : Record} {s : Store} (h : Swept r s) (last : UInt64) :
    Refined r (Engine.start s last) := ⟨(sound_start h last).stands, s, rfl, h.renders⟩

/-! Every run from an empty store. -/

def empty (last : UInt64) : Engine := Engine.start (fun _ => none) last

theorem queue_refines (last : UInt64) (calls : List Call)
    (h : Keeps (Driven Record.empty) (empty last) calls) :
    Refines Record.empty (empty last) calls ↔ Keeps Untied (empty last) calls :=
  refined_run (sound_start swept_empty last) (apart_start _ last) (refined_start swept_empty last) h

instance (e : Engine) : ∀ call, Decidable (Untied e call)
  | .put next prev ts =>
      match hn : e.core.heap next, hp : e.core.heap prev with
      | some n, some p =>
          match hput : Backend.put 0 n p ts with
          | .ok result => decidable_of_iff (¬ (p.state = .active ∧ n.ts = p.ts))
              ⟨fun h n' p' _ hn' hp' _ => by
                  obtain rfl := Option.some.inj (hn.symm.trans hn')
                  obtain rfl := Option.some.inj (hp.symm.trans hp')
                  exact h,
                fun h => h n p result hn hp hput⟩
          | .error e => isTrue fun n' p' result hn' hp' hput' => by
              obtain rfl := Option.some.inj (hn.symm.trans hn')
              obtain rfl := Option.some.inj (hp.symm.trans hp')
              rw [hput] at hput'
              contradiction
      | none, _ => isTrue fun n' p' result hn' => by rw [hn] at hn'; contradiction
      | _, none => isTrue fun n' p' result _ hp' => by rw [hp] at hp'; contradiction
  | .create .. | .find _ | .open _ | .write .. | .writeMetadata .. | .tombstone .. | .submit
  | .release _ => isTrue trivial

/-- A name put twice and read in between, the first version retired and
released at the end; the next version is written at estimate `second`. -/
def replaced (second : ℕ) : List Call :=
  [.create "a/c/o" (some 5) 0, .write 0 [1, 2], .writeMetadata 0 [9], .submit, .find "a/c/o",
    .open 1, .put 0 1 (some 200), .create "a/c/o" (some second) 0, .write 2 [3], .write 2 [4],
    .submit, .put 2 0 (some 300), .submit, .release 0, .submit]

theorem queue_refines_replaced : Refines Record.empty (empty 0) (replaced 250) :=
  (queue_refines 0 (replaced 250)
    (driven_of_drives (fun _ _ => rfl) (by decide +kernel))).mpr (by decide +kernel)

/-- Written at the timestamp the holder has, the next version is where the
holder is to be moved, and the store stops. -/
theorem tied_replaced : Keeps (Driven Record.empty) (empty 0) (replaced 200) ∧
    ¬ Refines Record.empty (empty 0) (replaced 200) := by
  have hdriven : Keeps (Driven Record.empty) (empty 0) (replaced 200) :=
    driven_of_drives (fun _ _ => rfl) (by decide +kernel)
  have htied : ¬ Keeps Untied (empty 0) (replaced 200) := by decide +kernel
  refine ⟨hdriven, fun h => htied ?_⟩
  exact (refined_run (sound_start swept_empty 0) (apart_start _ 0) (refined_start swept_empty 0)
    hdriven).mp h

end Swiftacular.StoreRefinement
