import Swiftacular.DecisionOrder

/-!
One Object holds a name. The map has it, or the search that has just found it;
every put is given it, every search tells of it, and so the engine is never
used against its rules and no put renames onto what is there.
-/
namespace Swiftacular.OneHolder

open Function EntryStore EngineObjects Versions EngineRuns LiveObjects HeldEntries PreparedLog
  DeviceRuns DeviceEngine DeviceWorld DeviceSteps DeviceInvariant DecisionOrder

/-- The map has the Object for its name. -/
def Mapped (w : World) (id : ℕ) (o : Object) : Prop := w.lookup o.name = some (.object id)

/-- The map has the search that found the Object, and that is to put it there next. -/
def Finding (w : World) (id : ℕ) (o : Object) : Prop :=
  ∃ t th, w.lookup o.name = some (.search t) ∧ w.threads t = some th ∧ th.name = o.name ∧
    th.frame = some (.searching id) ∧ th.native = none

structure Holding (r : Record) (w : World) : Prop where
  one : ∀ i j o p, w.core.heap i = some o → w.core.heap j = some p → o.state = .active →
    p.state = .active → o.name = p.name → i = j
  mapped : ∀ id o, w.core.heap id = some o → o.state = .active → Mapped w id o ∨ Finding w id o
  given : ∀ d, .decided d ∈ w.events → Current r w.core.log d
  searched : ∀ o time, .searched o time ∈ w.events →
    time ≤ w.core.log.length ∧ Holds (r.after (w.core.log.take time)) o
  proper : ∀ e, .raised e ∈ w.events → ¬ Misuse e
  lands : ∀ txn a n, w.core.log[w.handed]? = some txn →
    txn.ops[w.part]? = some (.rename a (ordinary n)) → w.store (ordinary n) = none

variable {conf : Conf} {G : Goal → Prop} {A : Answer → Option View → Prop} {r : Record}
  {s : EngineObjects.Store} {w : World}

/-- The next rename onto an ordinary address finds nothing there. -/
theorem landing_shown (h : Grounded conf G r s w) {txn : Txn} {a : Address} {n : Name}
    (htxn : w.core.log[w.handed]? = some txn)
    (hop : txn.ops[w.part]? = some (.rename a (ordinary n))) : w.store (ordinary n) = none := by
  obtain ⟨u, hu, hpart⟩ := h.shown.store
  rw [htxn, Option.map_some, Option.getD_some] at hpart
  exact h.engaged.kept.landing w.handed txn htxn u hu w.part a n hop w.store hpart

theorem mapped_or_finding (hm : Manned conf G A r w) {id : ℕ} {o : Object}
    (ho : w.core.heap id = some o) (hactive : o.state = .active) :
    Mapped w id o ∨ Finding w id o := by
  rcases hm.located id o ho hactive with hslot | hfound
  · left
    unfold Mapped World.lookup
    rw [hslot]
    simp [ho]
  · right
    obtain ⟨t, th, hth, hname, hframe, hnative⟩ := hfound
    have hslot := hm.searches t th hth (Or.inr ⟨id, hframe⟩)
    refine ⟨t, th, ?_, hth, hname, hframe, hnative⟩
    unfold World.lookup
    rw [← hname, hslot]
    simp [hth]

theorem one_holder (hs : Swept r s) (last : UInt64) {actions : List Action}
    (hrun : (World.start s last).run conf actions = some w) : Holding r w := by
  have h := running_any hs last hrun
  refine ⟨fun i j o p ho hp hactive hactive' hname => ?_,
    fun id o ho hactive => mapped_or_finding h.manned ho hactive, fun d hd => h.told _ hd,
    fun o time he => h.told _ he, fun e he => h.told _ he,
    fun txn a n htxn hop => landing_shown h.grounded htxn hop⟩
  exact h.grounded.engaged.stands.one i j o p ho hp hactive hactive' hname

theorem one_holder_raced : Holding Record.empty raced := one_holder swept_empty 0 raced_run

/-- Both requests end and their Objects are released; the next one's search
has found the name's Object, but the map does not have it yet. -/
def searching : List Action :=
  putting ++ posting ++ [.kill 0, .kill 2, .reap 0, .reap 2, .release 0, .release 1,
    .request "a/c/o", .ask 3 .open, .go 3 0, .go 4 0, .move 4]

def found : World :=
  ((World.start (fun _ => none) 0).run sample searching).get (by decide +kernel)

theorem not_mapped : (World.start (fun _ => none) 0).run sample searching = some found ∧
    ¬ ∀ id o, found.core.heap id = some o → o.state = .active → Mapped found id o := by
  refine ⟨(Option.some_get _).symm, fun hmapped => ?_⟩
  let o := (found.core.heap 2).get (by decide +kernel)
  have ho : found.core.heap 2 = some o := (Option.some_get _).symm
  have hactive : o.state = .active := by decide +kernel
  have hslot : found.lookup o.name = some (.search 4) := by decide +kernel
  have hobject := hmapped 2 o ho hactive
  unfold Mapped at hobject
  rw [hslot] at hobject
  simp at hobject

end Swiftacular.OneHolder
