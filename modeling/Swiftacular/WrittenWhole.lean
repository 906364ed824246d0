import Swiftacular.PreparedLog

/-!
A version is whole when it is put: its bytes are all that were ever written to
its Object, in the order they were written, wherever the log is cut after the
put. An Object that has been put is never written again.
-/
namespace Swiftacular.WrittenWhole

open Function EntryStore EngineObjects Versions EngineRuns StepRuns LiveObjects PreparedLog

def Note.bytesTo (id : ℕ) : Note → Bytes
  | .write i _ data => if i = id then data else []
  | _ => []

/-- All the bytes written to an Object. -/
def bytesOf (log : List Txn) (id : ℕ) : Bytes := log.flatMap fun t => Note.bytesTo id t.note

@[simp] theorem bytesOf_concat (log : List Txn) (t : Txn) (id : ℕ) :
    bytesOf (log ++ [t]) id = bytesOf log id ++ Note.bytesTo id t.note := by
  simp [bytesOf]

/-- The bytes of a version being written, none if it was not written yet. -/
def drafted (r : Record) (id : ℕ) : Bytes := ((r.temp id).map Version.data).getD []

/-- What a transaction asks of the Objects, for versions to stay whole. -/
structure Prepares (r : Record) (c c' : Core) (t : Txn) : Prop where
  log : c'.log = c.log ++ [t]
  fresh : c'.fresh = c.fresh
  writing : ∀ id o, c'.heap id = some o → Writing o → ∃ o₀, c.heap id = some o₀ ∧ Writing o₀
  write : ∀ id stat data, t.note = .write id stat data → ∃ o, c.heap id = some o ∧ Writing o
  put : ∀ i j n ts, t.note = .put i j n ts →
    (∃ o, c.heap i = some o ∧ Writing o) ∧ (∃ v, (r.after c.log).temp i = some v) ∧ i ≠ j ∧
      ∀ k o, k = i ∨ k = j → c'.heap k = some o → ¬ Writing o
  remove : ∀ id, t.note = .remove id → c'.heap id = none

end Swiftacular.WrittenWhole
