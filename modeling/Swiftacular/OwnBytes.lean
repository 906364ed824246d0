import Swiftacular.AnchoredObjects
import Swiftacular.RangedReads

/-!
Whose bytes a read returns. It looks at the store twice, at the address the
Object has when the call is made, and others go on before, between and after.
The second look finds out what came in the Object's place; it cannot find out
that the Object itself came only after the first.
-/
namespace Swiftacular.OwnBytes

open Function EntryStore EngineObjects Versions EngineRuns LiveObjects PreparedLog HeldEntries
  EngineMoves StepRuns AnchoredObjects RangedReads

/-- The put that brings an Object to where it is looked for is still queued. -/
def Awaited (e : Engine) (id : ℕ) (o : Object) : Prop :=
  ∃ t ∈ e.queue, if o.state = .old then Retires id t else Places id o t

/-- A read fails, or returns what is in the data at the offset. -/
def OwnRead (data : Bytes) (o : Object) (offset size : ℕ) (result : Except Error Bytes) : Prop :=
  result = .error (.changed "read" o.name o.ts) ∨ result = .ok (extent data offset size)

variable {r : Record} {s : Store} {e e' : Engine} {id : ℕ} {o : Object} {v : Version}

/-- An Object that is kept, as it is later: the same bytes, and retired if it was. -/
structure Tracked (r : Record) (s : Store) (id : ℕ) (o : Object) (data : Bytes) (e : Engine) :
    Prop where
  grounded : Grounded r s e
  anchored : ∃ p v, e.core.heap id = some p ∧ Legible p ∧ Anchored r e id p v ∧ p.name = o.name ∧
    p.ts = o.ts ∧ v.data = data ∧ (o.state = .old → p.state = .old)

/-- What the first look meets where the put that brings the Object is handed over. -/
theorem look_own {data : Bytes} (h : Tracked r s id o data e) (hleg : Legible o)
    (harrived : ¬ Awaited e id o) :
    (∃ x, e.store (address o.toStat) = some x ∧ x.data = data) ∨
      o.state = .active ∧ Overtaken r e o.name o.ts := by
  obtain ⟨p, v, hp, -, hanchored, hname, hts, rfl, hold⟩ := h.anchored
  rcases hleg with hactive | hstate
  · obtain ⟨pos, hsince, hpos⟩ := hanchored.data
    rw [hname, hts] at hsince
    have hhanded : pos ≤ e.handed := by
      by_contra hlater
      obtain ⟨k, t, rfl, hk, prev, hnote⟩ := hpos.resolve_left hlater
      refine harrived ⟨t, mem_queue hk (by omega), ?_⟩
      rw [hname, hts] at hnote
      rw [if_neg (by simp [hactive])]
      exact ⟨prev, hnote⟩
    obtain ⟨w, hw, ⟨-, hdata⟩ | hnewer⟩ := look_ordinary h.grounded hsince hhanded
    · exact Or.inl ⟨w.entry, by rw [address_active hactive, hw], hdata⟩
    · exact Or.inr ⟨hactive, hnewer⟩
  · have hhanded : ¬ Retiring e id := by
      intro ⟨t, ht, hretires⟩
      refine harrived ⟨t, ht, ?_⟩
      rw [if_pos hstate]
      exact hretires
    have haddr : address o.toStat = temporary o.name o.ts := address_temp (by rw [hstate]; rfl)
    have hlook := look_temporary h.grounded hanchored (hold hstate) hhanded
    rw [hname, hts] at hlook
    exact Or.inl ⟨v.entry, by rw [haddr, hlook], rfl⟩

/-- A name put twice; the second put is queued. -/
def twice : List Move :=
  [.call (.create "a/c/o" (some 5) 0), .call (.write 0 [1, 2]), .call (.writeMetadata 0 [9]),
    .call .submit, .call (.find "a/c/o"), .call (.open 1), .call (.put 0 1 (some 100)),
    .call .submit, .call (.create "a/c/o" (some 6) 0), .call (.write 2 [3]),
    .call (.writeMetadata 2 [8]), .call .submit, .call (.put 2 0 (some 200))]

def start : Engine := Engine.start (fun _ => none) 0

def queued : Engine := (run move start twice).get (by decide +kernel)

def handed : Engine := (run move queued [.hand]).get (by decide +kernel)

/-- The Object of the second put. -/
def next : Object := (queued.core.heap 2).get (by decide +kernel)

end Swiftacular.OwnBytes
