import Swiftacular.RangedReads
import Swiftacular.StepRuns
import Swiftacular.WrittenEntries

/-!
The helper tools `bs_ondisk` and `bs_util`, on one store. Both keep an object
under its name in the one collection, write it from its beginning on, and
remove it whole. A read asks for as much as the object has or, with `bs_util`,
for a fixed size. The size is known, so a buffer holds whatever is put into it.
-/
namespace Swiftacular.HelperTools

open Function EntryStore Piles RangedReads

/-- The mounted store: whether the collection is there, and its objects. -/
structure Volume where
  collection : Bool
  objects : EntryStore.Store String Unit

def ENOENT : ℕ := 2
def EIO : ℕ := 5

/-- A transaction of one change. -/
def queue (v : Volume) (op : Op String Unit) : Option Volume :=
  (apply v.objects op).map fun objects => { v with objects }

inductive Command
  | ondiskWrite (name : String) (data : Bytes)
  | ondiskRemove (name : String)
  | utilWrite (name : String) (data : Bytes)
  | utilDelete (name : String)
  deriving DecidableEq

/-- The store after a command, and its exit status. Only `bs_ondisk write`
makes the collection; `bs_util` cannot mount a store without it. -/
def exec (v : Volume) : Command → Option (Volume × ℕ)
  | .ondiskWrite name data =>
      (queue { v with collection := true } (.write name 0 data)).map fun v => (v, 0)
  | .ondiskRemove name =>
      if v.collection then (queue v (.remove name)).map fun v => (v, 0) else some (v, ENOENT)
  | .utilWrite name data =>
      if v.collection then (queue v (.write name 0 data)).map fun v => (v, 0) else some (v, 1)
  | .utilDelete name =>
      if v.collection then (queue v (.remove name)).map fun v => (v, 0) else some (v, 1)

/-- A command that exits 0. -/
def step (v : Volume) (c : Command) : Option Volume :=
  match exec v c with
  | some (v', 0) => some v'
  | _ => none

/-- `a - b` as a `size_t`. -/
def difference (a b : ℕ) : ℕ := if b ≤ a then a - b else 18446744073709551616 - (b - a)

/-- `bs_ondisk stat`, without the time. -/
def ondiskStat (v : Volume) (name : String) : Except ℕ ℕ :=
  if v.collection then
    match v.objects name with
    | none => .error ENOENT
    | some e => .ok e.data.length
  else .error ENOENT

/-- `bs_ondisk read`: a length that is not given is 0, and is then taken from `stat`. -/
def ondiskRead (v : Volume) (name : String) (offset length : ℕ) : Except ℕ Bytes :=
  if v.collection then
    match v.objects name with
    | none => .error (if length = 0 then ENOENT else EIO)
    | some e =>
        let length := if length = 0 then difference e.data.length offset else length
        .ok (storeRead e.data offset length)
  else .error ENOENT

/-- `bs_util read`. -/
def utilRead (v : Volume) (name : String) : Except ℕ Bytes :=
  if v.collection then
    match v.objects name with
    | none => .error 1
    | some e => .ok (storeRead e.data 0 (1024 * 1024 * 1024))
  else .error 1

/-! What is written under a name. -/

/-- The data written since the last removal, with one more command. -/
def record (name : String) (writes : List Bytes) : Command → List Bytes
  | .ondiskWrite n data => if n = name then writes ++ [data] else writes
  | .utilWrite n data => if n = name then writes ++ [data] else writes
  | .ondiskRemove n => if n = name then [] else writes
  | .utilDelete n => if n = name then [] else writes

/-- What was written under a name since it was last removed. -/
def since (name : String) (commands : List Command) : List Bytes :=
  commands.foldl (record name) []

theorem splice_start (left data : Bytes) : splice left 0 data = laid data left :=
  WrittenEntries.splice_laid [] left data

/-- The store has under a name what was piled up since its last removal. -/
structure Holds (name : String) (writes : List Bytes) (v : Volume) : Prop where
  collection : writes ≠ [] → v.collection = true
  data : (v.objects name).map Entry.data = if writes = [] then none else some (piled writes)

theorem holds_write {name n : String} {writes : List Bytes} {v v' : Volume} {data : Bytes}
    (h : Holds name writes v) (hcollection : v.collection = true)
    (hqueue : queue v (.write n 0 data) = some v') :
    Holds name (if n = name then writes ++ [data] else writes) v' := by
  obtain rfl := Option.some.inj hqueue
  by_cases hn : n = name
  · subst hn
    rw [if_pos rfl]
    refine ⟨fun _ => hcollection, ?_⟩
    have hleft : ((v.objects n).getD Entry.blank).data = piled writes := by
      have hdata := h.data
      by_cases hnil : writes = []
      · rw [if_pos hnil, Option.map_eq_none_iff] at hdata
        rw [hdata, hnil]
        rfl
      · rw [if_neg hnil] at hdata
        obtain ⟨e, he, hpiled⟩ := Option.map_eq_some_iff.mp hdata
        rw [he, ← hpiled]
        rfl
    rw [if_neg (by simp), piled_concat, ← hleft, ← splice_start]
    simp only [update_self, Option.map_some]
  · rw [if_neg hn]
    refine ⟨fun _ => hcollection, ?_⟩
    dsimp only
    rw [update_of_ne (Ne.symm hn)]
    exact h.data

theorem holds_remove {name n : String} {writes : List Bytes} {v v' : Volume}
    (h : Holds name writes v) (hcollection : v.collection = true)
    (hqueue : queue v (.remove n) = some v') :
    Holds name (if n = name then [] else writes) v' := by
  obtain rfl := Option.some.inj hqueue
  refine ⟨fun _ => hcollection, ?_⟩
  dsimp only
  by_cases hn : n = name
  · subst hn
    simp only [update_self, if_true, Option.map_none]
  · rw [update_of_ne (Ne.symm hn), if_neg hn]
    exact h.data

theorem step_cases {v v' : Volume} {c : Command} (h : step v c = some v') :
    exec v c = some (v', 0) := by
  unfold step at h
  split at h
  · rename_i hexec
    obtain rfl := Option.some.inj h
    exact hexec
  · contradiction

theorem holds_step {name : String} {writes : List Bytes} {v v' : Volume} {c : Command}
    (h : Holds name writes v) (hstep : step v c = some v') : Holds name (record name writes c) v' := by
  have hexec := step_cases hstep
  cases c with
  | ondiskWrite n data =>
    simp only [exec] at hexec
    obtain ⟨u, hu, heq⟩ := Option.map_eq_some_iff.mp hexec
    obtain ⟨rfl, -⟩ := Prod.mk.inj heq
    exact @holds_write _ _ _ { v with collection := true } _ _ ⟨fun _ => rfl, h.data⟩ rfl hu
  | ondiskRemove n =>
    simp only [exec] at hexec
    split at hexec
    · rename_i hcollection
      obtain ⟨u, hu, heq⟩ := Option.map_eq_some_iff.mp hexec
      obtain ⟨rfl, -⟩ := Prod.mk.inj heq
      exact holds_remove h hcollection hu
    · simp [ENOENT] at hexec
  | utilWrite n data =>
    simp only [exec] at hexec
    split at hexec
    · rename_i hcollection
      obtain ⟨u, hu, heq⟩ := Option.map_eq_some_iff.mp hexec
      obtain ⟨rfl, -⟩ := Prod.mk.inj heq
      exact holds_write h hcollection hu
    · simp at hexec
  | utilDelete n =>
    simp only [exec] at hexec
    split at hexec
    · rename_i hcollection
      obtain ⟨u, hu, heq⟩ := Option.map_eq_some_iff.mp hexec
      obtain ⟨rfl, -⟩ := Prod.mk.inj heq
      exact holds_remove h hcollection hu
    · simp at hexec

theorem holds_run {name : String} {v₀ v : Volume} {commands : List Command}
    (hnew : v₀.objects name = none) (hrun : StepRuns.run step v₀ commands = some v) :
    Holds name (since name commands) v := by
  have hall : ∀ {commands : List Command} {writes : List Bytes} {v₀ : Volume},
      Holds name writes v₀ → StepRuns.run step v₀ commands = some v →
      Holds name (commands.foldl (record name) writes) v := by
    intro commands
    induction commands with
    | nil =>
      intro writes v₀ h hrun
      obtain rfl := Option.some.inj hrun
      exact h
    | cons c rest ih =>
      intro writes v₀ h hrun
      obtain ⟨u, hu, hrest⟩ := StepRuns.run_cons_some hrun
      exact ih (holds_step h hu) hrest
  refine hall ⟨fun hne => absurd rfl hne, ?_⟩ hrun
  rw [hnew]
  rfl

/-! What is read back. -/

theorem storeRead_all (data : Bytes) : storeRead data 0 (difference data.length 0) = data := by
  have hdiff : difference data.length 0 = data.length := if_pos (Nat.zero_le _)
  rw [hdiff]
  unfold storeRead
  split
  · rfl
  · exact List.take_length

theorem storeRead_fixed (data : Bytes) {size : ℕ} (hsize : size ≠ 0) :
    storeRead data 0 size = data.take size :=
  if_neg fun h => hsize h.2

/-- What a name was removed from, or never written to, is not there. -/
theorem reads_removed {name : String} {v₀ v : Volume} {commands : List Command}
    (hnew : v₀.objects name = none) (hrun : StepRuns.run step v₀ commands = some v)
    (hnone : since name commands = []) :
    ondiskRead v name 0 0 = .error ENOENT ∧ ondiskStat v name = .error ENOENT ∧
      utilRead v name = .error 1 := by
  have hholds := holds_run hnew hrun
  have hdata := hholds.data
  rw [if_pos hnone, Option.map_eq_none_iff] at hdata
  unfold ondiskRead ondiskStat utilRead
  rw [hdata]
  simp only [if_true, ite_self, and_self]

/-- `bs_ondisk` reads the last write back, and its length, if and only if no
write before it, since the last removal, is longer; `bs_util` does if the last
has at most 1 GiB, and none before it is longer or it has exactly that. -/
theorem reads_back {name : String} {v₀ v : Volume} {commands : List Command}
    {earlier : List Bytes} {data : Bytes} (hnew : v₀.objects name = none)
    (hrun : StepRuns.run step v₀ commands = some v)
    (hlast : since name commands = earlier ++ [data]) :
    (ondiskRead v name 0 0 = .ok data ∧ ondiskStat v name = .ok data.length ↔
      ∀ w ∈ earlier, w.length ≤ data.length) ∧
    (utilRead v name = .ok data ↔ data.length ≤ 1024 * 1024 * 1024 ∧
      (data.length = 1024 * 1024 * 1024 ∨ ∀ w ∈ earlier, w.length ≤ data.length)) := by
  have hholds := holds_run hnew hrun
  have hne : since name commands ≠ [] := by rw [hlast]; simp
  have hcollection := hholds.collection hne
  have hdata := hholds.data
  rw [if_neg hne, hlast, piled_concat] at hdata
  obtain ⟨e, he, hpile⟩ := Option.map_eq_some_iff.mp hdata
  have hread : ondiskRead v name 0 0 = .ok e.data := by
    unfold ondiskRead
    rw [if_pos hcollection, he]
    dsimp only
    rw [if_pos rfl, storeRead_all]
  have hstat : ondiskStat v name = .ok e.data.length := by
    unfold ondiskStat
    rw [if_pos hcollection, he]
  have hutil : utilRead v name = .ok (e.data.take (1024 * 1024 * 1024)) := by
    unfold utilRead
    rw [if_pos hcollection, he]
    dsimp only
    rw [storeRead_fixed _ (by decide)]
  have hlonger := length_piled_le earlier data.length
  rw [hread, hstat, hutil, hpile]
  simp only [Except.ok.injEq]
  refine ⟨⟨fun h => hlonger.mp ((laid_eq_iff _ _).mp h.1), fun h => ?_⟩, ?_⟩
  · have hall := (laid_eq_iff _ _).mpr (hlonger.mpr h)
    rw [hall]
    exact ⟨rfl, rfl⟩
  · rw [← hlonger]
    constructor
    · intro htake
      have hlen := congrArg List.length htake
      rw [List.length_take, length_laid] at hlen
      omega
    · rintro ⟨hfits, hcovers⟩
      refine (take_laid hfits).mpr ?_
      omega

/-- A store as `bs_util create` makes it. -/
def made : Volume := ⟨true, fun _ => none⟩

theorem reads_back_equal : ∃ v,
    StepRuns.run step made [.ondiskWrite "o" [1, 2], .ondiskWrite "o" [3, 4]] = some v ∧
      ondiskRead v "o" 0 0 = .ok [3, 4] ∧ utilRead v "o" = .ok [3, 4] := by
  have hback := @reads_back "o" made _
    [.ondiskWrite "o" [1, 2], .ondiskWrite "o" [3, 4]] [[1, 2]] [3, 4] rfl rfl (by decide)
  exact ⟨_, rfl, (hback.1.mpr (by decide)).1, hback.2.mpr ⟨by decide, Or.inr (by decide)⟩⟩

/-- The end of a longer write is read after a shorter one. -/
theorem tail_left : ∃ v,
    StepRuns.run step made [.ondiskWrite "o" [1, 2, 3], .ondiskWrite "o" [9]] = some v ∧
      since "o" [.ondiskWrite "o" [1, 2, 3], .ondiskWrite "o" [9]] = [[1, 2, 3]] ++ [[9]] ∧
      ondiskRead v "o" 0 0 = .ok [9, 2, 3] ∧ ondiskStat v "o" = .ok 3 ∧
      utilRead v "o" = .ok [9, 2, 3] ∧
      ¬ (ondiskRead v "o" 0 0 = .ok [9] ∧ ondiskStat v "o" = .ok 1) := by
  refine ⟨_, rfl, by decide, by decide, by decide, by decide, by decide⟩

end Swiftacular.HelperTools
