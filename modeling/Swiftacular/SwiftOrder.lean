import Swiftacular.RequestSets

/-!
Which of two PUTs or DELETEs wins. Swift orders them by tick and then by
offset; the engine compares ticks alone and holds a name nothing was put to
at tick 0. The two orders part company exactly at a tie of ticks.
-/
namespace Swiftacular.SwiftOrder

open EngineObjects Timestamps MetadataModel NameDecisions RequestSets

/-- A request as it reaches `BluestoreDiskFile`: a DELETE is a timestamp. -/
inductive FileRequest
  | put (metadata : Section)
  | delete (timestamp : Timestamp)
  | post (metadata : Section)
  deriving DecidableEq

/-- What the request hands to the Device. -/
def FileRequest.handed : FileRequest → Request
  | .put m => .put m
  | .delete t => .delete (.stamped t)
  | .post m => .post m

variable (isSysMeta : String → Bool) (name : Name)

def decideFile (held : Option Held) : FileRequest → Option Held
  | .put m => writerPut isSysMeta name held m
  | .delete t => diskFileDelete isSysMeta name held t
  | .post m => deviceWriteMetadata isSysMeta held m

def runFile (held : Option Held) (requests : List FileRequest) : Option Held :=
  requests.foldl (decideFile isSysMeta name) held

/-- The PUTs and DELETEs of a list, each with whether it deletes. -/
def fileWrites (requests : List FileRequest) : List (Bool × Section) :=
  writes (requests.map FileRequest.handed)

/-- The PUT or DELETE `w` holds the name. -/
def HeldBy (w : Bool × Section) (held : Option Held) : Prop :=
  ∃ h, held = some h ∧ (h.deleted, h.blob.dataSection) = w ∧ h.ts = w.2.timestamp.tick

/-- Newer by Swift's order than what holds the name. -/
def NewerThan (held : Option Held) (t : Timestamp) : Prop :=
  ∀ h, held = some h → h.blob.dataSection.timestamp < t

/-- A newer PUT or DELETE takes the name over and any other changes nothing. -/
def NewerWins (held : Option Held) (r : FileRequest) : Prop :=
  ∀ w ∈ fileWrites [r],
    (NewerThan held w.2.timestamp → HeldBy w (decideFile isSysMeta name held r)) ∧
    (¬ NewerThan held w.2.timestamp → decideFile isSysMeta name held r = held)

/-- The greatest of the PUTs and DELETEs holds the name at the end, whatever
the order, the POSTs among them included. -/
def GreatestHolds (requests : List FileRequest) : Prop :=
  ∀ order, order.Perm requests → ∀ w ∈ fileWrites requests,
    (∀ v ∈ fileWrites requests, v.2.timestamp ≤ w.2.timestamp) →
    HeldBy w (runFile isSysMeta name none order)

/-- Where the engine's comparison is Swift's: no tie of ticks that the offset
would break, and nothing at tick 0 offered to a name nothing holds. -/
def TickDecides (held : Option Held) (r : FileRequest) : Prop :=
  ∀ w ∈ fileWrites [r],
    (held = none → 0 < w.2.timestamp.tick) ∧
    ∀ h, held = some h → w.2.timestamp.tick = h.blob.dataSection.timestamp.tick →
      w.2.timestamp.offset ≤ h.blob.dataSection.timestamp.offset

/-- The same for a set: the greatest is not at tick 0 and shares its tick with no other. -/
def GreatestAlone (requests : List FileRequest) : Prop :=
  ∀ w ∈ fileWrites requests, (∀ v ∈ fileWrites requests, v.2.timestamp ≤ w.2.timestamp) →
    0 < w.2.timestamp.tick ∧
    ∀ v ∈ fileWrites requests, v.2.timestamp.tick = w.2.timestamp.tick → v = w

variable {isSysMeta name}

theorem decideFile_handed (held : Option Held) (r : FileRequest) :
    decideFile isSysMeta name held r = decideRequest isSysMeta name held r.handed := by
  cases r <;> rfl

/-- The holder is a PUT or DELETE of greatest tick; tick 0 never holds. -/
structure Top (ws : List (Bool × Section)) (held : Option Held) : Prop where
  empty : held = none → ∀ w ∈ ws, w.2.timestamp.tick = 0
  member : ∀ h, held = some h → (h.deleted, h.blob.dataSection) ∈ ws
  ts : ∀ h, held = some h → h.ts = h.blob.dataSection.timestamp.tick
  pos : ∀ h, held = some h → 0 < h.ts
  newest : ∀ h, held = some h → ∀ w ∈ ws, w.2.timestamp.tick ≤ h.ts

theorem top_nil : Top [] none := by
  refine ⟨?_, ?_, ?_, ?_, ?_⟩
  · intro _ w hw
    contradiction
  all_goals
    intro h hh
    contradiction

variable (isSysMeta name) in
/-- What a PUT or DELETE makes of the name, as far as who holds it goes. -/
theorem decideFile_write (held : Option Held) {r : FileRequest} {w : Bool × Section}
    (hw : fileWrites [r] = [w]) :
    (w.2.timestamp.tick ≤ heldTs held → decideFile isSysMeta name held r = held) ∧
    (heldTs held < w.2.timestamp.tick → HeldBy w (decideFile isSysMeta name held r)) := by
  rw [decideFile_handed]
  cases r with
  | put m =>
    obtain rfl : (false, m) = w := by simpa [fileWrites, FileRequest.handed, writes] using hw
    simp only [FileRequest.handed, decideRequest_put]
    refine ⟨fun hle => if_pos hle, fun hlt => ?_⟩
    rw [if_neg (Nat.not_le_of_lt hlt)]
    exact ⟨_, rfl, by rw [put_dataSection], rfl⟩
  | delete t =>
    obtain rfl : (true, Section.stamped t) = w := by
      simpa [fileWrites, FileRequest.handed, writes] using hw
    simp only [FileRequest.handed, decideRequest_delete]
    refine ⟨fun hle => if_pos hle, fun hlt => ?_⟩
    rw [if_neg (Nat.not_le_of_lt hlt)]
    exact ⟨_, rfl, by rw [put_dataSection], rfl⟩
  | post m => simp [fileWrites, FileRequest.handed, writes] at hw

variable (isSysMeta name) in
/-- A POST leaves the holder what it was. -/
theorem decideFile_post (held : Option Held) (m : Section) :
    decideFile isSysMeta name held (.post m) = held ∨
      ∃ h blob, held = some h ∧ blob.dataSection = h.blob.dataSection ∧
        decideFile isSysMeta name held (.post m) = some { h with blob := blob } := by
  cases held with
  | none => exact Or.inl rfl
  | some h =>
    change deviceWriteMetadata isSysMeta (some h) m = some h ∨ ∃ h' blob, some h = some h' ∧ _ ∧
      deviceWriteMetadata isSysMeta (some h) m = _
    simp only [deviceWriteMetadata]
    split
    · rename_i blob hpost
      exact Or.inr ⟨h, blob, rfl, post_dataSection hpost, rfl⟩
    · exact Or.inl rfl

theorem fileWrites_append (left right : List FileRequest) :
    fileWrites (left ++ right) = fileWrites left ++ fileWrites right := by
  unfold fileWrites
  rw [List.map_append, writes_append]

theorem fileWrites_perm {left right : List FileRequest} (h : left.Perm right) :
    (fileWrites left).Perm (fileWrites right) := writes_perm (h.map _)

/-- A request is a PUT or DELETE or it is none. -/
theorem fileWrites_single (r : FileRequest) :
    (∃ w, fileWrites [r] = [w]) ∨ (∃ m, r = .post m) ∧ fileWrites [r] = [] := by
  cases r with
  | put m => exact Or.inl ⟨_, rfl⟩
  | delete t => exact Or.inl ⟨_, rfl⟩
  | post m => exact Or.inr ⟨⟨m, rfl⟩, rfl⟩

/-- Every PUT or DELETE of a list is one of its requests. -/
theorem exists_fileWrite {requests : List FileRequest} {w : Bool × Section}
    (hw : w ∈ fileWrites requests) : ∃ r ∈ requests, fileWrites [r] = [w] := by
  induction requests with
  | nil => simp [fileWrites, writes] at hw
  | cons r rest ih =>
    have hsplit : fileWrites (r :: rest) = fileWrites [r] ++ fileWrites rest :=
      fileWrites_append [r] rest
    rw [hsplit, List.mem_append] at hw
    rcases hw with hr | hrest
    · rcases fileWrites_single r with ⟨v, hv⟩ | ⟨-, hnone⟩
      · rw [hv, List.mem_singleton] at hr
        exact ⟨r, by simp, hr ▸ hv⟩
      · simp [hnone] at hr
    · obtain ⟨r', hr', hw'⟩ := ih hrest
      exact ⟨r', List.mem_cons_of_mem _ hr', hw'⟩

/-- The tick the engine holds a name at is the greatest so far. -/
theorem top_heldTs {ws : List (Bool × Section)} {held : Option Held} (ht : Top ws held) :
    ∀ w ∈ ws, w.2.timestamp.tick ≤ heldTs held := by
  intro w hw
  cases held with
  | none => exact (ht.empty rfl w hw).le
  | some h => exact ht.newest h rfl w hw

/-- One decision keeps the holder a PUT or DELETE of greatest tick. -/
theorem top_step {ws : List (Bool × Section)} {held : Option Held} (ht : Top ws held)
    (r : FileRequest) : Top (ws ++ fileWrites [r]) (decideFile isSysMeta name held r) := by
  rcases fileWrites_single r with ⟨w, hw⟩ | ⟨⟨m, rfl⟩, hnone⟩
  · obtain ⟨hdrop, htake⟩ := decideFile_write isSysMeta name held hw
    rw [hw]
    by_cases hle : w.2.timestamp.tick ≤ heldTs held
    · rw [hdrop hle]
      refine ⟨?_, fun h hh => List.mem_append_left _ (ht.member h hh), ht.ts, ht.pos, ?_⟩
      · rintro rfl v hv
        rw [List.mem_append, List.mem_singleton] at hv
        rcases hv with hv | rfl
        · exact ht.empty rfl v hv
        · exact Nat.le_zero.mp hle
      · rintro h rfl v hv
        rw [List.mem_append, List.mem_singleton] at hv
        rcases hv with hv | rfl
        · exact ht.newest h rfl v hv
        · exact hle
    · have hlt := Nat.lt_of_not_le hle
      obtain ⟨h, hh, hwh, hts⟩ := htake hlt
      rw [hh]
      refine ⟨?_, ?_, ?_, ?_, ?_⟩
      · intro hnone
        contradiction
      all_goals
        intro h' hh'
        obtain rfl := Option.some.inj hh'
      · rw [hwh]
        exact List.mem_append_right _ (List.mem_singleton_self _)
      · rw [hts, ← hwh]
      · omega
      · intro v hv
        rw [List.mem_append, List.mem_singleton] at hv
        rcases hv with hv | rfl
        · have := top_heldTs ht v hv
          omega
        · exact hts.ge
  · rw [hnone, List.append_nil]
    rcases decideFile_post isSysMeta name held m with
      heq | ⟨h, blob, rfl, hdata, heq⟩
    · rwa [heq]
    · rw [heq]
      refine ⟨?_, ?_, ?_, ?_, ?_⟩
      · intro hnone
        contradiction
      all_goals
        intro h' hh'
        obtain rfl := Option.some.inj hh'
      · exact hdata ▸ ht.member h rfl
      · exact hdata ▸ ht.ts h rfl
      · exact ht.pos h rfl
      · exact ht.newest h rfl

theorem runFile_cons (held : Option Held) (r : FileRequest) (rest : List FileRequest) :
    runFile isSysMeta name held (r :: rest) =
      runFile isSysMeta name (decideFile isSysMeta name held r) rest := rfl

theorem top_run {ws : List (Bool × Section)} {held : Option Held} (ht : Top ws held)
    (requests : List FileRequest) :
    Top (ws ++ fileWrites requests) (runFile isSysMeta name held requests) := by
  induction requests generalizing ws held with
  | nil =>
    change Top (ws ++ []) held
    rwa [List.append_nil]
  | cons r rest ih =>
    have hsplit : fileWrites (r :: rest) = fileWrites [r] ++ fileWrites rest :=
      fileWrites_append [r] rest
    rw [runFile_cons, hsplit, ← List.append_assoc]
    exact ih (top_step ht r)

/-- What holds the name keeps it while nothing of a greater tick comes. -/
theorem heldBy_run {w : Bool × Section} {held : Option Held} (hheld : HeldBy w held)
    (requests : List FileRequest)
    (hle : ∀ v ∈ fileWrites requests, v.2.timestamp.tick ≤ w.2.timestamp.tick) :
    HeldBy w (runFile isSysMeta name held requests) := by
  induction requests generalizing held with
  | nil => exact hheld
  | cons r rest ih =>
    have hsplit : fileWrites (r :: rest) = fileWrites [r] ++ fileWrites rest :=
      fileWrites_append [r] rest
    rw [hsplit] at hle
    rw [runFile_cons]
    refine ih ?_ fun v hv => hle v (List.mem_append_right _ hv)
    obtain ⟨h, rfl, hwh, hts⟩ := hheld
    rcases fileWrites_single r with ⟨v, hv⟩ | ⟨⟨m, rfl⟩, -⟩
    · have hvle : v.2.timestamp.tick ≤ heldTs (some h) := by
        have := hle v (by simp [hv])
        change v.2.timestamp.tick ≤ h.ts
        omega
      rw [(decideFile_write _ _ (some h) hv).1 hvle]
      exact ⟨h, rfl, hwh, hts⟩
    · rcases decideFile_post isSysMeta name (some h) m with
        heq | ⟨h', blob, hh', hdata, heq⟩
      · rw [heq]
        exact ⟨h, rfl, hwh, hts⟩
      · obtain rfl := Option.some.inj hh'
        rw [heq]
        exact ⟨_, rfl, hdata ▸ hwh, hts⟩

theorem newerWins_iff {ws : List (Bool × Section)} {held : Option Held} (ht : Top ws held)
    (r : FileRequest) : NewerWins isSysMeta name held r ↔ TickDecides held r := by
  unfold NewerWins TickDecides
  rcases fileWrites_single r with ⟨w, hw⟩ | ⟨-, hnone⟩
  swap
  · simp [hnone]
  obtain ⟨hdrop, htake⟩ := decideFile_write isSysMeta name held hw
  simp only [hw, List.mem_singleton, forall_eq]
  cases held with
  | none =>
    have hnewer : NewerThan none w.2.timestamp := by
      intro h hh
      contradiction
    constructor
    · rintro ⟨hwins, -⟩
      refine ⟨fun _ => Nat.pos_of_ne_zero fun hzero => ?_, fun h hh => nomatch hh⟩
      have hheld := hwins hnewer
      rw [hdrop (by rw [hzero]; exact Nat.zero_le _)] at hheld
      obtain ⟨h, hh, -⟩ := hheld
      contradiction
    · rintro ⟨hpos, -⟩
      exact ⟨fun _ => htake (hpos rfl), fun hnot => absurd hnewer hnot⟩
  | some h =>
    have hts := ht.ts h rfl
    have hiff : NewerThan (some h) w.2.timestamp ↔
        h.blob.dataSection.timestamp < w.2.timestamp := by simp [NewerThan]
    rw [hiff, Timestamp.lt_iff]
    constructor
    · rintro ⟨hwins, -⟩
      refine ⟨fun hh => (nomatch hh), fun k hk htie => ?_⟩
      obtain rfl := Option.some.inj hk
      by_contra hoff
      have hheld := hwins (Or.inr ⟨htie.symm, Nat.lt_of_not_le hoff⟩)
      rw [hdrop (by change _ ≤ h.ts; omega)] at hheld
      obtain ⟨k, hk, hkw, -⟩ := hheld
      obtain rfl := Option.some.inj hk
      rw [← hkw] at hoff
      exact hoff (le_refl _)
    · rintro ⟨-, hoff⟩
      have hoff := hoff h rfl
      refine ⟨fun hlt => htake ?_, fun hnot => hdrop ?_⟩
      · change h.ts < _
        omega
      · change _ ≤ h.ts
        omega

theorem greatestHolds_iff (requests : List FileRequest) :
    GreatestHolds isSysMeta name requests ↔ GreatestAlone requests := by
  constructor
  · intro hholds w hw hmax
    have hpos : 0 < w.2.timestamp.tick := by
      obtain ⟨h, hh, -, hts⟩ := hholds requests (List.Perm.refl _) w hw hmax
      rw [← hts]
      exact (top_run top_nil requests).pos h hh
    refine ⟨hpos, fun v hv htie => ?_⟩
    -- let the other of that tick come first: it then holds to the end
    obtain ⟨r, hr, hrv⟩ := exists_fileWrite hv
    have hperm := List.perm_cons_erase hr
    have hfirst : HeldBy v (decideFile isSysMeta name none r) :=
      (decideFile_write _ _ none hrv).2 (by change 0 < _; omega)
    have hlast : HeldBy v (runFile isSysMeta name none (r :: requests.erase r)) := by
      rw [runFile_cons]
      refine heldBy_run hfirst _ fun u hu => ?_
      have hmem : u ∈ fileWrites requests := by
        rw [(fileWrites_perm hperm).mem_iff]
        exact (fileWrites_append [r] _) ▸ List.mem_append_right _ hu
      rw [htie]
      exact Timestamp.tick_le (hmax u hmem)
    obtain ⟨h, hh, hv', -⟩ := hlast
    obtain ⟨h', hh', hw', -⟩ := hholds _ hperm.symm w hw hmax
    obtain rfl := Option.some.inj (hh.symm.trans hh')
    exact hv'.symm.trans hw'
  · intro halone order hperm w hw hmax
    obtain ⟨hpos, huniq⟩ := halone w hw hmax
    have ht : Top (fileWrites order) (runFile isSysMeta name none order) := top_run top_nil order
    have hmem : ∀ {v}, v ∈ fileWrites order ↔ v ∈ fileWrites requests :=
      (fileWrites_perm hperm).mem_iff
    cases hrun : runFile isSysMeta name none order with
    | none =>
      have := ht.empty hrun w (hmem.mpr hw)
      omega
    | some h =>
      have hheld := hmem.mp (ht.member h hrun)
      have hle := Timestamp.tick_le (hmax _ hheld)
      have hge := ht.newest h hrun w (hmem.mpr hw)
      have hts := ht.ts h hrun
      have heq := huniq _ hheld (by dsimp only at hle ⊢; omega)
      exact ⟨h, rfl, heq, by rw [← heq]; exact hts⟩

/-- At every state requests can bring a name to, the newer by Swift's order
wins exactly when the engine's ticks decide; and of a set the greatest holds
the name in every order exactly when it is alone at its tick. -/
theorem swift_order_iff (history requests : List FileRequest) (r : FileRequest) :
    (NewerWins isSysMeta name (runFile isSysMeta name none history) r ↔
      TickDecides (runFile isSysMeta name none history) r) ∧
    (GreatestHolds isSysMeta name requests ↔ GreatestAlone requests) :=
  ⟨newerWins_iff (top_run top_nil history) r, greatestHolds_iff requests⟩

/-- A PUT later by its offset alone is dropped. -/
theorem offset_dropped :
    ¬ NewerWins (fun _ => false) "a/c/o"
      (runFile (fun _ => false) "a/c/o" none [.put ⟨⟨7, 0⟩, some "text/plain", none, ∅⟩])
      (.put ⟨⟨7, 1⟩, some "text/html", none, ∅⟩) := by
  intro hwins
  have hlater : NewerThan (some ⟨7, false, ⟨⟨⟨7, 0⟩, some "text/plain", none, ∅⟩, none⟩⟩)
      ⟨7, 1⟩ := by
    rintro h ⟨⟩
    decide
  obtain ⟨h, hh, hw, -⟩ := (hwins _ (List.mem_singleton_self _)).1 hlater
  have hdropped : decideFile (fun _ => false) "a/c/o"
      (runFile (fun _ => false) "a/c/o" none [.put ⟨⟨7, 0⟩, some "text/plain", none, ∅⟩])
      (.put ⟨⟨7, 1⟩, some "text/html", none, ∅⟩) =
      some ⟨7, false, ⟨⟨⟨7, 0⟩, some "text/plain", none, ∅⟩, none⟩⟩ := by decide
  rw [hdropped] at hh
  obtain rfl := Option.some.inj hh
  simp at hw

end Swiftacular.SwiftOrder
