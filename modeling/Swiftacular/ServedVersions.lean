import Swiftacular.CarriedObjects
import Swiftacular.DecisionOrder
import Swiftacular.OwnBytes
import Swiftacular.ReaderTurns

/-!
One version for each reader of a Device. An Object that a request keeps stays
what it was, retired or not, while others go on; the metadata read before the
first chunk brings it to where it is looked for, and from then on a look meets
its own data, or is found out by the check after it.
-/
namespace Swiftacular.ServedVersions

open Function EntryStore EngineObjects Versions EngineRuns StepRuns LiveObjects HeldEntries
  PreparedLog EngineMoves AnchoredObjects OwnBytes DeviceRuns DeviceEngine DeviceSteps
  DeviceInvariant LogGrowth DeviceJournal ShownVersions CarriedObjects
open DeviceWorld (Searches keeps_frame)
open MetadataModel (Blob Section)
open DecisionOrder (tabled home)
open ReaderTurns
open RangedReads (readSize)

variable {conf : Conf} {G : Goal → Prop} {A : Answer → Option View → Prop} {r : Record}
  {s u : EngineObjects.Store} {e e' e'' : Engine} {w w' : World} {id : ℕ}
  {o o' o'' : Object} {v v' v'' : Version}

/-! What a request that reads knows of its Object. -/

/-- An Object that can be read, and its version. -/
structure Known (r : Record) (w : World) (id : ℕ) (o : Object) (v : Version) : Prop where
  heap : w.core.heap id = some o
  legible : Legible o
  own : own (r.after w.core.log) id o = some v

/-- The data of an Object is handed over, or is by the time a transaction is. -/
def Due (r : Record) (w : World) (id : ℕ) (done : Option ℕ) : Prop :=
  ∃ o v pos, Known r w id o v ∧ Since r w.core.log o.name o.ts (fun x => x.data = v.data) pos ∧
    (pos ≤ w.handed ∨ ∃ d, done = some d ∧ pos ≤ d + 1)

/-- What a read of data has come to. Bytes that are not the Object's own are
met only where something newer is. -/
def Looked (r : Record) (w : World) (id offset size : ℕ) : Look → Prop
  | .start => True
  | .at a => ∃ o v, Known r w id o v ∧
      (a = ordinary o.name ∨ a = temporary o.name o.ts ∧ o.state = .old)
  | .seen a found => ∃ o v, Known r w id o v ∧ (found = none ∨
      a = ordinary o.name ∧ (found = some v.data ∨ Beyond r w o.name o.ts) ∨
      a = temporary o.name o.ts ∧ o.state = .old ∧ found = some v.data ∧ Cleared w id)
  | .got result => ∃ o v, Known r w id o v ∧ OwnRead v.data o offset size result

/-- What a thread that reads knows where it is. -/
def Frames (conf : Conf) (r : Record) (w : World) (th : Thread) : Prop :=
  match th.frame with
  | some (.reading id _ _ _ _) =>
      (∀ i done, th.native = some (.sync i (.captured done)) → Due r w id done) ∧
        ∀ part i offset size look, th.native = some (.read part i offset size look) →
          Due r w id none
  | some (.asking id _ _ _) => Due r w id none
  | some (.fetching id offset stop _) => Due r w id none ∧ ∀ size look,
      th.native = some (.read .data id offset size look) →
        size = readSize conf.chunkSize offset stop ∧ Looked r w id offset size look
  | _ => True

structure Reads (conf : Conf) (r : Record) (w : World) (th : Thread) : Prop where
  loaded : th.loaded = true → ∀ id, th.held = some id → Due r w id none
  frames : Frames conf r w th

theorem Known.anchored (h : Known r w id o v) (hf : Footing r s w u) :
    Anchored r (whole w u) id o v := by
  obtain ⟨v', hv'⟩ := hf.anchorage.anchored id o h.heap h.legible
  obtain rfl := Option.some.inj (h.own.symm.trans hv'.own)
  exact hv'

theorem Known.same (h : Known r w id o v) (h' : Known r w id o' v') : o' = o ∧ v' = v := by
  obtain rfl := Option.some.inj (h.heap.symm.trans h'.heap)
  exact ⟨rfl, Option.some.inj (h'.own.symm.trans h.own)⟩

theorem carried_known (h : Carried r id (whole w u) o v e' o' v') (hcore : e'.core = w'.core) :
    Known r w' id o' v' := by
  have hown := h.anchored.own
  unfold Engine.record at hown
  rw [hcore] at hown
  exact ⟨hcore ▸ h.heap, h.legible, hown⟩

theorem handed_grows (h : Grows w w') : w.handed ≤ w'.handed := by
  rcases h.shown with hsame | hhand
  · exact (congrArg Prod.fst hsame).ge
  · unfold World.hand at hhand
    split at hhand
    · contradiction
    · split at hhand
      · obtain ⟨store, -, rfl⟩ := Option.map_eq_some_iff.mp hhand
        exact le_refl _
      · obtain rfl := Option.some.inj hhand
        exact Nat.le_succ _

theorem reach_grows (h : Grows w w') : reach w ≤ reach w' := by
  unfold reach
  rcases h.shown with hsame | hhand
  · simp only [Prod.mk.injEq] at hsame
    rw [hsame.1, hsame.2.1]
  · unfold World.hand at hhand
    split at hhand
    · contradiction
    · split at hhand
      · obtain ⟨store, -, rfl⟩ := Option.map_eq_some_iff.mp hhand
        dsimp only
        split <;> simp
      · obtain rfl := Option.some.inj hhand
        dsimp only
        split <;> simp

theorem beyond_later {u' : EngineObjects.Store} (hf : Footing r s w u) (hf' : Footing r s w' u')
    (hgrows : Grows w w') {name : Name} {ts : ℕ} (h : Beyond r w name ts) :
    Beyond r w' name ts := by
  obtain ⟨x, hx, hlt⟩ := h
  obtain ⟨more, hmore, -⟩ := hgrows.log
  have htake : w'.core.log.take (reach w) = w.core.log.take (reach w) := by
    rw [hmore, List.take_append_of_le_length (reach_le hf).2]
  rw [← htake] at hx
  obtain ⟨y, hy, hle⟩ := held_mono hf'.anchorage.grounded.orderly (reach_grows hgrows) hx
  exact ⟨y, hy, hlt.trans_le hle⟩

section Later

variable {u' : EngineObjects.Store} (hf : Footing r s w u) (hf' : Footing r s w' u')
  (hcarries : Carries r (whole w u) (whole w' u')) (hgrows : Grows w w')
include hf hcarries

theorem known_later (h : Known r w id o v) (halive : w'.core.heap id ≠ none) : ∃ o' v',
    Known r w' id o' v' ∧ Carried r id (whole w u) o v (whole w' u') o' v' := by
  obtain ⟨o', v', hcarried⟩ := hcarries id o v h.heap h.legible (h.anchored hf) halive
  exact ⟨o', v', carried_known hcarried rfl, hcarried⟩

include hgrows

theorem due_later {done : Option ℕ} (h : Due r w id done) (halive : w'.core.heap id ≠ none) :
    Due r w' id done := by
  obtain ⟨o, v, pos, hknown, hsince, hpos⟩ := h
  obtain ⟨o', v', hknown', hcarried⟩ := known_later hf hcarries hknown halive
  exact ⟨o', v', pos, hknown', hcarried.since pos hsince, hpos.imp_left fun hle =>
    hle.trans (handed_grows hgrows)⟩

include hf'

theorem looked_later {offset size : ℕ} {look : Look} (h : Looked r w id offset size look)
    (halive : w'.core.heap id ≠ none) : Looked r w' id offset size look := by
  cases look with
  | start => trivial
  | «at» a =>
    obtain ⟨o, v, hknown, hplace⟩ := h
    obtain ⟨o', v', hknown', hc⟩ := known_later hf hcarries hknown halive
    refine ⟨o', v', hknown', ?_⟩
    rw [hc.name, hc.ts]
    exact hplace.imp_right fun ⟨ha, hold⟩ => ⟨ha, hc.old hold⟩
  | seen a found =>
    obtain ⟨o, v, hknown, hplace⟩ := h
    obtain ⟨o', v', hknown', hc⟩ := known_later hf hcarries hknown halive
    refine ⟨o', v', hknown', ?_⟩
    rw [hc.name, hc.ts, hc.data]
    rcases hplace with hnone | ⟨ha, hfound⟩ | ⟨ha, hold, hfound, hcleared⟩
    · exact Or.inl hnone
    · exact Or.inr (Or.inl ⟨ha, hfound.imp_right (beyond_later hf hf' hgrows)⟩)
    · refine Or.inr (Or.inr ⟨ha, hc.old hold, hfound, fun t ht => ?_⟩)
      have hdrop : w'.core.log.drop (reach w') =
          (w'.core.log.drop (reach w)).drop (reach w' - reach w) := by
        rw [List.drop_drop, Nat.add_sub_cancel' (reach_grows hgrows)]
      rw [hdrop] at ht
      exact hc.unretired hold _ hcleared t (List.mem_of_mem_drop ht)
  | got result =>
    obtain ⟨o, v, hknown, hown⟩ := h
    obtain ⟨o', v', hknown', hc⟩ := known_later hf hcarries hknown halive
    refine ⟨o', v', hknown', ?_⟩
    unfold OwnRead at hown ⊢
    rwa [hc.name, hc.ts, hc.data]

theorem reads_later {th : Thread} (h : Reads conf r w th)
    (halive : ∀ i, th.keeps i → w'.core.heap i ≠ none) : Reads conf r w' th := by
  refine ⟨fun hloaded i hheld => due_later hf hcarries hgrows (h.loaded hloaded i hheld)
    (halive i (Or.inl hheld)), ?_⟩
  have hframes := h.frames
  unfold Frames at hframes ⊢
  cases hframe : th.frame with
  | none => trivial
  | some frame =>
    have hdue : ∀ {i done}, frame.object = some i → Due r w i done → Due r w' i done :=
      fun hobject hdue => due_later hf hcarries hgrows hdue
        (halive _ (keeps_frame (by rw [hframe]; exact hobject)))
    rw [hframe] at hframes
    cases frame with
    | reading i version data tries goal =>
      exact ⟨fun j done hnative => hdue rfl (hframes.1 j done hnative),
        fun part j offset size look hnative => hdue rfl (hframes.2 part j offset size look hnative)⟩
    | asking i offset stop tries => exact hdue rfl hframes
    | fetching i offset stop tries =>
      refine ⟨hdue rfl hframes.1, fun size look hnative => ?_⟩
      obtain ⟨hsize, hlooked⟩ := hframes.2 size look hnative
      exact ⟨hsize, looked_later hf hf' hcarries hgrows hlooked
        (halive i (keeps_frame (by rw [hframe]; rfl)))⟩
    | _ => trivial

end Later

/-! What a request that reads finds out. -/

/-- An Object's data comes no later than its metadata: the put that places it
is at a place where its name is held by something older. -/
theorem due_done (hg : EngineMoves.Grounded r s e) (ha : Anchored r e id o v) : ∃ pos,
    Since r e.core.log o.name o.ts (fun x => x.data = v.data) pos ∧
      (pos ≤ e.handed ∨ ∃ d, o.done = some d ∧ pos ≤ d + 1) := by
  obtain ⟨pos, hsince, hle | ⟨p, t, rfl, ht, prev, hnote⟩⟩ := ha.data
  · exact ⟨pos, hsince, Or.inl hle⟩
  refine ⟨p + 1, hsince, ?_⟩
  obtain ⟨q, ⟨-, hheader⟩, hq⟩ := ha.header
  have hpq : p < q := by
    by_contra hge
    obtain ⟨x, hx, hcase⟩ := hheader p (Nat.le_of_not_lt hge)
    have hord := hg.orderly p t ht
    unfold Orderly at hord
    rw [hnote] at hord
    have hlt := hord.2.2 x hx
    rcases hcase with ⟨hsame, -⟩ | hnewer <;> omega
  rcases hq with hle | ⟨d, hd, hle⟩
  · exact Or.inl (hpq.trans_le hle)
  · exact Or.inr ⟨d, hd, hpq.trans_le hle⟩

/-- A sync that is over has brought the data along. -/
theorem due_committed {th : Thread} {done : Option ℕ} (h : Running conf G A r s w)
    (hdue : Due r w id done) (hended : w.committed conf th.name done = true) : Due r w id none := by
  obtain ⟨o, v, pos, hknown, hsince, hpos⟩ := hdue
  refine ⟨o, v, pos, hknown, hsince, Or.inl ?_⟩
  rcases hpos with hle | ⟨d, rfl, hle⟩
  · exact hle
  · have hlt : d < w.durable (conf.collection th.name) := by
      simpa [World.committed] using hended
    have hdurable := h.grounded.durable (conf.collection th.name)
    omega

/-- A read of data that looks at a temporary address finds nothing there, or
the rename of the put that retired its Object is shown. -/
def broughtFor (w : World) : Native → Bool
  | .read .data id _ _ (.at a) =>
      a.space = .ordinary || (w.store a).isNone || decide (Cleared w id)
  | _ => true

/-- `broughtFor`, of the call whose move a step is. -/
def brought (w : World) : Action → Bool
  | .move t => ((w.threads t).bind Thread.native).all (broughtFor w)
  | _ => true

/-- The check after the look: it finds out what was not the Object's own. -/
theorem seen_checked {a : Address} {found : Option Bytes} {pos : ℕ} (hf : Footing r s w u)
    (hknown : Known r w id o v)
    (hsince : Since r w.core.log o.name o.ts (fun x => x.data = v.data) pos) (hpos : pos ≤ w.handed)
    (hplace : found = none ∨ a = ordinary o.name ∧ (found = some v.data ∨ Beyond r w o.name o.ts) ∨
      a = temporary o.name o.ts ∧ o.state = .old ∧ found = some v.data ∧ Cleared w id) :
    check "read" w.store a o.toStat found.isSome = .error (.changed "read" o.name o.ts) ∨
      check "read" w.store a o.toStat found.isSome = .ok () ∧ found = some v.data := by
  have ha := hknown.anchored hf
  cases found with
  | none => exact Or.inl rfl
  | some bytes =>
    rw [Option.isSome_some]
    rcases hplace with hnone | ⟨rfl, hown | hbeyond⟩ | ⟨rfl, hold, hown, hcleared⟩
    · contradiction
    · exact (check_decodable "read" _ o.toStat (ordinary_decodable hf hsince hpos)).elim
        (fun hok => Or.inr ⟨hok, hown⟩) Or.inl
    · exact Or.inl (check_beyond hf ha hknown.legible hsince hpos hbeyond "read")
    · have hdecodable : ∀ z, w.store (temporary o.name o.ts) = some z → ∃ k, z.attrs = some k := by
        intro z hz
        obtain ⟨z', k, hz', hk, -⟩ := look_retired hf ha hold hcleared
        obtain rfl := Option.some.inj (hz.symm.trans hz')
        exact ⟨k, hk⟩
      exact (check_decodable "read" _ o.toStat hdecodable).elim (fun hok => Or.inr ⟨hok, hown⟩)
        Or.inl

theorem looking_looked {offset size : ℕ} {look look' : Look} (hf : Footing r s w u)
    (hdue : Due r w id none)
    (hbrought : broughtFor w (.read .data id offset size look) = true)
    (hlooked : Looked r w id offset size look)
    (hlooking : Looking w .data id offset size look look') : Looked r w id offset size look' := by
  obtain ⟨o, v, pos, hknown, hsince, hpos⟩ := hdue
  have hpos : pos ≤ w.handed := hpos.resolve_right fun ⟨d, hd, _⟩ => by contradiction
  have ha := hknown.anchored hf
  cases hlooking with
  | refused ho hreq =>
    obtain rfl := Option.some.inj (ho.symm.trans hknown.heap)
    rw [require_of_mem (by rcases hknown.legible with h | h <;> simp [h])] at hreq
    contradiction
  | nothing hpart hsize =>
    subst hsize
    exact ⟨o, v, hknown, Or.inr (by simp [extent])⟩
  | starts ho =>
    obtain rfl := Option.some.inj (ho.symm.trans hknown.heap)
    refine ⟨_, v, hknown, ?_⟩
    rcases hknown.legible with hactive | hold
    · exact Or.inl (address_active hactive)
    · exact Or.inr ⟨address_temp (by rw [hold]; rfl), hold⟩
  | looks a =>
    obtain ⟨o', v', hknown', hplace⟩ := hlooked
    obtain ⟨rfl, rfl⟩ := hknown.same hknown'
    refine ⟨o', v', hknown, ?_⟩
    cases hz : w.store a with
    | none => exact Or.inl rfl
    | some z =>
      right
      rcases hplace with rfl | ⟨rfl, hold⟩
      · exact Or.inl ⟨rfl, (look_own hf hsince hpos hz).imp_left fun hdata => congrArg some hdata⟩
      · have hshown : w.store (temporary o'.name o'.ts) = none ∨ Cleared w id := by
          simpa [broughtFor, temporary] using hbrought
        have hcleared : Cleared w id := hshown.resolve_left (by simp [hz])
        obtain ⟨z', k, hz', -, hdata⟩ := look_retired hf ha hold hcleared
        obtain rfl := Option.some.inj (hz.symm.trans hz')
        exact Or.inr ⟨rfl, hold, congrArg some hdata, hcleared⟩
  | failed ho hcheck =>
    obtain ⟨o', v', hknown', hplace⟩ := hlooked
    obtain ⟨rfl, rfl⟩ := hknown.same hknown'
    obtain rfl := Option.some.inj (ho.symm.trans hknown.heap)
    refine ⟨_, v', hknown, Or.inl ?_⟩
    rcases seen_checked hf hknown hsince hpos hplace with hchanged | ⟨hok, -⟩
    · exact congrArg Except.error (Except.error.inj (hcheck.symm.trans hchanged))
    · exact absurd (hcheck.symm.trans hok) (by simp)
  | passed ho hcheck =>
    obtain ⟨o', v', hknown', hplace⟩ := hlooked
    obtain ⟨rfl, rfl⟩ := hknown.same hknown'
    obtain rfl := Option.some.inj (ho.symm.trans hknown.heap)
    refine ⟨_, v', hknown, Or.inr ?_⟩
    rcases seen_checked hf hknown hsince hpos hplace with hchanged | ⟨-, rfl⟩
    · exact absurd (hchanged.symm.trans hcheck) (by simp)
    · rfl

/-- The header of an Object is read once its sync, or a read before, is over. -/
theorem due_ended {th : Thread} {version tries : ℕ} {data : Bytes} {goal : Option Goal}
    (h : Running conf G A r s w) {t : ℕ} (hth : w.threads t = some th) (hr : Reads conf r w th)
    (hframe : th.frame = some (.reading id version data tries goal))
    (hended : w.ended conf th.name th.native = true) : Due r w id none := by
  have hplaced := (h.manned.crewed t th hth).2.placed
  have hframes := hr.frames
  unfold DeviceWorld.Placed at hplaced
  unfold Frames at hframes
  rw [hframe] at hplaced hframes
  obtain ⟨-, -, ⟨-, stage, hnative⟩ | ⟨look, hnative⟩, -⟩ := hplaced
  · rw [hnative] at hended
    cases stage with
    | captured done => exact due_committed h (hframes.1 id done hnative) hended
    | enter => simp [World.ended] at hended
    | submitting => simp [World.ended] at hended
    | left => simp [World.ended] at hended
  · exact hframes.2 _ _ _ _ _ hnative

theorem due_captured {t : ℕ} {th : Thread} {version tries : ℕ} {data : Bytes} {goal : Option Goal}
    (h : Running conf G A r s w) (hf : Footing r s w u) (hth : w.threads t = some th)
    (hframe : th.frame = some (.reading id version data tries goal)) :
    Due r w id ((w.core.heap id).bind Object.done) := by
  have hcrewed := (h.manned.crewed t th hth).2
  have hobject : th.frame.bind Frame.object = some id := by rw [hframe]; rfl
  obtain ⟨o, ho, -⟩ := hcrewed.alive id (keeps_frame hobject)
  have hsearch : ¬ Searches th := by
    rintro (hs | ⟨i, hs⟩) <;> simp [hframe] at hs
  have hleg : Legible o := hcrewed.uses id o ⟨hsearch, Or.inl hobject⟩ ho
  obtain ⟨v, ha⟩ := hf.anchorage.anchored id o ho hleg
  obtain ⟨pos, hsince, hpos⟩ := due_done hf.anchorage.grounded ha
  rw [ho]
  exact ⟨o, v, pos, ⟨ho, hleg, ha.own⟩, hsince, hpos⟩

/-- A thread goes on with what it knows, and what it then finds out. -/
theorem reads_goes {t : ℕ} {th th' : Thread} (h : Running conf G A r s w) (hf : Footing r s w u)
    {moves : Prop} (hbrought : moves → th.native.all (broughtFor w) = true)
    (hth : w.threads t = some th) (hr : Reads conf r w th) (hgoes : Goes conf w moves th th') :
    Reads conf r w th' := by
  have hcrewed := (h.manned.crewed t th hth).2
  have hplaced := hcrewed.placed
  have hframes := hr.frames
  cases hgoes with
  | elsewhere hloaded hframe =>
    refine ⟨fun hl i hheld => ?_, ?_⟩
    · obtain ⟨hloaded, hsame⟩ := hloaded hl
      exact hr.loaded hloaded i (hsame ▸ hheld)
    · unfold Frames
      cases hf' : th'.frame with
      | none => trivial
      | some frame =>
        rw [hf'] at hframe
        cases frame with
        | reading | asking | fetching => contradiction
        | _ => trivial
  | waits hloaded hheld hnative hframe =>
    refine ⟨fun hl i hi => hr.loaded (hloaded ▸ hl) i (hheld ▸ hi), ?_⟩
    have hsync : ∀ i done, th'.native ≠ some (.sync i (.captured done)) := by
      intro i done heq
      rw [heq] at hnative
      contradiction
    have hread : ∀ part i offset size look, th'.native ≠ some (.read part i offset size look) := by
      intro part i offset size look heq
      rw [heq] at hnative
      contradiction
    rcases hframe with hsame | ⟨i, version, data, tries, goal, hframe⟩
    · unfold Frames at hframes ⊢
      rw [hsame]
      cases hframe : th.frame with
      | none => trivial
      | some frame =>
        rw [hframe] at hframes
        cases frame with
        | reading => exact ⟨fun i done heq => absurd heq (hsync i done),
            fun part i offset size look heq => absurd heq (hread part i offset size look)⟩
        | asking => exact hframes
        | fetching => exact ⟨hframes.1, fun size look heq => absurd heq (hread _ _ _ size look)⟩
        | _ => trivial
    · unfold Frames
      rw [hframe]
      exact ⟨fun i done heq => absurd heq (hsync i done),
        fun part i offset size look heq => absurd heq (hread part i offset size look)⟩
  | captures hnative =>
    refine ⟨hr.loaded, ?_⟩
    unfold Frames at hframes ⊢
    dsimp only
    cases hframe : th.frame with
    | none => trivial
    | some frame =>
      rw [hframe] at hframes
      cases frame with
      | reading i version data tries goal =>
        refine ⟨fun j done heq => ?_, fun _ _ _ _ _ heq => by simp at heq⟩
        obtain ⟨rfl, rfl⟩ : _ = j ∧ _ = done := by simpa using heq
        unfold DeviceWorld.Placed at hplaced
        rw [hframe] at hplaced
        obtain ⟨-, -, ⟨-, stage, heq'⟩ | ⟨look, heq'⟩, -⟩ := hplaced
        · obtain ⟨rfl, -⟩ := Native.sync.inj (Option.some.inj (hnative.symm.trans heq'))
          exact due_captured h hf hth hframe
        · simp [hnative] at heq'
      | asking => exact hframes
      | fetching => exact ⟨hframes.1, fun _ _ heq => by simp at heq⟩
      | _ => trivial
  | gathers hframe hended =>
    have hdue := due_ended h hth hr hframe hended
    exact ⟨hr.loaded, fun _ _ heq => by simp [Thread.calls] at heq, fun _ _ _ _ _ _ => hdue⟩
  | opens hframe hended loaded =>
    have hdue := due_ended h hth hr hframe hended
    refine ⟨fun _ i hheld => ?_, trivial⟩
    unfold DeviceWorld.Placed at hplaced
    rw [hframe] at hplaced
    obtain rfl := Option.some.inj ((hplaced.1 rfl).symm.trans hheld)
    exact hdue
  | asks hheld hloaded => exact ⟨hr.loaded, hr.loaded hloaded _ hheld⟩
  | fetches hframe =>
    unfold Frames at hframes
    rw [hframe] at hframes
    refine ⟨hr.loaded, hframes, fun size look heq => ?_⟩
    obtain ⟨-, -, -, hsize, rfl⟩ := Native.read.inj (Option.some.inj heq)
    exact ⟨hsize.symm, trivial⟩
  | looks hmoves hnative hlook =>
    refine ⟨hr.loaded, ?_⟩
    have hb := hbrought hmoves
    unfold Frames at hframes ⊢
    dsimp only
    cases hframe : th.frame with
    | none => trivial
    | some frame =>
      rw [hframe] at hframes
      cases frame with
      | reading i version data tries goal =>
        exact ⟨fun j done heq => by simp at heq, fun _ _ _ _ _ _ => hframes.2 _ _ _ _ _ hnative⟩
      | asking => exact hframes
      | fetching i offset stop tries =>
        refine ⟨hframes.1, fun size look heq => ?_⟩
        obtain ⟨rfl, rfl, rfl, rfl, rfl⟩ := Native.read.inj (Option.some.inj heq)
        rw [hnative] at hb
        obtain ⟨hsize, hlooked⟩ := hframes.2 _ _ hnative
        exact ⟨hsize, looking_looked hf hframes.1 hb hlooked hlook⟩
      | _ => trivial
  | again hframe =>
    unfold Frames at hframes
    rw [hframe] at hframes
    exact ⟨hr.loaded, hframes.1⟩

/-! Objects that are gone, and runs. -/

/-- No Object gets a number that was used before. -/
structure Gone (id : ℕ) (c c' : Core) : Prop where
  heap : c.heap id = none → c'.heap id = none
  fresh : c.fresh ≤ c'.fresh

theorem gone_update {c : Core} {i : ℕ} {p : Object} (hp : c.heap i = some p) (q : Option Object)
    {c' : Core} (hheap : c'.heap = update c.heap i q) (hfresh : c.fresh ≤ c'.fresh) :
    Gone id c c' := by
  refine ⟨fun hnone => ?_, hfresh⟩
  have hne : id ≠ i := by
    rintro rfl
    rw [hnone] at hp
    contradiction
  rw [hheap, update_of_ne hne, hnone]

theorem gone_fresh {c c' : Core} {p : Object} (hlt : id < c.fresh)
    (hheap : c'.heap = update c.heap c.fresh (some p)) (hfresh : c.fresh ≤ c'.fresh) :
    Gone id c c' :=
  ⟨fun hnone => by rw [hheap, update_of_ne (Nat.ne_of_lt hlt), hnone], hfresh⟩

theorem Gone.trans {c c' c'' : Core} (h : Gone id c c') (h' : Gone id c' c'') : Gone id c c'' :=
  ⟨fun hnone => h'.heap (h.heap hnone), h.fresh.trans h'.fresh⟩

theorem gone_drafted {c c' : Core} {next : ℕ} (hlt : id < c.fresh) (h : Drafted c next c') :
    Gone id c c' := by
  obtain ⟨c₀, -, -, hmade, hcases⟩ := drafted_cases h
  have hfirst : Gone id c c₀ := by
    rcases hmade with rfl | ⟨name, us, rfl⟩
    · exact ⟨fun hnone => hnone, le_refl _⟩
    · exact gone_fresh hlt rfl (Nat.le_succ _)
  rcases hcases with ⟨rfl, -⟩ | ⟨o, o₁, o', ops, data, ho, -, -, rfl⟩
  · exact hfirst
  · exact hfirst.trans (gone_update ho _ rfl (le_refl _))

theorem gone_step (h : Grows w w') (hlt : id < w.core.fresh) : Gone id w.core w'.core := by
  have hacts := h.acts
  generalize w'.core = c at hacts
  cases hacts with
  | same => exact ⟨fun hnone => hnone, le_refl _⟩
  | found name => exact gone_fresh hlt rfl (Nat.le_succ _)
  | created name us => exact gone_fresh hlt rfl (Nat.le_succ _)
  | @opened t i th hth hnative =>
    cases hp : w.core.heap i with
    | none =>
      simp only [Core.open, hp]
      exact ⟨fun hnone => hnone, le_refl _⟩
    | some p =>
      simp only [Core.open, hp]
      exact gone_update hp _ rfl (le_refl _)
  | wrote i data hwrite =>
    rcases write_cases hwrite with rfl | ⟨o, o', ops, ho, -, rfl⟩
    · exact ⟨fun hnone => hnone, le_refl _⟩
    · exact gone_update ho _ rfl (le_refl _)
  | released i hreleased =>
    subst hreleased
    cases hp : w.core.heap i with
    | none =>
      simp only [Core.release, hp]
      exact ⟨fun hnone => hnone, le_refl _⟩
    | some p =>
      simp only [Core.release, hp]
      exact gone_update hp _ rfl (le_refl _)
  | drafted hd => exact gone_drafted hlt hd
  | put d hd htime hobject hdrafted hput =>
    refine (gone_drafted hlt hdrafted).trans ?_
    rcases put_cases hput with rfl | ⟨n, p, n', p', ops, hn, hp, -, rfl⟩
    · exact ⟨fun hnone => hnone, le_refl _⟩
    · refine ⟨fun hnone => ?_, le_refl _⟩
      refine (update_of_ne ?_ _ _).trans ((update_of_ne ?_ _ _).trans hnone)
      · rintro rfl
        rw [hnone] at hn
        contradiction
      · rintro rfl
        rw [hnone] at hp
        contradiction

/-- What holds of a Device and its readers between two of its steps. -/
structure Served (conf : Conf) (r : Record) (s : EngineObjects.Store) (w : World) : Prop where
  running : Running conf (fun _ => True) (fun _ _ => True) r s w
  footing : ∃ u, Footing r s w u
  reads : ∀ t th, w.threads t = some th → Reads conf r w th

theorem served_start (h : Swept r s) (last : UInt64) : Served conf r s (World.start s last) := by
  have hrunning : Running conf (fun _ => True) (fun _ _ => True) r s (World.start s last) :=
    running_start h last
  exact ⟨hrunning, ⟨s, footing_whole hrunning (anchorage_start h last)⟩,
    fun _ _ _ => by contradiction⟩

theorem served_step {a : Action} (h : Served conf r s w) (hspaced : Spaced conf w a)
    (hbrought : brought w a = true) (hstep : w.step conf a = some w') : Served conf r s w' ∧
    ∃ u u', Footing r s w u ∧ Footing r s w' u' ∧ Carries r (whole w u) (whole w' u') := by
  have hrunning := running_action (promises_any conf) h.running (admits_any a) hstep
  have hgrows := grows_step hstep
  obtain ⟨u, hf⟩ := h.footing
  obtain ⟨u', hf', hcarries⟩ := footing_step h.running hrunning hgrows (hspaced w' hstep) hf
  refine ⟨⟨hrunning, ⟨u', hf'⟩, fun t th hth => ?_⟩, u, u', hf, hf', hcarries⟩
  have halive : ∀ i, th.keeps i → w'.core.heap i ≠ none := by
    intro i hkeeps hnone
    obtain ⟨o, ho, -⟩ := (hrunning.manned.crewed t th hth).2.alive i hkeeps
    rw [hnone] at ho
    contradiction
  rcases (proceeds_step hstep).threads t th hth with hold | ⟨hloaded, hframe⟩ | ⟨th₀, hth₀, hgoes⟩
  · exact reads_later hf hf' hcarries hgrows (h.reads t th hold) halive
  · refine ⟨fun hl => ?_, ?_⟩
    · rw [hloaded] at hl
      contradiction
    · unfold Frames
      cases hf' : th.frame with
      | none => trivial
      | some frame =>
        rw [hf'] at hframe
        cases frame with
        | reading | asking | fetching => contradiction
        | _ => trivial
  · refine reads_later hf hf' hcarries hgrows ?_ halive
    refine reads_goes h.running hf (fun hmoves => ?_) hth₀ (h.reads t th₀ hth₀) hgoes
    subst hmoves
    have hb : ((w.threads t).bind Thread.native).all (broughtFor w) = true := hbrought
    rwa [hth₀] at hb

/-- An Object whose bytes and timestamp are these, or that is gone. -/
structure Bears (r : Record) (w : World) (id : ℕ) (o : Object) (data : Bytes) : Prop where
  fresh : id < w.core.fresh
  bytes : w.core.heap id = none ∨
    ∃ o' v', Known r w id o' v' ∧ o'.name = o.name ∧ o'.ts = o.ts ∧ v'.data = data

theorem bears_step {data : Bytes} {u u' : EngineObjects.Store} (hf : Footing r s w u)
    (hcarries : Carries r (whole w u) (whole w' u')) (hgrows : Grows w w')
    (h : Bears r w id o data) : Bears r w' id o data := by
  have hgone := gone_step hgrows h.fresh
  refine ⟨h.fresh.trans_le hgone.fresh, ?_⟩
  rcases h.bytes with hnone | ⟨o', v', hknown, hname, hts, hdata⟩
  · exact Or.inl (hgone.heap hnone)
  · by_cases hnone : w'.core.heap id = none
    · exact Or.inl hnone
    · obtain ⟨o'', v'', hknown'', hc⟩ := known_later hf hcarries hknown hnone
      exact Or.inr ⟨o'', v'', hknown'', hc.name.trans hname, hc.ts.trans hts, hc.data.trans hdata⟩

/-- A read of data that is over. -/
theorem fetched_own {t offset tries from' size i : ℕ} {th : Thread} {stop : Option ℕ} {part : Part}
    {data : Bytes} {result : Except Error Bytes} (h : Served conf r s w) (hb : Bears r w id o data)
    (hth : w.threads t = some th) (hframe : th.frame = some (.fetching id offset stop tries))
    (hnative : th.native = some (.read part i from' size (.got result))) :
    size = readSize conf.chunkSize offset stop ∧ OwnRead data o offset size result := by
  have hcrewed := (h.running.manned.crewed t th hth).2
  have hplaced := hcrewed.placed
  have hframes := (h.reads t th hth).frames
  unfold DeviceWorld.Placed at hplaced
  unfold Frames at hframes
  rw [hframe] at hplaced hframes
  obtain ⟨size', look, heq⟩ := hplaced
  obtain ⟨rfl, rfl, rfl, rfl, rfl⟩ := Native.read.inj (Option.some.inj (hnative.symm.trans heq))
  obtain ⟨hsize, o', v', hknown, hown⟩ := hframes.2 _ _ hnative
  refine ⟨hsize, ?_⟩
  rcases hb.bytes with hnone | ⟨o'', v'', hknown', hname, hts, rfl⟩
  · rw [hknown.heap] at hnone
    contradiction
  · obtain ⟨rfl, rfl⟩ := hknown.same hknown'
    unfold OwnRead at hown ⊢
    rwa [hname, hts] at hown

/-- A failed read is made again, from where it was, as long as it may be. -/
theorem resume_again {t offset tries from' size i : ℕ} {th : Thread} {stop : Option ℕ} {part : Part}
    {e : Error} (us : UInt64) (hth : w.threads t = some th)
    (hframe : th.frame = some (.fetching id offset stop tries))
    (hnative : th.native = some (.read part i from' size (.got (.error e))))
    (he : RangedReads.isChanged e = true) (htries : tries < RangedReads.durations)
    (h : w.step conf (.resume t us) = some w') :
    w'.threads t = some (th.enters (.asking id offset stop (tries + 1))) := by
  obtain ⟨th', hth', h⟩ := Option.bind_eq_some_iff.mp h
  obtain rfl := Option.some.inj (hth.symm.trans hth')
  split at h
  · simp only [World.resume, hframe, hnative, World.pass, he, htries, decide_true, Bool.and_self,
      if_true] at h
    obtain rfl := Option.some.inj h
    exact update_self ..
  · contradiction

/-- The live Objects have distinct addresses after a step, and no read of data
looks at a temporary address where its Object is yet to be brought. -/
def Undisturbed (conf : Conf) (w : World) (a : Action) : Prop :=
  Spaced conf w a ∧ brought w a = true

/-- From the moment a request has its DiskFile open, every chunk of its Object
that is handed on is the Object's own bytes where it was asked for; a read that
is over has these, or has found out that the Object was overtaken and is made again. -/
theorem one_version (h : Swept r s) (last : UInt64) {before after : List Action}
    (hw : (World.start s last).run conf before = some w) (hw' : w.run conf after = some w')
    (hundisturbed : Along (World.step conf) (Undisturbed conf) (World.start s last)
      (before ++ after)) {t id : ℕ} {th : Thread} (hth : w.threads t = some th)
    (hheld : th.held = some id) (hloaded : th.loaded = true) :
    ∃ o v es, w.core.heap id = some o ∧ own (r.after w.core.log) id o = some v ∧
      w'.events = w.events ++ es ∧
      (∀ offset chunk, .yielded id offset chunk ∈ es → ∃ stop,
        chunk = extent v.data offset (readSize conf.chunkSize offset stop)) ∧
      ∀ u uth offset stop tries size result, w'.threads u = some uth →
        uth.frame = some (.fetching id offset stop tries) →
        uth.native = some (.read .data id offset size (.got result)) →
        result = .ok (extent v.data offset (readSize conf.chunkSize offset stop)) ∨
          result = .error (.changed "read" o.name o.ts) ∧ (tries < RangedReads.durations →
            ∀ us w'', w'.step conf (.resume u us) = some w'' →
              w''.threads u = some (uth.enters (.asking id offset stop (tries + 1)))) := by
  obtain ⟨hbefore, hafter⟩ := along_append.mp hundisturbed
  have hserved : Served conf r s w := along_keeps (fun w w' a hv hcond hstep =>
    (served_step hv hcond.1 hcond.2 hstep).1) (served_start h last) hbefore hw
  obtain ⟨o, v, -, hknown, -⟩ := (hserved.reads t th hth).loaded hloaded id hheld
  have hstart : Bears r w id o v.data :=
    ⟨hserved.running.grounded.engaged.stands.lt_fresh hknown.heap,
      Or.inr ⟨o, v, hknown, rfl, rfl, rfl⟩⟩
  obtain ⟨hserved', hbears, es, hes, hyielded⟩ := along_keeps
    (I := fun w₁ => Served conf r s w₁ ∧ Bears r w₁ id o v.data ∧ ∃ es, w₁.events = w.events ++ es ∧
      ∀ offset chunk, .yielded id offset chunk ∈ es → ∃ stop,
        chunk = extent v.data offset (readSize conf.chunkSize offset stop))
    (fun w₁ w₂ a ⟨hv, hb, es, hes, hall⟩ hcond hstep => by
      obtain ⟨hv', u, u', hf, -, hcarries⟩ := served_step hv hcond.1 hcond.2 hstep
      refine ⟨hv', bears_step hf hcarries (grows_step hstep) hb, ?_⟩
      obtain ⟨more, hmore, hnew⟩ := (proceeds_step hstep).yields
      refine ⟨es ++ more, by rw [hmore, hes, List.append_assoc], fun offset chunk hmem => ?_⟩
      rcases List.mem_append.mp hmem with hmem | hmem
      · exact hall offset chunk hmem
      obtain ⟨t₁, th₁, hth₁, stop, tries, part, i, from', size, hframe, hnative⟩ :=
        hnew id offset chunk hmem
      obtain ⟨rfl, hchanged | hown⟩ := fetched_own hv hb hth₁ hframe hnative
      · contradiction
      · exact ⟨stop, Except.ok.inj hown⟩)
    ⟨hserved, hstart, [], (List.append_nil _).symm, fun _ _ hmem => absurd hmem List.not_mem_nil⟩
    (hafter w hw) hw'
  refine ⟨o, v, es, hknown.heap, hknown.own, hes, hyielded, ?_⟩
  intro u uth offset stop tries size result hu hframe hnative
  obtain ⟨rfl, rfl | hown⟩ := fetched_own hserved' hbears hu hframe hnative
  · exact Or.inr ⟨rfl, fun htries us w'' hstep =>
      resume_again us hu hframe hnative rfl htries hstep⟩
  · exact Or.inl hown

/-! A GET that has its Object open while a second PUT overwrites the name. -/

def first : Section := Section.stamped ⟨200, 0⟩

def second : Section := Section.stamped ⟨300, 0⟩

def lines : List (Blob × String) :=
  [(⟨first, none⟩, "\x7b\"data\": \x7b\"X-Timestamp\": \"0000000000.00200\"\x7d\x7d"),
    (⟨second, none⟩, "\x7b\"data\": \x7b\"X-Timestamp\": \"0000000000.00300\"\x7d\x7d")]

/-- The first PUT, and the GET up to where its DiskFile is open. -/
def opening : List Action := List.flatten [
  [.request "a/c/o", .ask 0 .open, .go 0 0, .go 1 0, .move 1, .resume 1 0, .go 0 0, .go 0 0,
    .ask 0 (.create 5), .ask 0 (.write [1, 2])], List.replicate 7 (.move 0),
  [.resume 0 0, .ask 0 (.put 200 first), .go 0 0], List.replicate 10 (.move 0),
  [.commit home 3, .resume 0 0, .kill 0, .reap 0],
  [.request "a/c/o", .ask 2 .open, .go 2 0, .ask 2 .info, .go 2 0],
  List.replicate 3 (.move 2), [.resume 2 0], List.replicate 3 (.move 2), [.resume 2 0]]

/-- The second PUT, up to where it has read the metadata it is decided on. -/
def overwriting (t : ℕ) : List Action := List.flatten [
  [.request "a/c/o", .ask t .open, .go t 0, .ask t (.create 5), .ask t (.write [3, 4])],
  List.replicate 7 (.move t), [.resume t 0, .ask t (.put 300 second), .go t 0, .go t 0],
  List.replicate 3 (.move t), [.resume t 0], List.replicate 3 (.move t)]

/-- The GET's first chunk. -/
def serving : List Action :=
  List.flatten [[.ask 2 (.iterate 0 none), .go 2 0], List.replicate 3 (.move 2), [.resume 2 0]]

/-- The chunk is read when the store shows the first change of the second put. -/
def partly : List Action :=
  List.flatten [overwriting 3, [.resume 3 0], List.replicate 6 (.move 3), serving]

/-- A writer whose estimate is the timestamp of the first PUT is gone before the
second is decided; the removal of its entry is still queued, with what follows. -/
def crossing : List Action := List.flatten [
  [.request "a/c/o", .ask 3 .open, .go 3 0, .ask 3 (.create 2000), .ask 3 (.write [7])],
  List.replicate 7 (.move 3), [.resume 3 0], overwriting 4,
  [.kill 3, .reap 3, .release 2, .resume 4 0], serving]

def opened : World :=
  ((World.start (fun _ => none) 0).run (tabled lines) opening).get (by decide +kernel)

theorem opened_run : (World.start (fun _ => none) 0).run (tabled lines) opening = some opened :=
  (Option.some_get _).symm

def overwritten : World := (opened.run (tabled lines) partly).get (by decide +kernel)

theorem overwritten_run : opened.run (tabled lines) partly = some overwritten :=
  (Option.some_get _).symm

def crossed : World := (opened.run (tabled lines) crossing).get (by decide +kernel)

theorem crossed_run : opened.run (tabled lines) crossing = some crossed := (Option.some_get _).symm

/-- The GET. -/
def getting : Thread := (opened.threads 2).get (by decide +kernel)

theorem getting_opened : opened.threads 2 = some getting ∧ getting.held = some 1 ∧
    getting.loaded = true := ⟨(Option.some_get _).symm, by decide +kernel, by decide +kernel⟩

def chunkOf : Event → Option (ℕ × ℕ × Bytes)
  | .yielded id offset chunk => some (id, offset, chunk)
  | _ => none

theorem yielded_of_chunk {es : List Event} {offset : ℕ} {chunk : Bytes}
    (h : (id, offset, chunk) ∈ es.filterMap chunkOf) : .yielded id offset chunk ∈ es := by
  obtain ⟨e, he, hchunk⟩ := List.mem_filterMap.mp h
  cases e with
  | yielded i k c =>
    obtain ⟨rfl, rfl, rfl⟩ : i = id ∧ k = offset ∧ c = chunk := by simpa [chunkOf] using hchunk
    exact he
  | searched | decided | raised | broken | answered => contradiction

theorem one_version_overwritten : ∃ o v es, opened.core.heap 1 = some o ∧
    own (Record.empty.after opened.core.log) 1 o = some v ∧ v.data = [1, 2] ∧
    overwritten.events = opened.events ++ es ∧ .yielded 1 0 [1, 2] ∈ es ∧
    ∀ offset chunk, .yielded 1 offset chunk ∈ es → ∃ stop,
      chunk = extent v.data offset (readSize (tabled lines).chunkSize offset stop) := by
  have hundisturbed : Along (World.step (tabled lines)) (Undisturbed (tabled lines))
      (World.start (fun _ => none) 0) (opening ++ partly) :=
    along_and (spaced_of_checked swept_empty 0 (by decide +kernel)) (by decide +kernel)
  obtain ⟨hth, hheld, hloaded⟩ := getting_opened
  obtain ⟨o, v, es, ho, hv, hes, hall, -⟩ :=
    one_version swept_empty 0 opened_run overwritten_run hundisturbed hth hheld hloaded
  refine ⟨o, v, es, ho, hv, ?_, hes, ?_, hall⟩
  · have hdata : (opened.core.heap 1).all (fun o =>
        (own (Record.empty.after opened.core.log) 1 o).all fun v => v.data = [1, 2]) := by
      decide +kernel
    rw [ho, Option.all_some, hv, Option.all_some] at hdata
    exact of_decide_eq_true hdata
  · have hnew : es = overwritten.events.drop opened.events.length := by rw [hes, List.drop_left]
    rw [hnew]
    exact yielded_of_chunk (by decide +kernel)

/-- The GET is handed what the writer that is gone wrote. Live Objects have
distinct addresses all along, but the second look meets the entry that the first did. -/
theorem foreign_chunk : Along (World.step (tabled lines)) (Spaced (tabled lines))
      (World.start (fun _ => none) 0) (opening ++ crossing) ∧
    (World.start (fun _ => none) 0).run (tabled lines) opening = some opened ∧
    opened.run (tabled lines) crossing = some crossed ∧ opened.threads 2 = some getting ∧
    getting.held = some 1 ∧ getting.loaded = true ∧
    ∃ o v, opened.core.heap 1 = some o ∧ own (Record.empty.after opened.core.log) 1 o = some v ∧
      v.data = [1, 2] ∧ .yielded 1 0 [7] ∈ crossed.events.drop opened.events.length ∧
      ¬ [7] <+: v.data.drop 0 := by
  obtain ⟨hth, hheld, hloaded⟩ := getting_opened
  refine ⟨spaced_of_checked swept_empty 0 (by decide +kernel), opened_run, crossed_run, hth, hheld,
    hloaded, (opened.core.heap 1).get (by decide +kernel), ?_⟩
  refine ⟨(own (Record.empty.after opened.core.log) 1 ((opened.core.heap 1).get _)).get
    (by decide +kernel), (Option.some_get _).symm, (Option.some_get _).symm, by decide +kernel,
    yielded_of_chunk (by decide +kernel), by decide +kernel⟩

end Swiftacular.ServedVersions
