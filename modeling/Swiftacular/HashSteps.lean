import Swiftacular.HashInvariant

/-!
Every step keeps what `HashInvariant` says, so long as the clock does not stand
still between two writes of `hashes.pkl` and what has the length of a suffix
is one.
-/
namespace Swiftacular.HashSteps

open Function OrderedDicts SuffixHashes HashInvariant

variable {D H : Type*}

/-- A write is later than the last one, and what has the length of a suffix
is one. -/
def Allows (w : Partition D H) : Event D H → Prop
  | .change s _ => s.chars.length = 3 → validSuffix s = true
  | .turn _ (.combine now) => stamp (readHashes w.pickle) < now
  | .turn _ (.finish now) => stamp (readHashes w.pickle) < now
  | _ => True

section Calls

variable {hasher : Hasher D H} {w w' : Partition D H} {id : ℕ} {c : Call H}

theorem not_clearing (h : w.lock = none) : ¬ Clearing w := by
  rintro ⟨id, c, hlock, -⟩
  rw [h] at hlock
  contradiction

/-- A step of one call that writes nothing and changes the stage it is at. -/
theorem holds_moves {c' : Call H} {stage : Stage H} {lock : Option ℕ} (hw : Holds hasher w)
    (hc : w.calls id = some c) (hsame : c'.since = c.since ∧ c'.recalculate = c.recalculate)
    (hstage : stage.clearing = false)
    (hlock : ∀ other, other ≠ id → (lock = some other ↔ w.lock = some other))
    (hown : lock = some id ↔ stage.locked = true)
    (hvouches : Later hasher w ({ w with lock }.enter id c' stage) →
      Vouches hasher ({ w with lock }.enter id c' stage) { c' with stage } stage) :
    Holds hasher ({ w with lock }.enter id c' stage) := by
  have hl : Later hasher w ({ w with lock }.enter id c' stage) :=
    later_enter (fun other hne => (hlock other hne).mp) hstage
  have hold := hw.calls id c hc
  refine holds_enter hw hl rfl hlock hw.told_le rfl (fun hvalid => (hw.cached hvalid).later hl) ?_
  refine ⟨?_, ?_, hown, hvouches hl⟩
  · rw [hsame.1]
    exact hold.since
  · rw [hsame.2]
    exact hold.recalculate

/-- Of what is read under the lock, all that no line names is up to date. -/
theorem carried_absorbed {written : Hashes H} (hw : Holds hasher w)
    (hsince : ∀ s, c.since s ≤ w.told s)
    (hvalid : (readHashes w.pickle).valid = some true) (hl : Later hasher w w')
    (htold : w'.told = w.told) (hkeyed : Keyed written)
    (hget : ∀ s, written.get s = (mark (readHashes w.pickle) (named w.lines)).get s)
    (hstamp : stamp written ≤ stamp (readHashes w'.pickle)) :
    Carried hasher w' c.since written written w.asOf ∧
      Carried hasher w' (fun _ => 0) written written w.asOf := by
  have hcached := hw.cached hvalid
  have hof : ∀ s, validSuffix s = true → written.get s ≠ some none →
      Dated hasher w' 0 (w.asOf s) s (written.get s) ∧ w.told s ≤ w.asOf s := by
    intro s hs he
    rw [hget, get_mark] at he ⊢
    by_cases hnamed : s ∈ named w.lines
    · rw [if_pos hnamed] at he
      contradiction
    · rw [if_neg hnamed] at he ⊢
      refine ⟨(hcached.dated s hs he).later hl, ?_⟩
      exact (hcached.covers s hs he rfl).resolve_left fun hwaits => hnamed hwaits.1
  have hcovers : ∀ s, validSuffix s = true → written.get s ≠ some none →
      Covers w' (stamp written) s (w.asOf s) := by
    intro s hs he _
    rw [htold]
    exact Or.inr (hof s hs he).2
  refine ⟨⟨hkeyed, hstamp, fun s hs he => ?_, hcovers⟩,
    ⟨hkeyed, hstamp, fun s hs he => (hof s hs he).1, hcovers⟩⟩
  obtain ⟨hdated, htold⟩ := hof s hs he
  exact ⟨hdated.le, (hsince s).trans htold, hdated.right⟩

theorem holds_combine {now : ℤ} (hw : Holds hasher w) (hc : w.calls id = some c)
    (hstage : c.stage = .reads) (hnow : stamp (readHashes w.pickle) < now) :
    Holds hasher (w.combine id c now) := by
  have hold := hw.calls id c hc
  have hheld : w.lock = some id := hold.lock.mpr (by rw [hstage]; rfl)
  have hkeyed : Keyed (mark (readHashes w.pickle) (named w.lines)) :=
    (readHashes_keyed w.pickle).mark named_valid
  unfold Partition.combine
  by_cases hnamed : named w.lines = []
  · simp only [hnamed, if_true]
    have hnowaits : ∀ s, ¬ Waits w s := fun s hs => absurd hs.1 (by simp [hnamed])
    rw [hnamed] at hkeyed
    split
    · -- there was no line at all
      refine holds_moves hw hc ⟨rfl, rfl⟩ rfl (fun other hne => ?_) (by simp [Stage.locked])
        fun hl hvalid => ?_
      · rw [hheld]
        simp [Ne.symm hne]
      · exact (carried_absorbed hw hold.since hvalid hl rfl hkeyed
          (fun s => by rw [hnamed]) le_rfl).1
    · -- no line named a suffix, so nothing is written
      have hl : Later hasher w (w.enter id c
          (.clears (mark (readHashes w.pickle) []) w.asOf)) :=
        later_same rfl rfl rfl rfl fun s hs => absurd hs (hnowaits s)
      refine holds_enter hw hl rfl (fun _ _ => Iff.rfl) hw.told_le rfl
        (fun hvalid => (hw.cached hvalid).later hl)
        ⟨hold.since, hold.recalculate, ⟨fun _ => rfl, fun _ => hheld⟩, fun hvalid => ?_⟩
      exact (carried_absorbed hw hold.since hvalid hl rfl hkeyed
        (fun s => by rw [hnamed]) le_rfl).1
  · have hlines : w.lines ≠ [] := by
      intro hnil
      rw [hnil] at hnamed
      exact hnamed rfl
    simp only [hnamed, hlines, if_false]
    let written := (mark (readHashes w.pickle) (named w.lines)).stamped now
    have hread : readHashes (.dict written) = written := readHashes_stamped hkeyed now
    have hvalid : written.valid = some true → (readHashes w.pickle).valid = some true := by
      intro hvalid
      have hmark : (mark (readHashes w.pickle) (named w.lines)).valid = (readHashes w.pickle).valid :=
        mark_valid _
      cases hv : (readHashes w.pickle).valid with
      | none => exact absurd hv (readHashes_valid w.pickle)
      | some b => simpa [written, Hashes.stamped, hmark, hv] using hvalid
    have hlater : stamp (readHashes w.pickle) < stamp (readHashes (.dict written)) := by
      rw [hread]
      exact hnow
    have hl : Later hasher w
        ({ w with pickle := .dict written }.enter id c (.clears written w.asOf)) :=
      later_written rfl rfl rfl hlater
    have hkeyed : Keyed written := hkeyed
    have hstamp : stamp written ≤ stamp (readHashes (.dict written)) := by rw [hread]
    have hboth := fun hv => carried_absorbed hw hold.since (hvalid hv) hl rfl hkeyed
      (fun _ => rfl) hstamp
    refine holds_enter hw hl rfl (fun _ _ => Iff.rfl) hw.told_le rfl (fun hv => ?_)
      ⟨hold.since, hold.recalculate, ⟨fun _ => rfl, fun _ => hheld⟩, fun hv => (hboth hv).1⟩
    rw [hread] at hv ⊢
    exact (hboth hv).2

theorem holds_clear {h : Hashes H} {asOf : Name → ℕ} (hw : Holds hasher w)
    (hc : w.calls id = some c) (hstage : c.stage = .clears h asOf) :
    Holds hasher ({ w with invalid := some [], lock := none }.enter id c (.consolidated h asOf)) := by
  have hold := hw.calls id c hc
  have hheld : w.lock = some id := hold.lock.mpr (by rw [hstage]; rfl)
  have hclears : Clearing w := ⟨id, c, hheld, hc, by rw [hstage]; rfl⟩
  have hl : Later hasher w ({ w with invalid := some [], lock := none }.enter id c
      (.consolidated h asOf)) :=
    later_same rfl rfl rfl rfl fun s hs => absurd hclears hs.2
  refine holds_enter hw hl rfl (fun other hne => ?_) hw.told_le rfl
    (fun hvalid => (hw.cached hvalid).later hl)
    ⟨hold.since, hold.recalculate, by simp [Partition.enter, Stage.locked], fun hvalid => ?_⟩
  · rw [hheld]
    simp [Ne.symm hne]
  · have hvouch := hold.stage
    rw [hstage] at hvouch
    exact (hvouch hvalid).later hl

theorem holds_look {h : Hashes H} {asOf : Name → ℕ} (hw : Holds hasher w)
    (hc : w.calls id = some c) (hstage : c.stage = .consolidated h asOf) :
    Holds hasher (w.look id c h asOf) := by
  obtain ⟨-, -, hlock, hvouch⟩ := hw.calls id c hc
  rw [hstage] at hlock hvouch
  unfold Partition.look
  split
  · rename_i hvalid
    exact holds_moves hw hc ⟨rfl, rfl⟩ rfl (fun _ _ => Iff.rfl) hlock
      fun hl => Or.inl ((hvouch hvalid).later hl)
  · exact holds_moves hw hc ⟨rfl, rfl⟩ rfl (fun _ _ => Iff.rfl) hlock
      fun _ => Or.inr ⟨rfl, rfl, le_rfl⟩

/-- A suffix that a listing does not have is not there. -/
theorem digestOf_unlisted {s : Name} (hs : validSuffix s = true) (h : s ∉ w.listdir) :
    w.digestOf hasher s = none := by
  have hlength : s.chars.length = 3 :=
    of_decide_eq_true (Bool.and_eq_true_iff.mp hs).1
  have hnone : w.dirs.lookup s = none := by
    rw [List.lookup_eq_none_iff]
    intro kv hkv
    rw [bne_iff_ne]
    rintro rfl
    exact h (List.mem_filter.mpr ⟨List.mem_map.mpr ⟨kv, hkv, rfl⟩, by simpa using hlength⟩)
  rw [Partition.digestOf, hnone, Option.bind_none]

/-- What a listing leaves known is what it found absent or what was known. -/
theorem listed_cases {names : List Name} {h : Hashes H} {s : Name}
    (he : (names.foldl (fun h suff => h.setDefault suff none) h).get s ≠ some none) :
    h.get s ≠ some none ∧
      (names.foldl (fun h suff => h.setDefault suff none) h).get s = h.get s ∧
      (h.get s = none → s ∉ names) := by
  rw [get_listed] at he ⊢
  by_cases hmem : s ∈ names
  · rw [if_pos hmem] at he ⊢
    cases hget : h.get s with
    | none => simp [hget] at he
    | some v =>
      rw [hget, Option.getD_some] at he
      exact ⟨he, rfl, fun hnone => absurd hnone (by simp)⟩
  · rw [if_neg hmem] at he ⊢
    exact ⟨he, rfl, fun _ => hmem⟩

/-- After the listing all that is known is known over what the pass read. -/
theorem listed_known {p : Pass H} {listed : Hashes H} {s : Name} (hw : Holds hasher w)
    (hsince : ∀ s, c.since s ≤ w.told s)
    (hlisted : listed =
      if c.doListdir then w.listdir.foldl (fun h suff => h.setDefault suff none) p.hashes
      else p.hashes)
    (hvouch : Vouches hasher w c (.lists p)) (hs : validSuffix s = true)
    (he : listed.get s ≠ some none) :
    let asOf := if c.doListdir ∧ listed.get s = none then w.changes s else p.asOf s
    Dated hasher w (c.since s) asOf s (listed.get s) ∧ Covers w (stamp p.orig) s asOf := by
  by_cases hlist : c.doListdir = true
  · rw [if_pos hlist] at hlisted
    subst hlisted
    obtain ⟨hne, heq, habsent⟩ := listed_cases he
    rw [heq]
    cases hget : p.hashes.get s with
    | none =>
      simp only [hlist, and_self, if_true]
      refine ⟨⟨le_rfl, (hsince s).trans (hw.told_le s), fun _ => ?_⟩, fun _ => Or.inr (hw.told_le s)⟩
      exact (digestOf_unlisted hs (habsent hget)).symm
    | some v =>
      simp only [reduceCtorEq, and_false, if_false]
      rcases hvouch with hc | ⟨-, hnil, -⟩
      · rw [← hget]
        exact ⟨hc.dated s hs hne, hc.covers s hs hne⟩
      · rw [Hashes.get, hnil] at hget
        contradiction
  · rw [if_neg hlist] at hlisted
    subst hlisted
    rcases hvouch with hc | ⟨hlist', -⟩
    · have hpast : ¬ (c.doListdir = true ∧ p.hashes.get s = none) := fun h => hlist h.1
      simp only [if_neg hpast]
      exact ⟨hc.dated s hs he, hc.covers s hs he⟩
    · exact absurd hlist' hlist

theorem holds_list {p : Pass H} (hw : Holds hasher w) (hc : w.calls id = some c)
    (hstage : c.stage = .lists p) : Holds hasher (w.list hasher id c p) := by
  obtain ⟨hsince, hrecalculate, hlock, hvouch⟩ := hw.calls id c hc
  rw [hstage] at hlock hvouch
  have hread : Keyed p.hashes ∧ stamp p.orig ≤ stamp (readHashes w.pickle) := by
    rcases hvouch with hc | ⟨-, hnil, hle⟩
    · exact ⟨hc.keyed, hc.stamp_le⟩
    · exact ⟨fun kv hkv => absurd (hnil ▸ hkv) List.not_mem_nil, hle⟩
  unfold Partition.list
  set listed :=
    if c.doListdir then w.listdir.foldl (fun h suff => h.setDefault suff none) p.hashes
    else p.hashes with hlisted
  have hkeyed : Keyed (mark listed c.recalculate) := by
    refine Keyed.mark ?_ hrecalculate
    rw [hlisted]
    split
    · exact hread.1.listed hw.names
    · exact hread.1
  refine holds_moves hw hc ⟨rfl, rfl⟩ rfl (fun _ _ => Iff.rfl) hlock fun hl => ?_
  refine ⟨⟨hkeyed, hread.2.trans hl.stamp_le, fun s hs he => ?_, fun s hs he => ?_⟩, ?_⟩
  · rw [get_mark] at he ⊢
    by_cases hmem : s ∈ c.recalculate
    · rw [if_pos hmem] at he
      contradiction
    · rw [if_neg hmem] at he ⊢
      exact (listed_known hw hsince hlisted hvouch hs he).1.later hl
  · rw [get_mark] at he
    by_cases hmem : s ∈ c.recalculate
    · rw [if_pos hmem] at he
      contradiction
    · rw [if_neg hmem] at he
      exact hl.covers _ s _ hs hread.2 (listed_known hw hsince hlisted hvouch hs he).2
  · intro s hs
    obtain ⟨kv, hkv, rfl⟩ := List.mem_map.mp hs
    exact hkeyed kv (List.mem_filter.mp hkv).1

theorem holds_begin {p : Pass H} {s : Name} {todo : List Name} (hw : Holds hasher w)
    (hc : w.calls id = some c) (hstage : c.stage = .goes p (s :: todo)) :
    Holds hasher (w.enter id c (.digests p s (w.changes s) todo)) := by
  obtain ⟨hsince, -, hlock, hvouch⟩ := hw.calls id c hc
  rw [hstage] at hlock hvouch
  refine holds_moves hw hc ⟨rfl, rfl⟩ rfl (fun _ _ => Iff.rfl) hlock fun hl => ?_
  exact ⟨hvouch.1.later hl, hvouch.2, le_rfl, (hsince s).trans (hw.told_le s),
    fun _ => Or.inr (hw.told_le s)⟩

/-- A dictionary that says something new of one suffix. -/
theorem carried_anew {since asOf : Name → ℕ} {orig h h' : Hashes H} {s : Name} {seen : ℕ}
    {e : Option (Option H)} (hh : Carried hasher w since orig h asOf) (hkeyed : Keyed h')
    (hget : ∀ k, h'.get k = if k = s then e else h.get k)
    (hdated : Dated hasher w (since s) seen s e) (hcovers : Covers w (stamp orig) s seen) :
    Carried hasher w since orig h' (update asOf s seen) := by
  refine ⟨hkeyed, hh.stamp_le, fun k hk he => ?_, fun k hk he => ?_⟩
  · rw [hget] at he ⊢
    by_cases hks : k = s
    · rw [hks, if_pos rfl, update_self]
      exact hdated
    · rw [if_neg hks] at he ⊢
      rw [update_of_ne hks]
      exact hh.dated k hk he
  · rw [hget] at he
    by_cases hks : k = s
    · rw [hks, update_self]
      exact hcovers
    · rw [if_neg hks] at he
      rw [update_of_ne hks]
      exact hh.covers k hk he

/-- What was hashed is known as of when the hashing began. -/
theorem carried_take {p : Pass H} {s : Name} {seen : ℕ} {out : Outcome H} {since : Name → ℕ}
    (hp : Carried hasher w since p.orig p.hashes p.asOf) (hs : validSuffix s = true)
    (hle : seen ≤ w.changes s) (hsince : since s ≤ seen) (hcovers : Covers w (stamp p.orig) s seen)
    (hfits : w.Fits hasher s seen out) :
    Carried hasher w since (p.take s seen out).orig (p.take s seen out).hashes
      (p.take s seen out).asOf := by
  cases out with
  | hashed h =>
    exact carried_anew hp (hp.keyed.set hs) (fun _ => get_set)
      ⟨hle, hsince, fun heq => (hfits heq.symm).symm⟩ hcovers
  | pathNotDir =>
    exact carried_anew hp hp.keyed.del (fun _ => get_del)
      ⟨hle, hsince, fun heq => (hfits heq.symm).symm⟩ hcovers
  | osError => exact hp

theorem holds_hash {p : Pass H} {s : Name} {seen : ℕ} {todo : List Name} {out : Outcome H}
    (hw : Holds hasher w) (hc : w.calls id = some c) (hstage : c.stage = .digests p s seen todo)
    (hfits : w.Fits hasher s seen out) : Holds hasher (w.enter id c (.goes (p.take s seen out) todo)) := by
  obtain ⟨-, -, hlock, hvouch⟩ := hw.calls id c hc
  rw [hstage] at hlock hvouch
  obtain ⟨hp, htodo, hle, hsince, hcovers⟩ := hvouch
  refine holds_moves hw hc ⟨rfl, rfl⟩ rfl (fun _ _ => Iff.rfl) hlock fun hl => ?_
  exact ⟨(carried_take hp (htodo s (by simp)) hle hsince hcovers hfits).later hl,
    fun k hk => htodo k (List.mem_cons_of_mem _ hk)⟩

theorem holds_finish [DecidableEq H] {p : Pass H} {now : ℤ} (hw : Holds hasher w)
    (hc : w.calls id = some c) (hstage : c.stage = .goes p [])
    (hnow : stamp (readHashes w.pickle) < now) (h : w.finish id c p now = some w') :
    Holds hasher w' := by
  obtain ⟨hsince, hrecalculate, hlock, hvouch⟩ := hw.calls id c hc
  rw [hstage] at hlock hvouch
  obtain ⟨hp, -⟩ := hvouch
  unfold Partition.finish at h
  split at h
  swap
  · obtain rfl := Option.some.inj h
    exact holds_moves hw hc ⟨rfl, rfl⟩ rfl (fun _ _ => Iff.rfl) hlock
      fun hl s hs he => (hp.dated s hs he).later hl
  split at h
  swap
  · contradiction
  rename_i hfree
  split at h
  swap
  · -- something else was written meanwhile
    obtain rfl := Option.some.inj h
    exact holds_moves hw hc ⟨rfl, rfl⟩ rfl (fun _ _ => Iff.rfl) hlock fun _ => trivial
  rename_i hsame
  obtain rfl := Option.some.inj h
  have hread : readHashes (.dict (p.hashes.stamped now)) = p.hashes.stamped now :=
    readHashes_stamped hp.keyed now
  let w₁ : Partition D H := { w with pickle := .dict (p.hashes.stamped now), asOf := p.asOf }
  have hlater : stamp (readHashes w.pickle) < stamp (readHashes (.dict (p.hashes.stamped now))) := by
    rw [hread]
    exact hnow
  have hl : Later hasher w (w₁.enter id c (.returned p.hashes.suffixes p.asOf)) :=
    later_written rfl rfl rfl hlater
  refine holds_enter hw hl rfl (fun _ _ => Iff.rfl) hw.told_le rfl (fun hvalid => ?_)
    ⟨hsince, hrecalculate, hlock, fun s hs he => (hp.dated s hs he).later hl⟩
  have horig : stamp (readHashes w.pickle) = stamp p.orig := by rw [stamp, stamp, hsame.2.1]
  change Carried hasher _ _ (readHashes (.dict (p.hashes.stamped now)))
    (readHashes (.dict (p.hashes.stamped now))) p.asOf
  rw [hread]
  refine ⟨hp.keyed, ?_, fun s hs he => ?_, fun s hs he _ => ?_⟩
  · change _ ≤ stamp (readHashes (.dict (p.hashes.stamped now)))
    rw [hread]
  · obtain ⟨hle, -, hright⟩ := (hp.dated s hs he).later hl
    exact ⟨hle, Nat.zero_le _, hright⟩
  · refine (hp.covers s hs he horig).imp_left fun hwaits => ⟨hwaits.1, fun hclears => hwaits.2 ?_⟩
    exact @clearing_enter _ _ w w₁ _ _ _ rfl (fun _ _ hother => hother) rfl hclears

/-- What is caught leaves nothing to rely on, and the lock free. -/
theorem holds_fail {lock : Option ℕ} (hw : Holds hasher w) (hc : w.calls id = some c)
    (hlock : ∀ other, other ≠ id → (lock = some other ↔ w.lock = some other))
    (hfree : lock ≠ some id) :
    Holds hasher ({ w with lock }.enter id c (.consolidated ⟨some false, none, []⟩ w.asOf)) :=
  holds_moves hw hc ⟨rfl, rfl⟩ rfl hlock (by simpa [Stage.locked] using hfree)
    fun _ hvalid => absurd hvalid (by simp)

theorem holds_turn [DecidableEq H] {t : Turn H} (hw : Holds hasher w)
    (hc : w.calls id = some c) (hallows : Allows w (.turn id t))
    (h : w.turn hasher id c t = some w') : Holds hasher w' := by
  have hlock := (hw.calls id c hc).lock
  cases t with
  | lock =>
    simp only [Partition.turn] at h
    split at h
    · split at h
      · rename_i hfree
        obtain rfl := Option.some.inj h
        refine holds_moves hw hc ⟨rfl, rfl⟩ rfl (fun other hne => ?_) (by simp [Stage.locked])
          fun _ => trivial
        rw [hfree]
        simp [Ne.symm hne]
      · contradiction
    · contradiction
  | combine now =>
    simp only [Partition.turn] at h
    split at h
    · rename_i hstage
      obtain rfl := Option.some.inj h
      exact holds_combine hw hc hstage hallows
    · contradiction
  | clear =>
    simp only [Partition.turn] at h
    split at h
    · rename_i hh asOf hstage
      obtain rfl := Option.some.inj h
      exact holds_clear hw hc hstage
    · contradiction
  | fail =>
    have hgiven : ∀ other, other ≠ id → w.lock = some id →
        ((none : Option ℕ) = some other ↔ w.lock = some other) := by
      intro other hne hheld
      rw [hheld]
      simp [Ne.symm hne]
    simp only [Partition.turn] at h
    split at h
    · rename_i hstage
      obtain rfl := Option.some.inj h
      rw [hstage] at hlock
      exact holds_fail hw hc (fun _ _ => Iff.rfl) (by simpa [Stage.locked] using hlock)
    · rename_i hstage
      obtain rfl := Option.some.inj h
      rw [hstage] at hlock
      exact holds_fail hw hc (fun other hne => hgiven other hne (hlock.mpr rfl)) (by simp)
    · rename_i hh asOf hstage
      obtain rfl := Option.some.inj h
      rw [hstage] at hlock
      exact holds_fail hw hc (fun other hne => hgiven other hne (hlock.mpr rfl)) (by simp)
    · contradiction
  | look =>
    simp only [Partition.turn] at h
    split at h
    · rename_i hh asOf hstage
      obtain rfl := Option.some.inj h
      exact holds_look hw hc hstage
    · contradiction
  | list =>
    simp only [Partition.turn] at h
    split at h
    · rename_i p hstage
      obtain rfl := Option.some.inj h
      exact holds_list hw hc hstage
    · contradiction
  | begin =>
    simp only [Partition.turn] at h
    split at h
    · rename_i p s todo hstage
      obtain rfl := Option.some.inj h
      exact holds_begin hw hc hstage
    · contradiction
  | hash out =>
    simp only [Partition.turn] at h
    split at h
    · rename_i p s seen todo hstage
      split at h
      · rename_i hfits
        obtain rfl := Option.some.inj h
        exact holds_hash hw hc hstage hfits
      · contradiction
    · contradiction
  | finish now =>
    simp only [Partition.turn] at h
    split at h
    · rename_i p hstage
      exact holds_finish hw hc hstage hallows h
    · contradiction

end Calls

section Surroundings

variable {hasher : Hasher D H} {w w' : Partition D H} {id : ℕ} {s : Name}

/-- The calls stand by while something happens to the partition around them. -/
theorem holds_around (hw : Holds hasher w) (hl : Later hasher w w') (hcalls : w'.calls = w.calls)
    (hlock : w'.lock = w.lock) (htold : ∀ s, w'.told s ≤ w'.changes s)
    (hnames : ∀ s ∈ w'.listdir, validSuffix s = true) (hpickle : w'.pickle = w.pickle)
    (hasOf : w'.asOf = w.asOf) : Holds hasher w' where
  told_le := htold
  names := hnames
  cached := by
    rw [hpickle, hasOf]
    exact fun hvalid => (hw.cached hvalid).later hl
  held id hheld := by
    rw [hcalls]
    exact hw.held id (hlock ▸ hheld)
  calls id c hc := by
    rw [hcalls] at hc
    have hold := hw.calls id c hc
    exact ⟨fun s => (hold.since s).trans (hl.told_le s), hold.recalculate,
      hlock ▸ hold.lock, vouches_later hold.stage hl⟩

theorem digestOf_change [DecidableEq H] (dir : Option D) (k : Name) :
    (w.change hasher s dir).digestOf hasher k =
      if k = s then dir.bind hasher.digest else w.digestOf hasher k := by
  change (((w.dirs.filter fun kv => kv.1 ≠ s) ++
    (dir.map fun d => (s, d)).toList).lookup k).bind hasher.digest = _
  rw [List.lookup_append, lookup_without]
  by_cases hk : k = s
  · cases dir with
    | none => simp [hk]
    | some d => simp [hk, lookup_cons]
  · cases dir with
    | none => simp [hk, Partition.digestOf]
    | some d => simp [hk, lookup_cons, Partition.digestOf]

theorem holds_change [DecidableEq H] {dir : Option D} (hw : Holds hasher w)
    (hs : s.chars.length = 3 → validSuffix s = true) : Holds hasher (w.change hasher s dir) := by
  have hle : ∀ k, w.changes k ≤ (w.change hasher s dir).changes k := by
    intro k
    by_cases hk : k = s
    · simp [Partition.change, hk]
    · simp [Partition.change, update_of_ne hk]
  have hl : Later hasher w (w.change hasher s dir) := by
    refine ⟨hle, fun k hk => ?_, fun _ => le_rfl, le_rfl, fun _ _ _ _ _ hcovers => hcovers⟩
    by_cases hks : k = s
    · subst hks
      by_contra hne
      have hnew : (w.replace k dir).digestOf hasher k ≠ w.digestOf hasher k := hne
      simp [Partition.change, hnew] at hk
    · rw [digestOf_change, if_neg hks]
  refine holds_around hw hl rfl rfl (fun k => (hw.told_le k).trans (hle k)) (fun k hk => ?_) rfl rfl
  obtain ⟨hmem, hlength⟩ := List.mem_filter.mp hk
  obtain ⟨kv, hkv, rfl⟩ := List.mem_map.mp hmem
  rcases List.mem_append.mp hkv with hold | hnew
  · exact hw.names _ (List.mem_filter.mpr
      ⟨List.mem_map.mpr ⟨kv, (List.mem_filter.mp hold).1, rfl⟩, hlength⟩)
  · obtain ⟨d, -, rfl⟩ := Option.map_eq_some_iff.mp (Option.mem_toList.mp hnew)
    exact hs (of_decide_eq_true hlength)

theorem holds_invalidate (hw : Holds hasher w) (hfree : w.lock = none) :
    Holds hasher (w.invalidateHash s) := by
  have hle : ∀ k, w.told k ≤ (w.invalidateHash s).told k ∧
      (w.invalidateHash s).told k ≤ w.changes k := by
    intro k
    by_cases hk : k = s
    · subst hk
      simpa [Partition.invalidateHash] using hw.told_le k
    · simpa [Partition.invalidateHash, update_of_ne hk] using hw.told_le k
  have hl : Later hasher w (w.invalidateHash s) := by
    refine ⟨fun _ => le_rfl, fun _ _ => rfl, fun k => (hle k).1, le_rfl, ?_⟩
    intro orig k n hk _ hcovers hstamp
    have hlines : named (w.invalidateHash s).lines = named w.lines ++ named [s] :=
      named_append w.lines [s]
    have hwaits : k ∈ named w.lines ++ named [s] → Waits (w.invalidateHash s) k := by
      intro hmem
      rw [← hlines] at hmem
      exact ⟨hmem, not_clearing hfree⟩
    rcases hcovers hstamp with hold | hknown
    · exact Or.inl (hwaits (List.mem_append_left _ hold.1))
    · by_cases hks : k = s
      · subst hks
        exact Or.inl (hwaits (List.mem_append_right _ (mem_named hk (by simp))))
      · right
        simpa [Partition.invalidateHash, update_of_ne hks] using hknown
  exact holds_around hw hl rfl rfl (fun k => (hle k).2) hw.names rfl rfl

theorem holds_getHashes {suffixes : List Name} {doListdir : Bool} (hw : Holds hasher w)
    (hnone : w.calls id = none) :
    Holds hasher (w.enter id ⟨suffixes.filter validSuffix, doListdir, w.told, .begins⟩ .begins) := by
  have hfree : w.lock ≠ some id := fun hheld => hw.held id hheld hnone
  have hl := @later_enter _ _ hasher w id
    ⟨suffixes.filter validSuffix, doListdir, w.told, .begins⟩ .begins w.lock
    (fun _ _ hother => hother) rfl
  refine holds_enter hw hl rfl (fun _ _ => Iff.rfl) hw.told_le rfl
    (fun hvalid => (hw.cached hvalid).later hl) ⟨fun _ => le_rfl, fun s hs => ?_, ?_, trivial⟩
  · exact (List.mem_filter.mp hs).2
  · simpa [Partition.enter, Stage.locked] using hfree

theorem holds_kill [DecidableEq H] (hw : Holds hasher w)
    (h : w.step hasher (.kill id) = some w') : Holds hasher w' := by
  obtain rfl := Option.some.inj h
  let lock := if w.lock = some id then none else w.lock
  have hlock : ∀ other, lock = some other ↔ w.lock = some other ∧ other ≠ id := by
    intro other
    by_cases hheld : w.lock = some id
    · simp only [lock, hheld, if_true, reduceCtorEq, Option.some.injEq, false_iff, not_and, not_not]
      exact Eq.symm
    · simp only [lock, hheld, if_false, iff_self_and]
      rintro hother rfl
      exact hheld hother
  have hcalls : ∀ other d, update w.calls id none other = some d ↔
      w.calls other = some d ∧ other ≠ id := by
    intro other d
    by_cases heq : other = id
    · simp [heq]
    · rw [update_of_ne heq, and_iff_left heq]
  have hl : Later hasher w { w with calls := update w.calls id none, lock } := by
    refine later_same rfl rfl rfl rfl fun s hs => ⟨hs.1, ?_⟩
    rintro ⟨other, d, hheld, hd, hclears⟩
    exact hs.2 ⟨other, d, ((hlock other).mp hheld).1, ((hcalls other d).mp hd).1, hclears⟩
  refine ⟨hw.told_le, hw.names, fun hvalid => (hw.cached hvalid).later hl, fun other hheld => ?_,
    fun other d hd => ?_⟩
  · obtain ⟨hheld, hne⟩ := (hlock other).mp hheld
    change update w.calls id none other ≠ none
    rw [update_of_ne hne]
    exact hw.held other hheld
  · obtain ⟨hd, hne⟩ := (hcalls other d).mp hd
    have hold := hw.calls other d hd
    exact ⟨hold.since, hold.recalculate,
      ((hlock other).trans (and_iff_left hne)).trans hold.lock, vouches_later hold.stage hl⟩

end Surroundings

end Swiftacular.HashSteps
