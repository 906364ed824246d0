import Swiftacular.HashSteps

/-!
Runs of a partition. A cached hash of which nothing waits is right once all
that happened was told, and an answer is right about all that was told before
it was asked for, however the calls interleave.
-/
namespace Swiftacular.HashRuns

open Function OrderedDicts StepRuns SuffixHashes HashInvariant HashSteps

variable {D H : Type*} [DecidableEq H] {hasher : Hasher D H} {w w' : Partition D H}

theorem holds_step {a : Event D H} (hw : Holds hasher w) (hallows : Allows w a)
    (h : w.step hasher a = some w') : Holds hasher w' := by
  cases a with
  | change s dir =>
    obtain rfl := Option.some.inj h
    exact holds_change hw hallows
  | invalidate s =>
    simp only [Partition.step] at h
    split at h
    · rename_i hfree
      obtain rfl := Option.some.inj h
      exact holds_invalidate hw hfree
    · contradiction
  | getHashes id suffixes doListdir =>
    simp only [Partition.step] at h
    split at h
    · rename_i hnone
      obtain rfl := Option.some.inj h
      exact holds_getHashes hw hnone
    · contradiction
  | turn id t =>
    obtain ⟨c, hc, hturn⟩ := Option.bind_eq_some_iff.mp h
    exact holds_turn hw hc hallows hturn
  | kill id => exact holds_kill hw h

theorem holds_run {actions : List (Event D H)} (hw : Holds hasher w)
    (hallows : Along (Partition.step hasher) Allows w actions)
    (h : run (Partition.step hasher) w actions = some w') : Holds hasher w' :=
  along_keeps (fun _ _ _ => holds_step) hw hallows h

/-- A partition before any call, with what the calls before left of it. -/
def start (dirs : List (Name × D)) (pickle : Pickle H) (invalid : Option (List Name)) :
    Partition D H where
  dirs := dirs
  pickle := pickle
  invalid := invalid
  lock := none
  calls := fun _ => none
  changes := fun _ => 1
  told := fun _ => 1
  asOf := fun s => if s ∈ named (invalid.getD []) then 0 else 1

/-- A cache that is read as valid is right of every suffix no line names. -/
def Trusted (hasher : Hasher D H) (w : Partition D H) : Prop :=
  (∀ s ∈ w.listdir, validSuffix s = true) ∧
    ((readHashes w.pickle).valid = some true → ∀ s, validSuffix s = true → s ∉ named w.lines →
      (readHashes w.pickle).get s ≠ some none →
        ((readHashes w.pickle).get s).join = w.digestOf hasher s)

omit [DecidableEq H] in
theorem holds_start {dirs : List (Name × D)} {pickle : Pickle H} {invalid : Option (List Name)}
    (h : Trusted hasher (start dirs pickle invalid)) :
    Holds hasher (start dirs pickle invalid) := by
  have hasOf : ∀ s, (start dirs pickle invalid).asOf s ≤ 1 := by
    intro s
    simp only [start]
    split <;> omega
  refine ⟨fun _ => le_rfl, h.1, fun hvalid => ⟨readHashes_keyed pickle, le_rfl, ?_, ?_⟩,
    fun id hheld => absurd hheld (by simp [start]), fun id c hc => absurd hc (by simp [start])⟩
  · refine fun s hs he => ⟨hasOf s, Nat.zero_le _, fun heq => h.2 hvalid s hs (fun hmem => ?_) he⟩
    have hmem : s ∈ named (invalid.getD []) := hmem
    simp [start, hmem] at heq
  · intro s hs _ _
    by_cases hmem : s ∈ named (invalid.getD [])
    · exact Or.inl ⟨hmem, not_clearing rfl⟩
    · right
      simp [start, hmem]

omit [DecidableEq H] in
theorem cached_right {s : Name} (hw : Holds hasher w) (hs : validSuffix s = true)
    (htold : w.told s = w.changes s) (hquiet : s ∉ named w.lines)
    (hvalid : (readHashes w.pickle).valid = some true)
    (hhashed : (readHashes w.pickle).get s ≠ some none) :
    ((readHashes w.pickle).get s).join = w.digestOf hasher s := by
  have hcached := hw.cached hvalid
  have hdated := hcached.dated s hs hhashed
  have hcovers : w.told s ≤ w.asOf s :=
    (hcached.covers s hs hhashed rfl).resolve_left fun hwaits => hquiet hwaits.1
  exact hdated.right (le_antisymm hdated.le (htold ▸ hcovers))

variable {dirs : List (Name × D)} {pickle : Pickle H} {invalid : Option (List Name)}
  {actions : List (Event D H)} {s : Name}

instance (w : Partition D H) (a : Event D H) : Decidable (Allows w a) :=
  match a with
  | .change s _ => inferInstanceAs (Decidable (s.chars.length = 3 → validSuffix s = true))
  | .turn _ (.combine now) => inferInstanceAs (Decidable (stamp (readHashes w.pickle) < now))
  | .turn _ (.finish now) => inferInstanceAs (Decidable (stamp (readHashes w.pickle) < now))
  | .turn _ .lock | .turn _ .clear | .turn _ .fail | .turn _ .look | .turn _ .list
  | .turn _ .begin | .turn _ (.hash _) | .invalidate _ | .getHashes _ _ _ | .kill _ => isTrue trivial

/-- A suffix, hashed by what is in it, where nothing is for zero. -/
def abc : Name := ⟨['a', 'b', 'c']⟩

def sampleHasher : Hasher ℕ ℕ := ⟨fun d => if d = 0 then none else some d, fun _ => false⟩

def sampleStart : Partition ℕ ℕ := start [(abc, 1)] .missing none

/-- A call hashes a suffix that changes meanwhile. Another call, begun after,
writes first, and the first begins again. -/
def overtaken : List (Event ℕ ℕ) :=
  [.getHashes 0 [] false, .turn 0 .lock, .turn 0 (.combine 1), .turn 0 .look, .turn 0 .list,
    .turn 0 .begin, .change abc (some 2), .invalidate abc, .turn 0 (.hash (.hashed 1)),
    .getHashes 1 [] false, .turn 1 .lock, .turn 1 (.combine 2), .turn 1 .clear, .turn 1 .look,
    .turn 1 .list, .turn 1 .begin, .turn 1 (.hash (.hashed 2)), .turn 1 (.finish 3),
    .turn 0 (.finish 4), .turn 0 .lock]

/-- What a call returned. -/
def answerOf (c : Call H) : Option (List (Name × Option H)) :=
  match c.stage with
  | .returned suffixes _ => some suffixes
  | _ => none

theorem sample_trusted : Trusted sampleHasher sampleStart :=
  ⟨by decide, fun hvalid => absurd hvalid (by decide)⟩

theorem overtaken_allows : Along (Partition.step sampleHasher) Allows sampleStart overtaken := by
  decide

theorem overtaken_run : ∃ w, run (Partition.step sampleHasher) sampleStart overtaken = some w ∧
    (readHashes w.pickle).get abc = some (some 2) ∧ (readHashes w.pickle).valid = some true ∧
    w.told abc = w.changes abc ∧ w.lines = [] ∧
    ∃ c asOf, w.calls 1 = some c ∧ c.stage = .returned [(abc, some 2)] asOf ∧
      c.since abc = w.changes abc := by
  obtain ⟨w, hw⟩ := Option.isSome_iff_exists.mp
    (show (run (Partition.step sampleHasher) sampleStart overtaken).isSome = true by decide)
  have hend : (run (Partition.step sampleHasher) sampleStart overtaken).map (fun w =>
      ((readHashes w.pickle).get abc, (readHashes w.pickle).valid, w.told abc, w.changes abc,
        w.lines)) = some (some (some 2), some true, 2, 2, []) := by decide
  have hanswered : (run (Partition.step sampleHasher) sampleStart overtaken).bind (fun w =>
      (w.calls 1).map fun c => (c.since abc, answerOf c)) =
        some (2, some [(abc, some 2)]) := by decide
  rw [hw] at hend hanswered
  simp only [Option.map_some, Option.some.injEq, Prod.mk.injEq] at hend
  obtain ⟨hget, hvalid, htold, hchanges, hlines⟩ := hend
  obtain ⟨c, hc, hanswer⟩ := Option.map_eq_some_iff.mp hanswered
  obtain ⟨hsince, hanswer⟩ := Prod.mk.inj hanswer
  have hstage : ∃ asOf, c.stage = .returned [(abc, some 2)] asOf := by
    unfold answerOf at hanswer
    split at hanswer
    · rename_i suffixes asOf hstage
      obtain rfl := Option.some.inj hanswer
      exact ⟨asOf, hstage⟩
    · contradiction
  obtain ⟨asOf, hstage⟩ := hstage
  exact ⟨w, hw, hget, hvalid, htold.trans hchanges.symm, hlines, c, asOf, hc, hstage,
    hsince.trans hchanges.symm⟩

/-- Once all that happened to a suffix was told and no line names it, the hash
that is cached for it is that of what is there, however the calls interleaved. -/
theorem cached_hash (htrusted : Trusted hasher (start dirs pickle invalid))
    (hallows : Along (Partition.step hasher) Allows (start dirs pickle invalid) actions)
    (hrun : run (Partition.step hasher) (start dirs pickle invalid) actions = some w)
    (hs : validSuffix s = true) (htold : w.told s = w.changes s) (hquiet : s ∉ named w.lines)
    (hvalid : (readHashes w.pickle).valid = some true)
    (hhashed : (readHashes w.pickle).get s ≠ some none) :
    ((readHashes w.pickle).get s).join = w.digestOf hasher s :=
  cached_right (holds_run (holds_start htrusted) hallows hrun) hs htold hquiet hvalid hhashed

/-- Call 0 hashed what was there before, and did not get to write it. -/
theorem cached_hash_overtaken : ∃ w,
    run (Partition.step sampleHasher) sampleStart overtaken = some w ∧
      some 2 = w.digestOf sampleHasher abc := by
  obtain ⟨w, hw, hget, hvalid, htold, hlines, -⟩ := overtaken_run
  refine ⟨w, hw, ?_⟩
  have hright := cached_hash sample_trusted overtaken_allows hw (by decide : validSuffix abc = true)
    htold (by simp [hlines, named]) hvalid (by simp [hget])
  rwa [hget] at hright

/-- What of a call's dictionary has no hash is what is left to do. -/
def Complete (c : Call H) : Prop :=
  match c.stage with
  | .goes p todo => ∀ s, p.hashes.get s = some none → s ∈ todo
  | .digests p s _ todo => ∀ k, p.hashes.get k = some none → k ∈ s :: todo
  | .returned suffixes _ => ∀ s, suffixes.lookup s ≠ some none
  | _ => True

/-- No directory is unreadable to the call. -/
def Reads (id : ℕ) : Event D H → Prop
  | .turn other (.hash .osError) => other ≠ id
  | _ => True

omit [DecidableEq H] in
theorem complete_list {id : ℕ} {c : Call H} {p : Pass H} :
    ∃ c', (w.list hasher id c p).calls = update w.calls id (some c') ∧ Complete c' := by
  refine ⟨_, rfl, fun s hs => ?_⟩
  exact List.mem_map.mpr ⟨(s, none), List.mem_filter.mpr ⟨mem_of_lookup hs, rfl⟩, rfl⟩

omit [DecidableEq H] in
theorem complete_take {p : Pass H} {s : Name} {seen : ℕ} {todo : List Name} {out : Outcome H}
    (hleft : ∀ k, p.hashes.get k = some none → k ∈ s :: todo) (hout : out ≠ .osError) :
    ∀ k, (p.take s seen out).hashes.get k = some none → k ∈ todo := by
  intro k hk
  cases out with
  | hashed h =>
    simp only [Pass.take, get_set] at hk
    by_cases hks : k = s
    · simp [hks] at hk
    · rw [if_neg hks] at hk
      exact (List.mem_cons.mp (hleft k hk)).resolve_left hks
  | pathNotDir =>
    simp only [Pass.take, get_del] at hk
    by_cases hks : k = s
    · simp [hks] at hk
    · rw [if_neg hks] at hk
      exact (List.mem_cons.mp (hleft k hk)).resolve_left hks
  | osError => contradiction

/-- A turn changes the call whose turn it is, and no other. -/
theorem complete_turn {id : ℕ} {c : Call H} {t : Turn H} (h : w.turn hasher id c t = some w') :
    ∃ c', w'.calls = update w.calls id (some c') ∧
      (Complete c → t ≠ .hash .osError → Complete c') := by
  cases t with
  | lock =>
    simp only [Partition.turn] at h
    split at h
    · split at h
      · obtain rfl := Option.some.inj h
        exact ⟨_, rfl, fun _ _ => trivial⟩
      · contradiction
    · contradiction
  | combine now =>
    simp only [Partition.turn] at h
    split at h
    · obtain rfl := Option.some.inj h
      simp only [Partition.combine]
      split <;> exact ⟨_, rfl, fun _ _ => trivial⟩
    · contradiction
  | clear =>
    simp only [Partition.turn] at h
    split at h
    · obtain rfl := Option.some.inj h
      exact ⟨_, rfl, fun _ _ => trivial⟩
    · contradiction
  | fail =>
    simp only [Partition.turn] at h
    split at h
    · obtain rfl := Option.some.inj h
      exact ⟨_, rfl, fun _ _ => trivial⟩
    · obtain rfl := Option.some.inj h
      exact ⟨_, rfl, fun _ _ => trivial⟩
    · obtain rfl := Option.some.inj h
      exact ⟨_, rfl, fun _ _ => trivial⟩
    · contradiction
  | look =>
    simp only [Partition.turn] at h
    split at h
    · obtain rfl := Option.some.inj h
      simp only [Partition.look]
      split <;> exact ⟨_, rfl, fun _ _ => trivial⟩
    · contradiction
  | list =>
    simp only [Partition.turn] at h
    split at h
    · obtain rfl := Option.some.inj h
      obtain ⟨c', hcalls, hc'⟩ := complete_list
      exact ⟨c', hcalls, fun _ _ => hc'⟩
    · contradiction
  | begin =>
    simp only [Partition.turn] at h
    split at h
    · rename_i p s todo hstage
      obtain rfl := Option.some.inj h
      refine ⟨_, rfl, fun hc _ => ?_⟩
      rw [Complete, hstage] at hc
      exact hc
    · contradiction
  | hash out =>
    simp only [Partition.turn] at h
    split at h
    · rename_i p s seen todo hstage
      split at h
      · obtain rfl := Option.some.inj h
        refine ⟨_, rfl, fun hc hreads => ?_⟩
        rw [Complete, hstage] at hc
        exact complete_take hc fun hout => hreads (by rw [hout])
      · contradiction
    · contradiction
  | finish now =>
    simp only [Partition.turn] at h
    split at h
    · rename_i p hstage
      have hnone : Complete c → ∀ s, p.hashes.suffixes.lookup s ≠ some none := by
        intro hc s hs
        rw [Complete, hstage] at hc
        exact absurd (hc s hs) List.not_mem_nil
      simp only [Partition.finish] at h
      split at h
      · split at h
        · split at h
          · obtain rfl := Option.some.inj h
            exact ⟨_, rfl, fun hc _ => hnone hc⟩
          · obtain rfl := Option.some.inj h
            exact ⟨_, rfl, fun _ _ => trivial⟩
        · contradiction
      · obtain rfl := Option.some.inj h
        exact ⟨_, rfl, fun hc _ => hnone hc⟩
    · contradiction

theorem complete_step {id : ℕ} {a : Event D H} (hw : ∀ c, w.calls id = some c → Complete c)
    (hreads : Reads id a) (h : w.step hasher a = some w') :
    ∀ c, w'.calls id = some c → Complete c := by
  cases a with
  | change s dir =>
    obtain rfl := Option.some.inj h
    exact hw
  | invalidate s =>
    simp only [Partition.step] at h
    split at h
    · obtain rfl := Option.some.inj h
      exact hw
    · contradiction
  | getHashes other suffixes doListdir =>
    simp only [Partition.step] at h
    split at h
    · obtain rfl := Option.some.inj h
      intro c hc
      by_cases heq : id = other
      · have hc : update w.calls other _ id = some c := hc
        rw [heq, update_self] at hc
        obtain rfl := Option.some.inj hc
        trivial
      · have hc : update w.calls other _ id = some c := hc
        rw [update_of_ne heq] at hc
        exact hw c hc
    · contradiction
  | turn other t =>
    obtain ⟨d, hd, hturn⟩ := Option.bind_eq_some_iff.mp h
    intro c hc
    obtain ⟨c', hcalls, hc'⟩ := complete_turn hturn
    rw [hcalls] at hc
    by_cases heq : id = other
    · subst heq
      rw [update_self] at hc
      obtain rfl := Option.some.inj hc
      refine hc' (hw d hd) ?_
      rintro rfl
      exact hreads rfl
    · rw [update_of_ne heq] at hc
      exact hw c hc
  | kill other =>
    obtain rfl := Option.some.inj h
    intro c hc
    have hc : update w.calls other none id = some c := hc
    by_cases heq : id = other
    · rw [heq, update_self] at hc
      contradiction
    · rw [update_of_ne heq] at hc
      exact hw c hc

theorem complete_run {id : ℕ} (hw : ∀ c, w.calls id = some c → Complete c)
    (hreads : ∀ a ∈ actions, Reads id a) (hrun : run (Partition.step hasher) w actions = some w') :
    ∀ c, w'.calls id = some c → Complete c := by
  induction actions generalizing w with
  | nil =>
    obtain rfl := Option.some.inj hrun
    exact hw
  | cons a rest ih =>
    obtain ⟨u, hu, hrest⟩ := run_cons_some hrun
    exact ih (complete_step hw (hreads a (List.mem_cons_self ..)) hu)
      (fun b hb => hreads b (List.mem_cons_of_mem _ hb)) hrest

/-- The hashes a call returns are those of what is there, for every suffix of
which all was told when the call began and that has not changed since, if no
directory was unreadable to it. -/
theorem answered_hash {id : ℕ} {c : Call H} {suffixes : List (Name × Option H)}
    {asOf : Name → ℕ} (htrusted : Trusted hasher (start dirs pickle invalid))
    (hallows : Along (Partition.step hasher) Allows (start dirs pickle invalid) actions)
    (hrun : run (Partition.step hasher) (start dirs pickle invalid) actions = some w)
    (hreads : ∀ a ∈ actions, Reads id a) (hc : w.calls id = some c)
    (hreturned : c.stage = .returned suffixes asOf) (hs : validSuffix s = true)
    (hsince : c.since s = w.changes s) :
    suffixes.lookup s = (w.digestOf hasher s).map some := by
  have hw : Holds hasher w := holds_run (holds_start htrusted) hallows hrun
  have hvouch := (hw.calls id c hc).stage
  rw [hreturned] at hvouch
  have hhashed : suffixes.lookup s ≠ some none := by
    have hnone : ∀ d, (start dirs pickle invalid : Partition D H).calls id = some d → Complete d :=
      fun d hd => absurd hd (by simp [start])
    have hleft := complete_run hnone hreads hrun c hc
    rw [Complete, hreturned] at hleft
    exact hleft s
  have hdated := hvouch s hs hhashed
  rw [← hdated.right (le_antisymm hdated.le (hsince ▸ hdated.since))]
  cases hlookup : suffixes.lookup s with
  | none => rfl
  | some v =>
    cases v with
    | none => exact absurd hlookup hhashed
    | some h => rfl

theorem answered_hash_overtaken : ∃ w,
    run (Partition.step sampleHasher) sampleStart overtaken = some w ∧
      some (some 2) = (w.digestOf sampleHasher abc).map some := by
  obtain ⟨w, hw, -, -, -, -, c, asOf, hc, hstage, hsince⟩ := overtaken_run
  refine ⟨w, hw, ?_⟩
  exact answered_hash sample_trusted overtaken_allows hw (by simp [overtaken, Reads]) hc hstage
    (by decide : validSuffix abc = true) hsince

end Swiftacular.HashRuns
