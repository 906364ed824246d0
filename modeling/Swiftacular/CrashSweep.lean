import Swiftacular.WrittenWhole
import Swiftacular.Sweep

/-!
A crash and the sweep after it. A crash leaves in each collection what some of
the transactions handed over for it made, the first ones; the sweep removes
what is still in the temporary space, and every name reports the version its
last surviving put gave it. What is left is a store that was never used
otherwise, so the next life of the process starts where the first one did.
-/
namespace Swiftacular.CrashSweep

open Function EntryStore EngineObjects Versions EngineRuns LiveObjects PreparedLog WrittenWhole
  Sweep

variable (collection : Name → Collection)

/-- What is left of a run whose log this was: how many transactions the store
had taken, and of those of each collection, what the first ones made. -/
structure Crash (s : Store) (log : List Txn) where
  handed : ℕ
  taken : (applyAll s (opsOf (log.take handed))).isSome
  cut : Collection → ℕ
  cut_le : ∀ c, cut c ≤ handed
  disk : Store
  survived : ∀ c, ∃ t,
    applyAll s (opsOf ((log.take (cut c)).filter fun x => collection x.name = c)) = some t ∧
      ∀ a, collection a.name = c → disk a = t a

/-- The entries of each collection, the temporary space first. -/
structure Lists (s : Store) (listed : Collection → List Address) : Prop where
  entries : ∀ c a, a ∈ listed c ↔ (s a).isSome ∧ collection a.name = c
  temporaryFirst : ∀ c,
    (listed c).Pairwise fun a b => isTemporary b = true → isTemporary a = true

variable {collection}

theorem Lists.listed {s : Store} {listed : Collection → List Address}
    (h : Lists collection s listed) : Listed s ((List.finRange _).map listed) := by
  refine ⟨fun entries he a ha => ?_, fun a ha => ?_, fun entries he => ?_⟩
  · obtain ⟨c, -, rfl⟩ := List.mem_map.mp he
    exact ((h.entries c a).mp ha).1
  · exact ⟨_, List.mem_map_of_mem (List.mem_finRange (collection a.name)),
      (h.entries _ a).mpr ⟨ha, rfl⟩⟩
  · obtain ⟨c, -, rfl⟩ := List.mem_map.mp he
    exact h.temporaryFirst c

/-- A rendered entry leads back to its address. -/
theorem Renders.restorable {r : Record} {s : Store} (h : Renders r s) {a : Address}
    (ha : (s a).isSome) : Restorable s a := by
  obtain ⟨x, hx⟩ := Option.isSome_iff_exists.mp ha
  cases a with
  | mk space n g =>
    cases space with
    | ordinary =>
      by_cases hg : g = 0
      · subst hg
        have hheld := h.holder n
        rw [show s (ordinary n) = some x from hx] at hheld
        obtain ⟨v, -, rfl⟩ := Option.map_eq_some_iff.mp hheld.symm
        refine ⟨⟨n, v.stat.ts, v.stat.deleted, .active⟩, ?_, rfl⟩
        simp [load, hx, Version.entry]
      · rw [h.base n g hg] at hx
        contradiction
    | temporary =>
      obtain ⟨id, v, hv, hn, ht⟩ := h.owned n g ha
      have hentry := h.version id v hv
      rw [hn, ht, show s (temporary n g) = some x from hx] at hentry
      obtain rfl := Option.some.inj hentry
      refine ⟨⟨n, g, v.stat.deleted, if v.stat.state = .old then .old else .inWrite⟩, ?_, ?_⟩
      · simp [load, hx, Version.entry, ht]
      · refine address_temp ?_
        dsimp only
        split <;> rfl

/-- The changes for one collection, among those of a log. -/
theorem opsOf_filter {log : List Txn} (hnamed : ∀ t ∈ log, Named t) (c : Collection) :
    opsOf (log.filter fun t => collection t.name = c) =
      (opsOf log).filter fun op => op.addresses.all fun a => collection a.name = c := by
  induction log with
  | nil => rfl
  | cons t rest ih =>
    have ih := ih fun u hu => hnamed u (List.mem_cons_of_mem _ hu)
    have ht := (hnamed t (List.mem_cons_self ..)).1
    have hsome : ∀ op : Op, op.addresses ≠ [] := by
      intro op
      cases op <;> simp [Op.addresses]
    have hop : ∀ op ∈ t.ops, (op.addresses.all fun a => collection a.name = c) =
        decide (collection t.name = c) := by
      intro op hop
      have hname := ht op hop
      by_cases hc : collection t.name = c
      · simp only [hc, decide_true, List.all_eq_true, decide_eq_true_eq]
        intro a ha
        rw [hname a ha, hc]
      · obtain ⟨a, ha⟩ := List.exists_mem_of_ne_nil _ (hsome op)
        simp only [hc, decide_false, List.all_eq_false, decide_eq_true_eq]
        exact ⟨a, ha, by rw [hname a ha]; exact hc⟩
    have hsplit : opsOf (t :: rest) = t.ops ++ opsOf rest := rfl
    rw [hsplit, List.filter_append, ← ih]
    by_cases hc : collection t.name = c
    · have hall : t.ops.filter (fun op => op.addresses.all fun a => collection a.name = c) =
          t.ops := List.filter_eq_self.mpr fun op ho => by rw [hop op ho]; simpa using hc
      rw [hall, List.filter_cons_of_pos (by simpa using hc)]
      rfl
    · have hnone : t.ops.filter (fun op => op.addresses.all fun a => collection a.name = c) = [] :=
        List.filter_eq_nil_iff.mpr fun op ho => by rw [hop op ho]; simpa using hc
      rw [hnone, List.filter_cons_of_neg (by simpa using hc), List.nil_append]

/-- A collection after a crash is that of a store the first transactions made. -/
theorem disk_prefix {s : Store} {log : List Txn} (hnamed : ∀ t ∈ log, Named t)
    (crash : Crash collection s log) (c : Collection) :
    ∃ t, applyAll s (opsOf (log.take (crash.cut c))) = some t ∧
      ∀ a, collection a.name = c → crash.disk a = t a := by
  obtain ⟨all, hall⟩ := Option.isSome_iff_exists.mp crash.taken
  have hcut : log.take crash.handed = log.take (crash.cut c) ++
      (log.take crash.handed).drop (crash.cut c) := by
    have htake : (log.take crash.handed).take (crash.cut c) = log.take (crash.cut c) := by
      rw [List.take_take, min_eq_left (crash.cut_le c)]
    rw [← htake, List.take_append_drop]
  rw [hcut, opsOf_append] at hall
  obtain ⟨t, ht, -⟩ := applyAll_append_some hall
  refine ⟨t, ht, fun a ha => ?_⟩
  obtain ⟨u, hu, hdisk⟩ := crash.survived c
  have hnamed : ∀ x ∈ log.take (crash.cut c), Named x :=
    fun x hx => hnamed x (List.mem_of_mem_take hx)
  rw [opsOf_filter hnamed] at hu
  let inside : Op → Bool := fun op => op.addresses.all fun a => collection a.name = c
  have hin : ∀ op ∈ opsOf (log.take (crash.cut c)), inside op = true →
      ∀ a ∈ op.addresses, a ∈ {a : Address | collection a.name = c} := by
    intro op _ hinside a ha
    exact of_decide_eq_true (List.all_eq_true.mp hinside a ha)
  have hout : ∀ op ∈ opsOf (log.take (crash.cut c)), inside op = false →
      ∀ a ∈ op.addresses, a ∉ {a : Address | collection a.name = c} := by
    intro op hop hinside a ha hmem
    obtain ⟨t, ht, hop⟩ := List.mem_flatMap.mp hop
    obtain ⟨b, hb, hbc⟩ := List.all_eq_false.mp hinside
    have hname := (hnamed t ht).1 op hop
    rw [hname b hb] at hbc
    have hmem : collection a.name = c := hmem
    rw [hname a ha] at hmem
    exact hbc (decide_eq_true hmem)
  obtain ⟨u', hu', hagree⟩ := applyAll_filter inside hin hout (fun _ _ => rfl) ht
  obtain rfl := Option.some.inj (hu.symm.trans hu')
  rw [hdisk a ha, hagree a ha]

theorem disk_renders {r : Record} {s : Store} {e : Engine} (h : Sound r s e)
    (crash : Crash collection s e.core.log) (c : Collection) :
    ∃ t, Renders (r.after (e.core.log.take (crash.cut c))) t ∧
      ∀ a, collection a.name = c → crash.disk a = t a := by
  obtain ⟨t, ht, hdisk⟩ := disk_prefix h.named crash c
  exact ⟨t, h.journal _ t ht, hdisk⟩

/-- Every entry that a crash leaves leads back to its address. -/
theorem disk_restorable {r : Record} {s : Store} {e : Engine} (h : Sound r s e)
    (crash : Crash collection s e.core.log) {a : Address} (ha : (crash.disk a).isSome) :
    Restorable crash.disk a := by
  obtain ⟨u, hu, hdisk⟩ := disk_renders h crash (collection a.name)
  rw [hdisk a rfl] at ha
  obtain ⟨stat, hload, haddr⟩ := Renders.restorable hu ha
  refine ⟨stat, ?_, haddr⟩
  rwa [load, hdisk a rfl, ← load]

/-- A crash that leaves the first `k` of the transactions the store had taken. -/
def crashAt {s left : Store} {log : List Txn} {n k : ℕ} (home : Collection) (hk : k ≤ n)
    (htaken : (applyAll s (opsOf (log.take n))).isSome)
    (h : applyAll s (opsOf (log.take k)) = some left) : Crash (fun _ => home) s log where
  handed := n
  taken := htaken
  cut := fun _ => k
  cut_le := fun _ => hk
  disk := left
  survived := by
    intro c
    by_cases hc : home = c
    · refine ⟨left, ?_, fun _ _ => rfl⟩
      have hall : ∀ x ∈ log.take k, decide ((fun _ => home) x.name = c) = true :=
        fun x _ => decide_eq_true hc
      rw [List.filter_eq_self.mpr hall]
      exact h
    · refine ⟨s, ?_, fun a ha => absurd ha hc⟩
      have hnone : ∀ x ∈ log.take k, ¬ decide ((fun _ => home) x.name = c) = true :=
        fun x _ heq => hc (of_decide_eq_true heq)
      rw [List.filter_eq_nil_iff.mpr hnone]
      rfl

/-- The entries that are there, of some addresses. -/
def listing (s : Store) (home : Collection) (addresses : List Address) (c : Collection) :
    List Address :=
  if c = home then addresses.filter fun a => (s a).isSome else []

theorem lists_listing {s : Store} {home : Collection} {addresses : List Address}
    (hall : ∀ a, (s a).isSome → a ∈ addresses)
    (hfirst : addresses.Pairwise fun a b => isTemporary b = true → isTemporary a = true) :
    Lists (fun _ => home) s (listing s home addresses) := by
  refine ⟨fun c a => ?_, fun c => ?_⟩
  · unfold listing
    by_cases hc : c = home
    · rw [if_pos hc, List.mem_filter]
      exact ⟨fun h => ⟨h.2, hc.symm⟩, fun h => ⟨hall a h.1, h.1⟩⟩
    · rw [if_neg hc]
      exact ⟨fun h => absurd h List.not_mem_nil, fun h => absurd h.2.symm hc⟩
  · unfold listing
    split
    · exact hfirst.filter _
    · exact List.Pairwise.nil

/-- What transactions leave is where something was or where they made it. -/
theorem made_within {s t : Store} {ops : List Op} {addresses : List Address}
    (hs : ∀ a, (s a).isSome → a ∈ addresses) (h : applyAll s ops = some t)
    (hops : ∀ op ∈ ops, ∀ a ∈ op.addresses, a ∈ addresses) {a : Address} (ha : (t a).isSome) :
    a ∈ addresses := by
  by_contra hnot
  rw [applyAll_other h fun op hop hmem => hnot (hops op hop a hmem)] at ha
  exact hnot (hs a ha)

/-! A put that survived, and a write that was never put. -/

/-- What the four transactions of the run made. -/
def leftover : Store :=
  update (update (fun _ => none) (ordinary "a/c/o")
    (some ⟨[1, 2], [9], some ⟨200, false, false⟩⟩)) (temporary "a/c/o" 250)
    (some ⟨[3], [], some ⟨250, false, false⟩⟩)

end Swiftacular.CrashSweep
