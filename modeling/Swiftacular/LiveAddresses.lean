import Swiftacular.EngineRuns

/-!
Where the live Objects are. An Object being written is at its estimate, a
retired one at the timestamp it was put with, both in the temporary space of
its name. Estimates are apart from each other and so are the timestamps a
name was put with; nothing keeps an estimate apart from the timestamp of a
holder that is retired.
-/
namespace Swiftacular.LiveAddresses

open Function EntryStore EngineObjects Versions EngineRuns StepRuns

/-- The timestamp a name was put with last, in the log or before it. -/
def heldTs (s : Store) (log : List Txn) (name : Name) : Option ℕ :=
  log.foldl (fun held t =>
      match t.note with
      | .put _ _ n ts => if n = name then some ts else held
      | _ => held)
    ((s (ordinary name)).bind fun e => e.attrs.map Attrs.ts)

/-- No timestamp is given to `create`, and `put` is given the holder. -/
def Given (s : Store) (e : Engine) : Call → Prop
  | .create _ ts _ => ts = none
  | .put next prev ts => ∀ n p result, e.core.heap next = some n → e.core.heap prev = some p →
      Backend.put 0 n p ts = .ok result →
      match heldTs s e.core.log p.name with
      | none => p.state = .missing
      | some t => p.state = .active ∧ p.ts = t
  | _ => True

/-- The estimate after the last one is still a 64-bit count of ticks. -/
def Unwrapped (e : Engine) : Call → Prop
  | .create _ _ _ => e.core.last.toNat + 1 < UInt64.size
  | _ => True

/-- No live retired Object of the name is at the estimate of one written first. -/
def FirstWriteClear (e : Engine) (id : ℕ) : Prop :=
  ∀ o, e.core.heap id = some o → o.state = .preWrite →
    ∀ k q, e.core.heap k = some q → q.state = .old → q.name = o.name → q.ts ≠ o.ts

/-- What keeps an estimate and the timestamp of a retired Object apart. -/
def Clear (e : Engine) : Call → Prop
  | .write id _ => FirstWriteClear e id
  | .writeMetadata id _ => FirstWriteClear e id
  | .tombstone id _ => FirstWriteClear e id
  | .put next prev ts => ∀ n p result, e.core.heap next = some n → e.core.heap prev = some p →
      Backend.put 0 n p ts = .ok result → p.state = .active →
      ∀ k q, e.core.heap k = some q → q.state = .inWrite → q.name = p.name → q.ts ≠ p.ts
  | _ => True

/-- The addresses a change takes from, or gives away to, whatever is there. -/
def displaced : EngineObjects.Op → List Address
  | .remove a => [a]
  | .rename _ b => [b]
  | _ => []

/-- A put moves onto, and a release removes, no other live Object's entry. -/
def Spares (e : Engine) : Call → Prop
  | .put next prev ts => ∀ n p result, e.core.heap next = some n → e.core.heap prev = some p →
      Backend.put 0 n p ts = .ok result → ∀ op ∈ result.2.2, ∀ a ∈ displaced op,
      ∀ k q, e.core.heap k = some q → InTemp q → address q.toStat ≠ a
  | .release id => ∀ o ops, e.core.heap id = some o → o.release = some ops →
      ∀ op ∈ ops, ∀ a ∈ displaced op,
      ∀ k q, e.core.heap k = some q → InTemp q → address q.toStat = a → k = id
  | _ => True

/-- No address is shared in any state of the run, nor taken by any call of it. -/
def Unshared (e : Engine) (calls : List Call) : Prop :=
  (∀ k e', e.run (calls.take k) = some e' → Apart e'.core) ∧ Keeps Spares e calls

/-- The timestamps of the live Objects: estimates are never repeated, and a
retired Object's is below its name's. -/
structure Spread (s : Store) (c : Core) : Prop where
  numbered : Numbered c
  young : ∀ i o, c.heap i = some o → Writing o → o.ts ≤ c.last.toNat
  distinct : ∀ i j o p, c.heap i = some o → c.heap j = some p → Writing o → Writing p →
    o.ts = p.ts → i = j
  retired : ∀ i o, c.heap i = some o → o.state = .old →
    ∃ t, heldTs s c.log o.name = some t ∧ o.ts < t
  once : ∀ i j o p, c.heap i = some o → c.heap j = some p → o.state = .old → p.state = .old →
    o.name = p.name → o.ts = p.ts → i = j
  across : ∀ i j o p, c.heap i = some o → c.heap j = some p → o.state = .inWrite →
    p.state = .old → o.name = p.name → o.ts ≠ p.ts

theorem Spread.apart {s : Store} {c : Core} (h : Spread s c) : Apart c := by
  intro i j o p ho hp htemp htemp' hname hts
  rcases htemp with ha | ha
  · rcases htemp' with hb | hb
    · exact h.distinct i j o p ho hp (Or.inr ha) (Or.inr hb) hts
    · exact absurd hts (h.across i j o p ho hp ha hb hname)
  · rcases htemp' with hb | hb
    · exact absurd hts.symm (h.across j i p o hp ho hb ha hname.symm)
    · exact h.once i j o p ho hp ha hb hname hts

theorem spread_start (s : Store) (last : UInt64) : Spread s (Engine.start s last).core := by
  refine ⟨fun _ _ => rfl, ?_, ?_, ?_, ?_, ?_⟩
  · intro i o ho
    contradiction
  · intro i j o p ho
    contradiction
  · intro i o ho
    contradiction
  · intro i j o p ho
    contradiction
  · intro i j o p ho
    contradiction

theorem estimate_gt {last : UInt64} (us : UInt64) (h : last.toNat + 1 < UInt64.size) :
    last.toNat < (estimate last us).toNat := by
  have hnext : (last + 1).toNat = last.toNat + 1 := by
    rw [UInt64.toNat_add]
    exact Nat.mod_eq_of_lt h
  have hmax : (last + 1).toNat ≤ (estimate last us).toNat := by
    change _ ≤ (if us / (1000000 / ticksPerSecond) ≤ last + 1 then last + 1
      else us / (1000000 / ticksPerSecond)).toNat
    split
    · omega
    · rename_i hnot
      rw [UInt64.le_iff_toNat_le] at hnot
      omega
  omega

@[simp] theorem heldTs_concat (s : Store) (log : List Txn) (t : Txn) (name : Name) :
    heldTs s (log ++ [t]) name =
      match t.note with
      | .put _ _ n ts => if n = name then some ts else heldTs s log name
      | _ => heldTs s log name := by
  simp only [heldTs, List.foldl_append, List.foldl_cons, List.foldl_nil]

/-- A new Object, if it is to be written then at a timestamp above all estimates. -/
theorem spread_fresh {s : Store} {c : Core} (h : Spread s c) {o : Object} {last : UInt64}
    (hle : c.last.toNat ≤ last.toNat)
    (hstate : o.state = .preSearch ∨
      o.state = .preWrite ∧ c.last.toNat < o.ts ∧ o.ts ≤ last.toNat) :
    Spread s { c with heap := update c.heap c.fresh (some o), fresh := c.fresh + 1, last } := by
  have hold : o.state ≠ .old := by rcases hstate with h | ⟨h, -⟩ <;> simp [h]
  have hin : o.state ≠ .inWrite := by rcases hstate with h | ⟨h, -⟩ <;> simp [h]
  have hnew : Writing o → c.last.toNat < o.ts ∧ o.ts ≤ last.toNat := by
    intro hw
    rcases hstate with h | ⟨-, hts⟩
    · rcases hw with hw | hw <;> simp [h] at hw
    · exact hts
  have hkeep : ∀ {k q}, update c.heap c.fresh (some o) k = some q →
      (k = c.fresh ∧ q = o) ∨ c.heap k = some q := by
    intro k q hq
    rcases heap_update hq with ⟨hk, ho⟩ | ⟨-, hq⟩
    · exact Or.inl ⟨hk, (Option.some.inj ho).symm⟩
    · exact Or.inr hq
  have hlater : ∀ {k q}, c.heap k = some q → Writing q → q.ts ≤ last.toNat :=
    fun hq hw => (h.young _ _ hq hw).trans hle
  refine ⟨fun k hk => ?_, fun i p hp hw => ?_, fun i j p q hp hq hw hw' hts => ?_,
    fun i p hp ho => ?_, fun i j p q hp hq ho ho' => ?_, fun i j p q hp hq hi ho => ?_⟩
  · have hk : c.fresh + 1 ≤ k := hk
    exact (update_of_ne (by omega) _ _).trans (h.numbered k (by omega))
  · rcases hkeep hp with ⟨-, rfl⟩ | hq
    · exact (hnew hw).2
    · exact hlater hq hw
  · rcases hkeep hp with ⟨hi, rfl⟩ | hp'
    · rcases hkeep hq with ⟨hj, rfl⟩ | hq'
      · omega
      · have hlt := (hnew hw).1
        have hyoung := h.young j q hq' hw'
        omega
    · rcases hkeep hq with ⟨-, rfl⟩ | hq'
      · have hlt := (hnew hw').1
        have hyoung := h.young i p hp' hw
        omega
      · exact h.distinct i j p q hp' hq' hw hw' hts
  · rcases hkeep hp with ⟨-, rfl⟩ | hp'
    · exact absurd ho hold
    · exact h.retired i p hp' ho
  · rcases hkeep hp with ⟨-, rfl⟩ | hp'
    · exact absurd ho hold
    · rcases hkeep hq with ⟨-, rfl⟩ | hq'
      · exact absurd ho' hold
      · exact h.once i j p q hp' hq' ho ho'
  · rcases hkeep hp with ⟨-, rfl⟩ | hp'
    · exact absurd hi hin
    · rcases hkeep hq with ⟨-, rfl⟩ | hq'
      · exact absurd ho hold
      · exact h.across i j p q hp' hq' hi ho

/-- A call on one Object that settles no timestamp. -/
theorem spread_update {s : Store} {c c' : Core} (h : Spread s c) {id : ℕ} {o : Object}
    {o' : Option Object} (ho : c.heap id = some o) (hheap : c'.heap = update c.heap id o')
    (hfresh : c'.fresh = c.fresh) (hlast : c'.last = c.last)
    (hheld : ∀ n, heldTs s c'.log n = heldTs s c.log n)
    (hwriting : ∀ p, o' = some p → Writing p → Writing o ∧ p.ts = o.ts)
    (hold : ∀ p, o' = some p → p.state = .old → o.state = .old ∧ p.name = o.name ∧ p.ts = o.ts)
    (hin : ∀ p, o' = some p → p.state = .inWrite → ∀ k q, c.heap k = some q → q.state = .old →
      q.name = p.name → q.ts ≠ p.ts) : Spread s c' := by
  have hcase : ∀ {k q}, c'.heap k = some q → (k = id ∧ o' = some q) ∨ c.heap k = some q := by
    intro k q hq
    rw [hheap] at hq
    rcases heap_update hq with h | ⟨-, hq⟩
    · exact Or.inl h
    · exact Or.inr hq
  -- an Object in the states that matter was in one before, at the same place
  have hwas : ∀ {k q}, c'.heap k = some q → Writing q →
      ∃ q₀, c.heap k = some q₀ ∧ Writing q₀ ∧ q.ts = q₀.ts := by
    intro k q hq hw
    rcases hcase hq with ⟨rfl, hq⟩ | hq
    · exact ⟨o, ho, hwriting q hq hw⟩
    · exact ⟨q, hq, hw, rfl⟩
  have hwasOld : ∀ {k q}, c'.heap k = some q → q.state = .old →
      ∃ q₀, c.heap k = some q₀ ∧ q₀.state = .old ∧ q.name = q₀.name ∧ q.ts = q₀.ts := by
    intro k q hq hs
    rcases hcase hq with ⟨rfl, hq⟩ | hq
    · exact ⟨o, ho, hold q hq hs⟩
    · exact ⟨q, hq, hs, rfl, rfl⟩
  refine ⟨fun k hk => ?_, fun i p hp hw => ?_, fun i j p q hp hq hw hw' hts => ?_,
    fun i p hp hs => ?_, fun i j p q hp hq hs hs' hname hts => ?_,
    fun i j p q hp hq hs hs' hname => ?_⟩
  · rw [hfresh] at hk
    rw [hheap, update_of_ne]
    · exact h.numbered k hk
    · rintro rfl
      rw [h.numbered k hk] at ho
      contradiction
  · obtain ⟨p₀, hp₀, hw₀, hts⟩ := hwas hp hw
    rw [hlast, hts]
    exact h.young i p₀ hp₀ hw₀
  · obtain ⟨p₀, hp₀, hw₀, hts₀⟩ := hwas hp hw
    obtain ⟨q₀, hq₀, hw₁, hts₁⟩ := hwas hq hw'
    exact h.distinct i j p₀ q₀ hp₀ hq₀ hw₀ hw₁ (by omega)
  · obtain ⟨p₀, hp₀, hs₀, hname, hts⟩ := hwasOld hp hs
    rw [hheld, hname, hts]
    exact h.retired i p₀ hp₀ hs₀
  · obtain ⟨p₀, hp₀, hs₀, hname₀, hts₀⟩ := hwasOld hp hs
    obtain ⟨q₀, hq₀, hs₁, hname₁, hts₁⟩ := hwasOld hq hs'
    exact h.once i j p₀ q₀ hp₀ hq₀ hs₀ hs₁ (by rw [← hname₀, ← hname₁, hname]) (by omega)
  · obtain ⟨q₀, hq₀, hs₁, hname₁, hts₁⟩ := hwasOld hq hs'
    rw [hts₁]
    rcases hcase hp with ⟨rfl, hp⟩ | hp
    · exact (hin p hp hs j q₀ hq₀ hs₁ (by rw [← hname₁, hname])).symm
    · exact h.across i j p q₀ hp hq₀ hs hs₁ (by rw [hname, hname₁])

/-- A write, plain or of metadata: the Object is being written afterwards. -/
theorem spread_written {s : Store} {c : Core} (h : Spread s c) {id : ℕ} {o o' : Object} {t : Txn}
    (ho : c.heap id = some o) (hnote : ∀ n, heldTs s (c.log ++ [t]) n = heldTs s c.log n)
    (hname : o'.name = o.name) (hts : o'.ts = o.ts)
    (hstate : Writing o ∧ o'.state = .inWrite ∨ o'.state = o.state)
    (hclear : o.state = .preWrite → ∀ k q, c.heap k = some q → q.state = .old →
      q.name = o.name → q.ts ≠ o.ts) : Spread s (c.prepared id o' t) := by
  refine spread_update h ho rfl rfl rfl hnote ?_ ?_ ?_
  · intro p hp hw
    obtain rfl := Option.some.inj hp
    refine ⟨?_, hts⟩
    rcases hstate with ⟨hw', -⟩ | hsame
    · exact hw'
    · unfold Writing at hw ⊢
      rw [← hsame]
      exact hw
  · intro p hp hs
    obtain rfl := Option.some.inj hp
    have hs : o'.state = .old := hs
    rcases hstate with ⟨-, hin⟩ | hsame
    · rw [hs] at hin
      contradiction
    · exact ⟨hsame.symm.trans hs, hname, hts⟩
  · intro p hp hs k q hq hq' hqn
    obtain rfl := Option.some.inj hp
    have hs : o'.state = .inWrite := hs
    have hqn : q.name = o.name := hqn.trans hname
    change q.ts ≠ o'.ts
    rw [hts]
    have hw : Writing o := by
      rcases hstate with ⟨hw, -⟩ | hsame
      · exact hw
      · exact Or.inr (hsame.symm.trans hs)
    rcases hw with hpre | hin
    · exact hclear hpre k q hq hq' hqn
    · exact (h.across id k o q ho hq hin hq' hqn.symm).symm

/-- The holder retires at a timestamp below the one the name is put with. -/
theorem spread_put {s : Store} {c : Core} (h : Spread s c) {i j : ℕ} {n p n' p' : Object}
    {ts : Option ℕ} {ops : List EngineObjects.Op} (hn : c.heap i = some n) (hp : c.heap j = some p)
    (hput : Backend.put 0 n p ts = .ok (n', p', ops))
    (hgiven : match heldTs s c.log p.name with
      | none => p.state = .missing
      | some t => p.state = .active ∧ p.ts = t)
    (hclear : p.state = .active → ∀ k q, c.heap k = some q → q.state = .inWrite →
      q.name = p.name → q.ts ≠ p.ts) :
    Spread s ({ c with heap := update c.heap j (some p') }.prepared i n'
      ⟨n.name, ops, .put i j n.name (ts.getD n.ts)⟩) := by
  obtain ⟨hin, hstate, hname, hnewer, rfl, rfl, -⟩ := put_ok hput
  have hij : i ≠ j := by
    rintro rfl
    obtain rfl := Option.some.inj (hn.symm.trans hp)
    rcases hstate with h | h <;> simp [h] at hin
  let c' := { c with heap := update c.heap j (some (Backend.retire p)) }.prepared i
    (Backend.settle n (ts.getD n.ts)) ⟨n.name, ops, .put i j n.name (ts.getD n.ts)⟩
  change Spread s c'
  have hheld : ∀ m, heldTs s c'.log m =
      if n.name = m then some (ts.getD n.ts) else heldTs s c.log m :=
    fun m => heldTs_concat s c.log _ m
  -- an Object that retired before, and when
  have hearlier : ∀ {k q}, c.heap k = some q → q.state = .old → q.name = p.name →
      p.state = .active ∧ q.ts < p.ts := by
    intro k q hq hold hqn
    obtain ⟨t, ht, hlt⟩ := h.retired k q hq hold
    rw [hqn] at ht
    rw [ht] at hgiven
    exact ⟨hgiven.1, by omega⟩
  have hcase : ∀ {k q}, c'.heap k = some q →
      (k = i ∧ q.state = .active) ∨
      (k = j ∧ q.name = p.name ∧ q.ts = p.ts ∧
        (p.state = .active ∧ q.state = .old ∨ q.state = .missing)) ∨
      c.heap k = some q := by
    intro k q hq
    rcases heap_update hq with ⟨rfl, h⟩ | ⟨-, hq⟩
    · obtain rfl := Option.some.inj h
      exact Or.inl ⟨rfl, rfl⟩
    · right
      rcases heap_update hq with ⟨rfl, h⟩ | ⟨-, hq⟩
      · obtain rfl := Option.some.inj h
        left
        rcases hstate with ha | hm
        · simp [Backend.retire, ha]
        · simp [Backend.retire, hm]
      · exact Or.inr hq
  have hwas : ∀ {k q}, c'.heap k = some q → Writing q → c.heap k = some q := by
    intro k q hq hw
    rcases hcase hq with ⟨-, h⟩ | ⟨-, -, -, ⟨-, h⟩ | h⟩ | h
    · rcases hw with hw | hw <;> simp [h] at hw
    · rcases hw with hw | hw <;> simp [h] at hw
    · rcases hw with hw | hw <;> simp [h] at hw
    · exact h
  have hwasOld : ∀ {k q}, c'.heap k = some q → q.state = .old →
      (k = j ∧ p.state = .active ∧ q.name = p.name ∧ q.ts = p.ts) ∨ c.heap k = some q := by
    intro k q hq hs
    rcases hcase hq with ⟨-, h⟩ | ⟨hk, hqn, hqt, ⟨ha, -⟩ | h⟩ | h
    · rw [h] at hs
      contradiction
    · exact Or.inl ⟨hk, ha, hqn, hqt⟩
    · rw [h] at hs
      contradiction
    · exact Or.inr h
  refine ⟨?_, fun k q hq hw => h.young k q (hwas hq hw) hw,
    fun k l q q' hq hq' hw hw' hts => h.distinct k l q q' (hwas hq hw) (hwas hq' hw') hw hw' hts,
    fun k q hq hs => ?_, fun k l q q' hq hq' hs hs' hqn hts => ?_,
    fun k l q q' hq hq' hs hs' hqn => ?_⟩
  · exact numbered_update (numbered_update h.numbered hp _) ((update_of_ne hij _ _).trans hn) _
  · rw [hheld]
    rcases hwasOld hq hs with ⟨-, -, hqn, hqt⟩ | hq
    · rw [if_pos (hname.trans hqn.symm)]
      exact ⟨_, rfl, by omega⟩
    · by_cases hsame : n.name = q.name
      · have hlt := (hearlier hq hs (hsame.symm.trans hname)).2
        rw [if_pos hsame]
        exact ⟨_, rfl, by omega⟩
      · rw [if_neg hsame]
        exact h.retired k q hq hs
  · rcases hwasOld hq hs with ⟨hk, -, hn₁, ht₁⟩ | hq
    · rcases hwasOld hq' hs' with ⟨hl, -⟩ | hq'
      · omega
      · have hlt := (hearlier hq' hs' (hqn.symm.trans hn₁)).2
        omega
    · rcases hwasOld hq' hs' with ⟨-, -, hn₂, ht₂⟩ | hq'
      · have hlt := (hearlier hq hs (hqn.trans hn₂)).2
        omega
      · exact h.once k l q q' hq hq' hs hs' hqn hts
  · have hq := hwas hq (Or.inr hs)
    rcases hwasOld hq' hs' with ⟨-, ha, hn₂, ht₂⟩ | hq'
    · rw [ht₂]
      exact hclear ha k q hq hs (hqn.trans hn₂)
    · exact h.across k l q q' hq hq' hs hs' hqn

/-- One call keeps the timestamps spread, where it is clear. -/
theorem spread_step {s : Store} {e e' : Engine} {call : Call} (h : Spread s e.core)
    (hgiven : Given s e call) (hwrap : Unwrapped e call) (hclear : Clear e call)
    (hstep : e.step call = some e') : Spread s e'.core := by
  cases call with
  | create name ts us =>
    obtain rfl := Option.some.inj hstep
    have hts : ts = none := hgiven
    have hlt := estimate_gt us hwrap
    subst hts
    exact spread_fresh h (by omega) (Or.inr ⟨rfl, hlt, le_refl _⟩)
  | find name =>
    obtain rfl := Option.some.inj hstep
    exact spread_fresh h (le_refl _) (Or.inl rfl)
  | «open» id =>
    obtain rfl := Option.some.inj hstep
    change Spread s (e.core.open e.store id).1
    cases ho : e.core.heap id with
    | none =>
      simp only [Core.open, ho]
      exact h
    | some o =>
      simp only [Core.open, ho]
      rcases open_state e.store o with hsame | ⟨-, hstate⟩
      · rw [hsame, ← ho, update_eq_self]
        exact h
      · refine spread_update h ho rfl rfl rfl (fun _ => rfl) ?_ ?_ ?_
        all_goals
          intro p hp hs
          obtain rfl := Option.some.inj hp
          rcases hstate with h | h | h <;> simp [Writing, h] at hs
  | write id data =>
    rcases attempt_cases hstep with rfl | ⟨c, hc, rfl⟩
    · exact h
    rcases write_cases hc with rfl | ⟨o, o', ops, ho, hw, rfl⟩
    · exact h
    · obtain ⟨hstate, rfl, -⟩ := write_ok hw
      exact spread_written h ho (fun n => heldTs_concat s _ _ n) rfl rfl (Or.inl ⟨hstate, rfl⟩)
        (hclear o ho)
  | writeMetadata id data =>
    rcases attempt_cases hstep with rfl | ⟨c, hc, rfl⟩
    · exact h
    rcases writeMetadata_cases hc with rfl | ⟨o, o', ops, ho, hm, rfl⟩
    · exact h
    · obtain ⟨hstate, rfl, -⟩ := writeMetadata_ok hm
      refine spread_written h ho (fun n => heldTs_concat s _ _ n) (by split <;> rfl)
        (by split <;> rfl) ?_ (hclear o ho)
      split
      · rename_i hpre
        exact Or.inl ⟨Or.inl hpre, rfl⟩
      · exact Or.inr rfl
  | tombstone id data =>
    rcases attempt_cases hstep with rfl | ⟨c, hc, rfl⟩
    · exact h
    rcases tombstone_cases hc with rfl | ⟨o, o', ops, ho, hpre, hm, rfl⟩
    · exact h
    · obtain ⟨-, rfl, -⟩ := writeMetadata_ok hm
      rw [if_pos hpre]
      exact spread_written h ho (fun n => heldTs_concat s _ _ n) rfl rfl
        (Or.inl ⟨Or.inl hpre, rfl⟩) (hclear o ho)
  | put next prev ts =>
    rcases attempt_cases hstep with rfl | ⟨c, hc, rfl⟩
    · exact h
    rcases put_cases hc with rfl | ⟨n, p, n', p', ops, hn, hp, hput, rfl⟩
    · exact h
    · exact spread_put h hn hp hput (hgiven n p _ hn hp hput) (hclear n p _ hn hp hput)
  | submit =>
    unfold Engine.step at hstep
    dsimp only at hstep
    split at hstep
    · contradiction
    · obtain rfl := Option.some.inj hstep
      exact h
  | release id =>
    obtain rfl := Option.some.inj hstep
    change Spread s (e.core.release id)
    cases ho : e.core.heap id with
    | none =>
      simp only [Core.release, ho]
      exact h
    | some o =>
      refine @spread_update _ _ _ h id o none ho (by simp only [Core.release, ho])
        (by simp only [Core.release, ho]) (by simp only [Core.release, ho]) (fun n => ?_) ?_ ?_ ?_
      · simp only [Core.release, ho]
        split
        · rfl
        · exact heldTs_concat s _ _ n
      all_goals
        intro p hp
        contradiction

theorem address_inTemp {o : Object} (h : InTemp o) : address o.toStat = temporary o.name o.ts := by
  rcases h with h | h <;> exact address_temp (by rw [h]; rfl)

/-- Where the timestamps are spread, a clear call takes no address from another. -/
theorem spares_of_clear {s : Store} {e : Engine} {call : Call} (h : Spread s e.core)
    (hgiven : Given s e call) (hclear : Clear e call) : Spares e call := by
  cases call with
  | put next prev ts =>
    intro n p result hn hp hput op hop a ha k q hq htemp hsame
    have hholder := hgiven n p _ hn hp hput
    have hclear := hclear n p _ hn hp hput
    obtain ⟨n', p', ops⟩ := result
    obtain ⟨-, hstate, -, -, -, -, rfl⟩ := put_ok hput
    have hqa := address_inTemp htemp
    -- a rename's target: where the holder retires to, or the ordinary address
    have htarget : p.state = .active ∧ a = temporary p.name p.ts ∨
        a = ordinary n.name := by
      have hplaced : address (Backend.settle n (ts.getD n.ts)).toStat = ordinary n.name :=
        address_active rfl
      unfold Backend.handOverOps at hop
      dsimp only at hop
      rw [hplaced] at hop
      by_cases hactive : p.state = .active
      · have hmoved : address (Backend.retire p).toStat = temporary p.name p.ts := by
          simp only [Backend.retire, hactive, if_true]
          rfl
        simp only [hactive, if_true, hmoved, List.cons_append, List.nil_append, List.mem_cons,
          List.not_mem_nil, or_false] at hop
        rcases hop with rfl | rfl | rfl | rfl
        · exact Or.inl ⟨hactive, List.mem_singleton.mp ha⟩
        · simp [save, displaced] at ha
        · exact Or.inr (List.mem_singleton.mp ha)
        · simp [save, displaced] at ha
      · simp only [hactive, if_false, List.nil_append, List.mem_cons, List.not_mem_nil,
          or_false] at hop
        rcases hop with rfl | rfl
        · exact Or.inr (List.mem_singleton.mp ha)
        · simp [save, displaced] at ha
    rcases htarget with ⟨hactive, rfl⟩ | rfl
    · obtain ⟨hqn, hqt⟩ := temporary_inj.mp (hqa.symm.trans hsame)
      rcases htemp with hin | hold
      · exact hclear hactive k q hq hin hqn hqt
      · obtain ⟨t, ht, hlt⟩ := h.retired k q hq hold
        rw [hqn] at ht
        rw [ht] at hholder
        have hts := hholder.2
        omega
    · exact temporary_ne_ordinary _ _ _ (hqa.symm.trans hsame)
  | release id =>
    intro o ops ho hrel op hop a ha k q hq htemp hsame
    unfold Object.release at hrel
    split at hrel
    · rename_i hstate
      obtain rfl := Option.some.inj hrel
      obtain rfl := List.mem_singleton.mp hop
      obtain rfl := List.mem_singleton.mp ha
      rw [address_inTemp htemp, address_inTemp hstate] at hsame
      obtain ⟨hqn, hqt⟩ := temporary_inj.mp hsame
      exact h.apart k id q o hq ho htemp hstate hqn hqt
    · contradiction
  | _ => trivial

/-- A first write at a retired Object's timestamp is not clear of it afterwards. -/
theorem firstWriteClear_of_apart {e e' : Engine} {id : ℕ} {o o' : Object}
    (ho : e.core.heap id = some o) (hpre : o.state = .preWrite)
    (hheap : e'.core.heap = update e.core.heap id (some o')) (hin : o'.state = .inWrite)
    (hname : o'.name = o.name) (hts : o'.ts = o.ts) (ha : Apart e'.core) : FirstWriteClear e id := by
  intro p hp _ k q hq hold hqn hqt
  obtain rfl := Option.some.inj (ho.symm.trans hp)
  have hk : k ≠ id := by
    rintro rfl
    obtain rfl := Option.some.inj (ho.symm.trans hq)
    rw [hpre] at hold
    contradiction
  refine hk (ha k id q o' ?_ ?_ (Or.inr hold) (Or.inl hin) (hqn.trans hname.symm)
    (hqt.trans hts.symm))
  · rw [hheap, update_of_ne hk]
    exact hq
  · rw [hheap, update_self]

/-- A call that shares no address is clear. -/
theorem clear_of_apart {e : Engine} {call : Call} (hspares : Spares e call)
    (hapart : ∀ e', e.step call = some e' → Apart e'.core) : Clear e call := by
  cases call with
  | write id data =>
    intro o ho hpre
    have hreq : o.require "write" [.preWrite, .inWrite] = .ok () :=
      require_of_mem (by simp [hpre])
    obtain ⟨c, hc, hheap⟩ : ∃ c, e.core.write id data = .ok c ∧ c.heap = update e.core.heap id
        (some { o with
          state := .inWrite, written := o.written + data.length
          done := some e.core.log.length }) := by
      unfold Core.write Object.write
      rw [ho]
      dsimp only
      rw [hreq]
      exact ⟨_, rfl, rfl⟩
    have ha := hapart { e with core := c } (by simp only [Engine.step, hc, Engine.attempt])
    exact @firstWriteClear_of_apart e { e with core := c } id o _ ho hpre hheap rfl rfl rfl ha o ho hpre
  | writeMetadata id data =>
    intro o ho hpre
    have hreq : o.require "write_metadata" [.preWrite, .inWrite, .active] = .ok () :=
      require_of_mem (by simp [hpre])
    obtain ⟨c, hc, hheap⟩ : ∃ c, e.core.writeMetadata id data = .ok c ∧
        c.heap = update e.core.heap id
          (some { o with state := .inWrite, done := some e.core.log.length }) := by
      unfold Core.writeMetadata Object.writeMetadata
      rw [ho]
      dsimp only
      rw [hreq]
      refine ⟨_, rfl, ?_⟩
      simp only [Core.prepared, hpre, if_true]
    have ha := hapart { e with core := c } (by simp only [Engine.step, hc, Engine.attempt])
    exact @firstWriteClear_of_apart e { e with core := c } id o _ ho hpre hheap rfl rfl rfl ha o ho hpre
  | tombstone id data =>
    intro o ho hpre
    have hreq : o.require "tombstone" [.preWrite] = .ok () := require_of_mem (by simp [hpre])
    have hreq' : { o with deleted := true }.require "write_metadata"
        [.preWrite, .inWrite, .active] = .ok () := require_of_mem (by simp [hpre])
    obtain ⟨c, hc, hheap⟩ : ∃ c, e.core.tombstone id data = .ok c ∧
        c.heap = update e.core.heap id (some { o with
          state := .inWrite, deleted := true, done := some e.core.log.length }) := by
      unfold Core.tombstone Object.tombstone Object.writeMetadata
      rw [ho]
      dsimp only
      rw [hreq, hreq']
      refine ⟨_, rfl, ?_⟩
      simp only [Core.prepared, hpre, if_true]
    have ha := hapart { e with core := c } (by simp only [Engine.step, hc, Engine.attempt])
    exact @firstWriteClear_of_apart e { e with core := c } id o _ ho hpre hheap rfl rfl rfl ha o ho hpre
  | put next prev ts =>
    intro n p result hn hp hput hactive k q hq hin hqn hqt
    have hspares := hspares n p result hn hp hput
    obtain ⟨n', p', ops⟩ := result
    obtain ⟨-, -, -, -, -, -, rfl⟩ := put_ok hput
    have hmoved : address (Backend.retire p).toStat = temporary p.name p.ts := by
      simp only [Backend.retire, hactive, if_true]
      rfl
    refine hspares (.rename (address p.toStat) (address (Backend.retire p).toStat)) ?_
      (temporary p.name p.ts) ?_ k q hq (Or.inl hin) ?_
    · simp [Backend.handOverOps, hactive]
    · rw [hmoved]
      exact List.mem_singleton_self _
    · rw [address_inTemp (Or.inl hin), hqn, hqt]
  | _ => trivial

/-- A call as the engine's callers make it. -/
def Used (s : Store) (e : Engine) (call : Call) : Prop := Given s e call ∧ Unwrapped e call

theorem unshared_run {s : Store} {e : Engine} {calls : List Call} (h : Spread s e.core)
    (hused : Keeps (Used s) e calls) : Unshared e calls ↔ Keeps Clear e calls := by
  induction calls generalizing e with
  | nil =>
    refine ⟨fun _ => trivial, fun _ => ⟨fun k e' hrun => ?_, trivial⟩⟩
    rw [List.take_nil] at hrun
    obtain rfl := Option.some.inj hrun
    exact h.apart
  | cons call rest ih =>
    obtain ⟨⟨hgiven, hwrap⟩, hrest⟩ := hused
    constructor
    · rintro ⟨hapart, hspares, hspareds⟩
      have hclear : Clear e call := by
        refine clear_of_apart hspares fun e' hstep => hapart 1 e' ?_
        simp only [List.take_succ_cons, List.take_zero, Engine.run, run, hstep, Option.bind_some]
      refine ⟨hclear, fun u hu => ?_⟩
      refine (ih (spread_step h hgiven hwrap hclear hu) (hrest u hu)).mp
        ⟨fun k e' hrun => hapart (k + 1) e' ?_, hspareds u hu⟩
      simp only [List.take_succ_cons, Engine.run, run, hu, Option.bind_some, hrun]
    · rintro ⟨hclear, hclears⟩
      have hnext := fun u hu => (ih (spread_step h hgiven hwrap hclear hu) (hrest u hu)).mpr
        (hclears u hu)
      refine ⟨fun k e' hrun => ?_, spares_of_clear h hgiven hclear, fun u hu => (hnext u hu).2⟩
      cases k with
      | zero =>
        obtain rfl := Option.some.inj hrun
        exact h.apart
      | succ k =>
        obtain ⟨u, hu, hend⟩ := run_cons_some hrun
        exact (hnext u hu).1 k e' hend

theorem live_addresses (store : Store) (last : UInt64) (calls : List Call)
    (h : Keeps (Used store) (Engine.start store last) calls) :
    Unshared (Engine.start store last) calls ↔ Keeps Clear (Engine.start store last) calls :=
  unshared_run (spread_start store last) h

/-! A run on given calls can be checked. -/

def uses (s : Store) (e : Engine) : Call → Bool
  | .create _ ts _ => ts = none && e.core.last.toNat + 1 < UInt64.size
  | .put next prev ts =>
      match e.core.heap next, e.core.heap prev with
      | some n, some p =>
          match Backend.put 0 n p ts with
          | .ok _ =>
              match heldTs s e.core.log p.name with
              | none => p.state = .missing
              | some t => p.state = .active && p.ts = t
          | .error _ => true
      | _, _ => true
  | _ => true

theorem used_of_uses {s : Store} {e : Engine} {call : Call} (h : uses s e call = true) :
    Used s e call := by
  cases call with
  | create name ts us =>
    obtain ⟨hts, hwrap⟩ := Bool.and_eq_true_iff.mp h
    have hts : ts = none := of_decide_eq_true hts
    have hwrap : e.core.last.toNat + 1 < UInt64.size := of_decide_eq_true hwrap
    exact ⟨hts, hwrap⟩
  | put next prev ts =>
    refine ⟨fun n p result hn hp hput => ?_, trivial⟩
    cases hheld : heldTs s e.core.log p.name with
    | none =>
      simp only [uses, hn, hp, hput, hheld] at h
      exact of_decide_eq_true h
    | some t =>
      simp only [uses, hn, hp, hput, hheld] at h
      obtain ⟨hstate, hts⟩ := Bool.and_eq_true_iff.mp h
      exact ⟨of_decide_eq_true hstate, of_decide_eq_true hts⟩
  | _ => exact ⟨trivial, trivial⟩

def clears (e : Engine) : Call → Bool
  | .write id _ | .writeMetadata id _ | .tombstone id _ =>
      (e.core.heap id).all fun o => o.state ≠ .preWrite ||
        e.core.objects.all fun x => x.2.state ≠ .old || x.2.name ≠ o.name || x.2.ts ≠ o.ts
  | .put next prev ts =>
      match e.core.heap next, e.core.heap prev with
      | some n, some p =>
          match Backend.put 0 n p ts with
          | .ok _ => p.state ≠ .active || e.core.objects.all fun x =>
              x.2.state ≠ .inWrite || x.2.name ≠ p.name || x.2.ts ≠ p.ts
          | .error _ => true
      | _, _ => true
  | _ => true

theorem clear_of_clears {e : Engine} {call : Call} (hc : Numbered e.core)
    (h : clears e call = true) : Clear e call := by
  have hfirst : ∀ id, ((e.core.heap id).all fun o => o.state ≠ .preWrite ||
      e.core.objects.all fun x => x.2.state ≠ .old || x.2.name ≠ o.name || x.2.ts ≠ o.ts) = true →
      FirstWriteClear e id := by
    intro id h o ho hpre k q hq hold hqn
    have hk := (mem_objects hc).mpr hq
    simp only [ho, Option.all_some, hpre, ne_eq, not_true_eq_false, decide_false, Bool.false_or,
      List.all_eq_true] at h
    have hq := h _ hk
    simpa [hold, hqn] using hq
  cases call with
  | write id data => exact hfirst id h
  | writeMetadata id data => exact hfirst id h
  | tombstone id data => exact hfirst id h
  | put next prev ts =>
    intro n p result hn hp hput hactive k q hq hin hqn
    have hk := (mem_objects hc).mpr hq
    simp only [clears, hn, hp, hput, hactive, ne_eq, not_true_eq_false, decide_false,
      Bool.false_or, List.all_eq_true] at h
    have hq := h _ hk
    simpa [hin, hqn] using hq
  | _ => trivial

/-- A name put at 200 and again at 300, and a third Object written when the
clock stands at `us` microseconds, while the first is still live. -/
def overlapping (us : UInt64) : List Call :=
  [.create "a/c/o" none 50, .write 0 [1], .find "a/c/o", .open 1, .put 0 1 (some 200),
    .create "a/c/o" none 60, .write 2 [2], .put 2 0 (some 300), .create "a/c/o" none us,
    .write 3 [3], .release 0]

theorem live_addresses_overlapping :
    Unshared (Engine.start (fun _ => none) 0) (overlapping 2500) :=
  (live_addresses (fun _ => none) 0 (overlapping 2500)
    (Along.imp (I := fun _ => True) (fun _ _ _ _ _ => trivial)
      (fun _ _ _ h => used_of_uses h) trivial (by decide +kernel))).mpr
    (Along.imp (P := fun e call => clears e call = true) (fun _ _ _ => numbered_step)
      (fun _ _ hc h => clear_of_clears hc h) (fun _ _ => rfl) (by decide +kernel))

/-- At two milliseconds the estimate is the timestamp of the retired Object. -/
theorem retired_overlapping :
    Keeps (Used fun _ => none) (Engine.start (fun _ => none) 0) (overlapping 2000) ∧
      ¬ Unshared (Engine.start (fun _ => none) 0) (overlapping 2000) := by
  refine ⟨Along.imp (I := fun _ => True) (fun _ _ _ _ _ => trivial)
    (fun _ _ _ h => used_of_uses h) trivial (by decide +kernel), fun h => ?_⟩
  have hshared : ((Engine.start (fun _ => none) 0).run ((overlapping 2000).take 10)).all
      (fun e => e.core.apart) = false := by decide +kernel
  cases hrun : (Engine.start (fun _ => none) 0).run ((overlapping 2000).take 10) with
  | none =>
    rw [hrun] at hshared
    contradiction
  | some e =>
    have hapart := (apart_iff (numbered_run (fun _ _ => rfl) hrun)).mpr (h.1 10 e hrun)
    rw [hrun, Option.all_some, hapart] at hshared
    contradiction

end Swiftacular.LiveAddresses
