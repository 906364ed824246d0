import Swiftacular.CommandLine
import Swiftacular.WrittenEntries

/-!
What the command line tool stores, and what it reads of it. A command that
replaces an object writes at the address its timestamp gives and starts at the
beginning; what a command killed before left there is written over and is not
cut off.
-/
namespace Swiftacular.StoredInput

open Function EntryStore EngineObjects Versions EngineRuns MetadataReads RangedReads CommandLine
  WrittenEntries
open Piles (laid take_laid)

/-- A command and what it is given. -/
inductive Command
  | get (opts : Options)
  | head (opts : Options)
  | put (opts : Options) (us : UInt64)
  | post (opts : Options)
  | delete (opts : Options) (us : UInt64)

def Command.run (s : Store) : Command → Outcome
  | .get opts => CommandLine.get opts s
  | .head opts => CommandLine.head opts s
  | .put opts us => CommandLine.put opts us s
  | .post opts => CommandLine.post opts s
  | .delete opts us => remove opts us s

/-- The stores that commands leave, each of them killed after some of its
transactions or after all of them. -/
inductive Left : Store → Prop
  | new : Left fun _ => none
  | command {s t : Store} (cmd : Command) (killed : ℕ) : Left s →
      applyAll s ((cmd.run s).transactions.take killed).flatten = some t → Left t
  | clean {s t : Store} {listings : List (List Address)} {ops : List Op} (killed : ℕ) : Left s →
      Sweep.Listed s listings → Sweep.clean s listings = .ok ops →
      applyAll s (ops.take killed) = some t → Left t

/-- A command that ran to its end and exits 0, and what it leaves. -/
def Completes (s : Store) (out : Outcome) (s' : Store) : Prop :=
  out.exit = 0 ∧ applyAll s out.transactions.flatten = some s'

/-- A `get` without a limit outputs these bytes, and no others. -/
def Gets (s : Store) (name : Name) (bytes : Bytes) : Prop :=
  ∀ opts : Options, opts.object = name → opts.size = none →
    (CommandLine.get opts s).exit = 0 ∧ (CommandLine.get opts s).output = bytes

/-- A `head` outputs this metadata. -/
def Heads (s : Store) (name : Name) (blob : Bytes) : Prop :=
  ∀ opts : Options, opts.object = name →
    (CommandLine.head opts s).exit = 0 ∧ (CommandLine.head opts s).output = blob

/-- What a command is given to store. -/
def given (deleted : Bool) (opts : Options) : Bytes :=
  if deleted then [] else opts.input.take opts.limit

/-- Read next, the object is what the command was given; of a deletion only
its lack of data is asked. -/
def StoresGiven (deleted : Bool) (opts : Options) (s' : Store) : Prop :=
  Gets s' opts.object (given deleted opts) ∧
    (deleted = false → Heads s' opts.object opts.metadata)

/-- The timestamp an Object is created with. -/
def created (opts : Options) (us : UInt64) : ℕ := opts.ts.getD (estimate 0 us).toNat

/-- Where the command writes. -/
def draftAt (opts : Options) (us : UInt64) : Address := temporary opts.object (created opts us)

/-- What a killed command left where this one writes is written over as far as
it can be read. -/
def CoversLeftover (s : Store) (deleted : Bool) (opts : Options) (us : UInt64) : Prop :=
  ∀ e, s (draftAt opts us) = some e →
    min e.data.length ({} : Options).limit ≤ (given deleted opts).length

/-- What is neither written nor replaced stays, leftovers included. -/
def Unswept (opts : Options) (us : UInt64) (s s' : Store) : Prop :=
  ∀ a, a ≠ ordinary opts.object → a ≠ draftAt opts us →
    (∀ e k, s (ordinary opts.object) = some e → e.attrs = some k →
      a ≠ temporary opts.object k.ts) → s' a = s a

/-! A search. -/

/-- A search that ends, ends with what the entry says, or finds none. -/
theorem found {s : Store} {name : Name} {p : Object}
    (h : (Backend.find 0 name).open s = (p, .ok ())) :
    p.name = name ∧ p.back = 0 ∧ (p.state = .missing ∧ s (ordinary name) = none ∨
      p.state = .active ∧ ∃ e k, s (ordinary name) = some e ∧ e.attrs = some k ∧ p.ts = k.ts) := by
  rw [open_find] at h
  cases hs : s (ordinary name) with
  | none =>
    have hload : load s (ordinary name) = .error .noEntry := by rw [load, hs]
    rw [hload] at h
    obtain ⟨rfl, -⟩ := Prod.mk.inj h
    exact ⟨rfl, rfl, Or.inl ⟨rfl, rfl⟩⟩
  | some e =>
    cases hk : e.attrs with
    | none =>
      have hload : load s (ordinary name) = .error .undecodable := by simp only [load, hs, hk]
      rw [hload] at h
      obtain ⟨-, hok⟩ := Prod.mk.inj h
      contradiction
    | some k =>
      rw [load_held hs hk] at h
      obtain ⟨rfl, -⟩ := Prod.mk.inj h
      exact ⟨rfl, rfl, Or.inr ⟨rfl, e, k, rfl, hk, rfl⟩⟩

/-! The loops of `get` and `head`, over an entry that stays. -/

/-- What a range read takes is a chunk and what comes after it. -/
theorem take_extent (data : Bytes) {limit offset : ℕ} {size : ℕ} (hsize : size ≤ limit - offset) :
    (data.drop offset).take (limit - offset) =
      extent data offset size ++ (data.drop (offset + size)).take (limit - (offset + size)) := by
  have hrest : (data.drop (offset + size)).take (limit - (offset + size)) =
      ((data.drop offset).take (limit - offset)).drop size := by
    rw [List.drop_take, List.drop_drop, Nat.sub_sub]
  have hfirst : extent data offset size = ((data.drop offset).take (limit - offset)).take size := by
    rw [List.take_take, min_eq_left hsize]
    rfl
  rw [hrest, hfirst, List.take_append_drop]

theorem extent_short {data : Bytes} {offset size : ℕ} (h : (extent data offset size).length < size) :
    data.drop (offset + size) = [] := by
  rw [length_extent] at h
  exact List.drop_eq_nil_of_le (by omega)

variable {s : Store} {o : Object} {body : Bytes}

theorem readOut_all (hactive : o.state = .active) (hshown : Shown (fun _ => s) o body)
    (limit offset : ℕ) :
    readOut s o limit offset = ((body.drop offset).take (limit - offset), .ok ()) := by
  induction hn : limit - offset using Nat.strongRecOn generalizing offset with
  | ind n ih =>
    unfold readOut
    split
    swap
    · rename_i hdone
      have hzero : n = 0 := by omega
      rw [hzero, List.take_zero]
    rename_i hlt
    have hchunk : 0 < chunk := by decide
    have hsize : 0 < min chunk (limit - offset) := by omega
    have hread := objectRead_eq hactive hshown 0 0 offset hsize
    have hsplit := take_extent body (min_le_right chunk (limit - offset))
    dsimp only at hread ⊢
    rw [hread]
    dsimp only
    rw [← hn, hsplit]
    split
    · rename_i hshort
      rw [extent_short hshort, List.take_nil, List.append_nil]
    · rename_i hfull
      have hlen := length_extent body offset (min chunk (limit - offset))
      have hsize : (extent body offset (min chunk (limit - offset))).length =
          min chunk (limit - offset) := by omega
      rw [hsize, ih (limit - (offset + min chunk (limit - offset))) (by omega) _ rfl]

theorem objectReadMetadata_eq {e : Entry Attrs} {k : Attrs} (hactive : o.state = .active)
    (he : s (address o.toStat) = some e) (hk : e.attrs = some k) (hts : k.ts = o.ts)
    (offset size : ℕ) : objectReadMetadata s o offset size = .ok (extent e.header offset size) := by
  have hreq : o.require "read_metadata" [.active, .old] = .ok () :=
    require_of_mem (by simp [hactive])
  unfold objectReadMetadata metadataChunk
  rw [hreq, he]
  dsimp only [Option.map_some, Option.isSome_some, Option.getD_some]
  rw [check_own he hk hts]

theorem headOut_all {e : Entry Attrs} {k : Attrs} (hactive : o.state = .active)
    (he : s (address o.toStat) = some e) (hk : e.attrs = some k) (hts : k.ts = o.ts) (offset : ℕ) :
    headOut s o offset = (e.header.drop offset, .ok ()) := by
  induction hn : e.header.length - offset using Nat.strongRecOn generalizing offset with
  | ind n ih =>
    have hchunk : 0 < chunk := by decide
    have hread := objectReadMetadata_eq hactive he hk hts offset chunk
    have hlen := length_extent e.header offset chunk
    have hsplit : e.header.drop offset =
        extent e.header offset chunk ++ e.header.drop (offset + chunk) := by
      unfold extent
      rw [← List.drop_drop, List.take_append_drop]
    unfold headOut
    split
    · rename_i err herr
      rw [hread] at herr
      contradiction
    rename_i buf hbuf
    obtain rfl := Except.ok.inj (hread.symm.trans hbuf)
    split
    · rename_i hshort
      rw [hsplit, extent_short hshort, List.append_nil]
    · rename_i hfull
      have hsize : (extent e.header offset chunk).length = chunk := by omega
      dsimp only
      rw [hsize, ih (e.header.length - (offset + chunk)) (by omega) _ rfl, ← hsplit]

/-! The Object `replace` writes, over what its address held. -/

/-- The Object has written these bytes, and no metadata. -/
structure Drafting (s : Store) (name : Name) (ts : ℕ) (p : Object) (data : Bytes) (c : Core)
    (o : Object) : Prop where
  prev : c.heap prev = some p
  next : c.heap next = some o
  stat : o.name = name ∧ o.ts = ts ∧ o.deleted = false ∧ o.back = 0
  written : o.written = data.length
  begun : ∃ u, applyAll s (opsOf c.log) = some u ∧ Begun s (temporary name ts) data o.state u

/-- It has its metadata too, and is to be put. -/
structure Drafted (s : Store) (name : Name) (ts : ℕ) (deleted : Bool) (p : Object)
    (data blob : Bytes) (c : Core) (o : Object) : Prop where
  prev : c.heap prev = some p
  next : c.heap next = some o
  stat : o.name = name ∧ o.ts = ts ∧ o.deleted = deleted ∧ o.back = 0
  state : o.state = .inWrite
  entry : applyAll s (opsOf c.log) = some (completed s name ts deleted data blob)

variable {name : Name} {ts : ℕ} {p : Object} {data : Bytes} {c : Core}

theorem core_write {o' : Object} {buf : Bytes} {ops : List Op} (hnext : c.heap CommandLine.next = some o)
    (hcall : o.write buf = .ok (o', ops)) : c.write CommandLine.next buf =
      .ok (c.prepared CommandLine.next o' ⟨o.name, ops, .write CommandLine.next o'.toStat buf⟩) := by
  unfold Core.write
  rw [hnext]
  dsimp only
  rw [hcall]
  rfl

/-- What a transaction of the new Object leaves of the heap. -/
theorem heap_prepared (hprev : c.heap CommandLine.prev = some p) (o' : Object) (t : Txn) :
    (c.prepared CommandLine.next o' t).heap CommandLine.prev = some p ∧
      (c.prepared CommandLine.next o' t).heap CommandLine.next =
        some { o' with done := some c.log.length } := by
  have hne : CommandLine.prev ≠ CommandLine.next := by decide
  simp only [Core.prepared, update_of_ne hne, update_self, hprev, and_self]

theorem drafting_write (h : Drafting s name ts p data c o) (buf : Bytes) :
    ∃ c' o', c.write CommandLine.next buf = .ok c' ∧ Drafting s name ts p (data ++ buf) c' o' := by
  obtain ⟨hname, hts, hdeleted, hback⟩ := h.stat
  obtain ⟨u, hu, hbegun⟩ := h.begun
  obtain ⟨u', hops, hbegun'⟩ := begun_write hbegun hname hts h.written buf
  obtain ⟨hprev, hnext⟩ := heap_prepared h.prev _ _
  refine ⟨_, _, core_write h.next (write_eq hbegun.writing buf), hprev, hnext,
    ⟨hname, hts, hdeleted, hback⟩, ?_, u', ?_, hbegun'⟩
  · rw [List.length_append, ← h.written]
  · change applyAll s (opsOf (c.log ++ _)) = _
    rw [opsOf_concat, applyAll_append, hu]
    exact hops

/-- The loop writes everything up to the limit, and does not fail. -/
theorem feed_writes {limit offset : ℕ} {input : Bytes} (h : Drafting s name ts p data c o)
    (hoffset : data.length = offset) :
    ∃ c' o', feed limit c offset input = (c', .ok ()) ∧
      Drafting s name ts p (data ++ input.take (limit - offset)) c' o' := by
  induction hn : limit - offset using Nat.strongRecOn generalizing offset input data c o with
  | ind n ih =>
    unfold feed
    split
    swap
    · rename_i hdone
      have hzero : n = 0 := by omega
      exact ⟨c, o, rfl, by rwa [hzero, List.take_zero, List.append_nil]⟩
    have hchunk : 0 < chunk := by decide
    have hwant : min chunk (limit - offset) ≤ n := by omega
    have hpiece : input.take n = input.take (min chunk (limit - offset)) ++
        (input.drop (min chunk (limit - offset))).take (n - min chunk (limit - offset)) := by
      have hsplit := List.take_add (l := input) (i := min chunk (limit - offset))
        (j := n - min chunk (limit - offset))
      rwa [Nat.add_sub_cancel' hwant] at hsplit
    have hlen := List.length_take (i := min chunk (limit - offset)) (l := input)
    -- the chunk written, or nothing where there is no more input
    have hwrite : ∃ c' o', (if input.take (min chunk (limit - offset)) = [] then (c, .ok ())
          else attempt c (c.write CommandLine.next (input.take (min chunk (limit - offset))))) =
        ((c', .ok ()) : Core × Except Error Unit) ∧
        Drafting s name ts p (data ++ input.take (min chunk (limit - offset))) c' o' := by
      split
      · rename_i hnil
        exact ⟨c, o, rfl, by rwa [hnil, List.append_nil]⟩
      · obtain ⟨c', o', hcall, h'⟩ := drafting_write h (input.take (min chunk (limit - offset)))
        exact ⟨c', o', by rw [hcall]; rfl, h'⟩
    obtain ⟨c', o', hstep, h'⟩ := hwrite
    dsimp only
    rw [hstep]
    unfold andThen
    dsimp only
    split
    · rename_i hshort
      have hrest : input.drop (min chunk (limit - offset)) = [] :=
        List.drop_eq_nil_of_le (by omega)
      rw [hpiece, hrest, List.take_nil, List.append_nil]
      exact ⟨c', o', rfl, h'⟩
    · rename_i hfull
      have hsize : (input.take (min chunk (limit - offset))).length = min chunk (limit - offset) := by
        omega
      have hlength : (data ++ input.take (min chunk (limit - offset))).length =
          offset + min chunk (limit - offset) := by
        rw [List.length_append, hsize, hoffset]
      obtain ⟨c'', o'', hfeed, h''⟩ := ih _ (by omega) h' hlength rfl
      rw [hsize]
      refine ⟨c'', o'', hfeed, ?_⟩
      have hleft : limit - (offset + min chunk (limit - offset)) =
          n - min chunk (limit - offset) := by omega
      rwa [hleft, List.append_assoc, ← hpiece] at h''

theorem drafting_metadata (h : Drafting s name ts p data c o) (blob : Bytes) :
    ∃ c' o', c.writeMetadata CommandLine.next blob = .ok c' ∧
      Drafted s name ts false p data blob c' o' := by
  obtain ⟨hname, hts, hdeleted, hback⟩ := h.stat
  obtain ⟨u, hu, hbegun⟩ := h.begun
  have hcall := writeMetadata_eq hbegun.writing blob
  have hentry := begun_header hbegun hname hts blob
  obtain ⟨hprev, hnext⟩ := heap_prepared h.prev { o with state := .inWrite } _
  refine ⟨_, _, ?_, hprev, hnext, ⟨hname, hts, hdeleted, hback⟩, rfl, ?_⟩
  · unfold Core.writeMetadata
    rw [h.next]
    dsimp only
    rw [hcall]
    rfl
  · change applyAll s (opsOf (c.log ++ _)) = _
    rw [opsOf_concat, applyAll_append, hu, ← hdeleted]
    exact hentry

/-- A deletion writes nothing before its metadata. -/
theorem drafting_tombstone (h : Drafting s name ts p data c o) (hpre : o.state = .preWrite)
    (blob : Bytes) :
    ∃ c' o', c.tombstone CommandLine.next blob = .ok c' ∧
      Drafted s name ts true p data blob c' o' := by
  obtain ⟨hname, hts, hdeleted, hback⟩ := h.stat
  obtain ⟨u, hu, hbegun⟩ := h.begun
  have hreq : o.require "tombstone" [.preWrite] = .ok () := require_of_mem (by simp [hpre])
  have hcall := @writeMetadata_eq { o with deleted := true } (Or.inl hpre) blob
  have hentry := @begun_header s u name ts data { o with deleted := true } hbegun hname hts blob
  obtain ⟨hprev, hnext⟩ := heap_prepared h.prev { o with state := .inWrite, deleted := true } _
  refine ⟨_, _, ?_, hprev, hnext, ⟨hname, hts, rfl, hback⟩, rfl, ?_⟩
  · unfold Core.tombstone Object.tombstone
    rw [h.next]
    dsimp only
    rw [hreq, hcall]
    rfl
  · change applyAll s (opsOf (c.log ++ _)) = _
    rw [opsOf_concat, applyAll_append, hu]
    exact hentry

/-! Its put, over what held the name, and the end of the command. -/

theorem andThen_ok {r : Core × Except Error Unit} {f : Core → Core × Except Error Unit}
    (h : (andThen r f).2 = .ok ()) : r.2 = .ok () ∧ andThen r f = f r.1 := by
  unfold andThen at h ⊢
  split
  · rename_i hok
    exact ⟨hok, rfl⟩
  · rename_i e he
    rw [he] at h
    contradiction

variable {deleted : Bool} {opts : Options} {us : UInt64} {s' : Store}

/-- A command that comes to its put has written all it was given. -/
theorem replace_drafted (h : (replace deleted opts us s).2 = .ok ()) :
    ∃ p c o, (Backend.find 0 opts.object).open s = (p, .ok ()) ∧
      Drafted s opts.object (created opts us) deleted p (given deleted opts) opts.metadata c o ∧
      replace deleted opts us s = attempt c (c.put CommandLine.next CommandLine.prev opts.ts) := by
  unfold replace at h ⊢
  obtain ⟨hopen, heq⟩ := andThen_ok h
  rw [heq] at h ⊢
  dsimp only at h ⊢
  generalize hfirst : (((opened.find opts.object).open s CommandLine.prev).1.create opts.object
    opts.ts us) = c at h ⊢
  have hsearch : (Backend.find 0 opts.object).open s =
      (((Backend.find 0 opts.object).open s).1, .ok ()) := Prod.ext rfl hopen
  have hdrafting : Drafting s opts.object (created opts us)
      ((Backend.find 0 opts.object).open s).1 [] c
      (Backend.create 0 opts.object (created opts us)) := by
    subst hfirst
    exact ⟨rfl, rfl, ⟨rfl, rfl, rfl, rfl⟩, rfl, s, rfl, Or.inl ⟨rfl, rfl, rfl⟩⟩
  obtain ⟨hfed, heq⟩ := andThen_ok h
  rw [heq] at h ⊢
  obtain ⟨hset, heq⟩ := andThen_ok h
  rw [heq] at h ⊢
  cases deleted with
  | true =>
    obtain ⟨c', o', hcall, hdrafted⟩ := drafting_tombstone hdrafting rfl opts.metadata
    refine ⟨_, c', o', hsearch, hdrafted, ?_⟩
    rw [if_pos rfl, if_pos rfl, hcall]
    rfl
  | false =>
    obtain ⟨c₁, o₁, hfeed, hdata⟩ := @feed_writes _ _ _ _ _ _ _ opts.limit 0 opts.input hdrafting rfl
    obtain ⟨c', o', hcall, hdrafted⟩ := drafting_metadata hdata opts.metadata
    refine ⟨_, c', o', hsearch, hdrafted, ?_⟩
    rw [if_neg Bool.false_ne_true, if_neg Bool.false_ne_true, hfeed, hcall]
    rfl

/-- What a put that succeeds and the destructors after it add to the changes. -/
theorem put_closes {blob : Bytes} {given : Option ℕ} (h : Drafted s name ts deleted p data blob c o)
    (hts : given.getD ts = ts) (hpname : p.name = name)
    (hput : (attempt c (c.put CommandLine.next CommandLine.prev given)).2 = .ok ()) :
    p.ts < ts ∧ ∃ rest, opsOf (closed (attempt c
        (c.put CommandLine.next CommandLine.prev given)).1).log =
          opsOf c.log ++ (Backend.handOverOps o p ts ++ rest) ∧
      ∀ op ∈ rest, p.state = .active ∧ op = .remove (temporary name p.ts) := by
  obtain ⟨hname, hots, -, -⟩ := h.stat
  have hcore : c.put CommandLine.next CommandLine.prev given =
      (Backend.put 0 o p given).bind fun r =>
        .ok ({ c with heap := update c.heap CommandLine.prev (some r.2.1) }.prepared
          CommandLine.next r.1
          ⟨o.name, r.2.2, .put CommandLine.next CommandLine.prev o.name (given.getD o.ts)⟩) := by
    unfold Core.put
    rw [h.next, h.prev]
    rfl
  rw [hcore] at hput ⊢
  cases hcall : Backend.put 0 o p given with
  | error e =>
    rw [hcall] at hput
    contradiction
  | ok r =>
    obtain ⟨o', p', ops⟩ := r
    obtain ⟨-, hprev, -, hlt, rfl, rfl, rfl⟩ := put_ok hcall
    rw [hots, hts] at hlt
    rw [hots, hts]
    refine ⟨hlt, (if p.state = .active then [.remove (temporary name p.ts)] else []), ?_, ?_⟩
    · have hne : CommandLine.next ≠ CommandLine.prev := by decide
      have hretire : (Backend.retire p).release =
          if p.state = .active then some [.remove (temporary name p.ts)] else none := by
        rcases hprev with hactive | hmissing
        · have haddr : address (Backend.retire p).toStat = temporary name p.ts := by
            rw [← hpname, Backend.retire, if_pos hactive]
            exact address_temp rfl
          rw [Object.release, haddr, if_pos hactive, if_pos (by simp [Backend.retire, hactive])]
        · rw [Object.release, if_neg (by simp [Backend.retire, hmissing]),
            if_neg (by simp [hmissing])]
      have hsettled : ({ Backend.settle o ts with done := some c.log.length } : Object).release =
          none := rfl
      simp only [Except.bind, attempt, closed, Core.release, Core.prepared, update_self, hsettled,
        update_of_ne hne.symm, hretire]
      by_cases hactive : p.state = .active
      · simp only [if_pos hactive, opsOf_concat]
        exact List.append_assoc ..
      · simp only [if_neg hactive, opsOf_concat, List.append_nil]
    · intro op hop
      split at hop
      · rename_i hactive
        exact ⟨hactive, List.mem_singleton.mp hop⟩
      · contradiction

/-- What a command that exits 0 leaves: its entry under the name, and the rest untouched. -/
theorem replaced_places (h : Completes s (replaced deleted opts us s) s') :
    opts.object ≠ "" ∧
      s' (ordinary opts.object) = some ⟨laid (given deleted opts) (leftover s (draftAt opts us)),
        opts.metadata, some ⟨created opts us, deleted, false⟩⟩ ∧ Unswept opts us s s' := by
  obtain ⟨hexit, happly⟩ := h
  unfold replaced at hexit happly
  split at hexit
  · contradiction
  rename_i hnamed
  rw [if_neg hnamed] at happly
  dsimp only at happly
  have hok : (replace deleted opts us s).2 = .ok () := by
    cases hresult : (replace deleted opts us s).2 with
    | error e =>
      unfold Outcome.exit at hexit
      dsimp only at hexit
      rw [hresult] at hexit
      contradiction
    | ok _ => rfl
  obtain ⟨p, c, o, hsearch, hdrafted, heq⟩ := replace_drafted hok
  obtain ⟨hpname, -, hfound⟩ := found hsearch
  have hts : opts.ts.getD (created opts us) = created opts us := by
    unfold created
    cases opts.ts <;> rfl
  rw [heq] at hok happly
  obtain ⟨hlt, rest, hlog, hrest⟩ := put_closes hdrafted hts hpname hok
  rw [← List.flatMap_def] at happly
  change applyAll s (opsOf _) = some s' at happly
  rw [hlog] at happly
  obtain ⟨t, ht, happly⟩ := applyAll_append_some happly
  obtain ⟨u, hu, hlast⟩ := applyAll_append_some happly
  obtain ⟨hname, hots, hdeleted, -⟩ := hdrafted.stat
  obtain rfl := Option.some.inj (ht.symm.trans hdrafted.entry)
  obtain ⟨hplaced, hleft⟩ := handOver_places hname hots hdrafted.state hpname (fun _ => hlt.ne)
    (update_self ..) hu
  have hafter : ∀ b, (p.state = .active → b ≠ temporary opts.object p.ts) → s' b = u b := by
    intro b hb
    refine applyAll_other hlast fun op hop hmem => ?_
    obtain ⟨hactive, rfl⟩ := hrest op hop
    exact hb hactive (List.mem_singleton.mp hmem)
  refine ⟨hnamed, ?_, fun b hord hdraft hreplaced => ?_⟩
  · rw [hafter _ fun _ => by simp [ordinary, temporary], hplaced, hdeleted]
    rfl
  · have hheld : p.state = .active → b ≠ temporary opts.object p.ts := by
      intro hactive
      rcases hfound with ⟨hmissing, -⟩ | ⟨-, e, k, he, hk, hpts⟩
      · rw [hmissing] at hactive
        contradiction
      · rw [hpts]
        exact hreplaced e k he hk
    rw [hafter b hheld, hleft b hord hdraft hheld]
    exact update_of_ne hdraft _ _

/-! The commands that read. -/

theorem openExisting_held {e : Entry Attrs} {k : Attrs} (hs : s (ordinary name) = some e)
    (hk : e.attrs = some k) : openExisting s name =
      .ok { Backend.find 0 name with toStat := ⟨name, k.ts, k.deleted, .active⟩ } := by
  unfold openExisting
  rw [find_held hs hk]
  rfl

theorem get_held {e : Entry Attrs} {k : Attrs} (hname : opts.object ≠ "")
    (hs : s (ordinary opts.object) = some e) (hk : e.attrs = some k) :
    CommandLine.get opts s = ⟨[], e.data.take opts.limit, .ok ()⟩ := by
  have hread := @readOut_all s
    { Backend.find 0 opts.object with toStat := ⟨opts.object, k.ts, k.deleted, .active⟩ } e.data rfl
    (fun _ => ⟨e, k, hs, rfl, hk, rfl⟩) opts.limit 0
  rw [List.drop_zero, Nat.sub_zero] at hread
  unfold CommandLine.get
  rw [if_neg hname, openExisting_held hs hk]
  dsimp only
  rw [hread]
  rfl

theorem head_held {e : Entry Attrs} {k : Attrs} (hname : opts.object ≠ "")
    (hs : s (ordinary opts.object) = some e) (hk : e.attrs = some k) :
    head opts s = ⟨[], e.header, .ok ()⟩ := by
  have hread := @headOut_all s
    { Backend.find 0 opts.object with toStat := ⟨opts.object, k.ts, k.deleted, .active⟩ } e k rfl
    hs hk rfl 0
  unfold head
  rw [if_neg hname, openExisting_held hs hk]
  dsimp only
  rw [hread]
  rfl

theorem given_le (deleted : Bool) (opts : Options) :
    (given deleted opts).length ≤ ({} : Options).limit := by
  have hmax : opts.limit ≤ ({} : Options).limit := by
    change (opts.size.getD _).toNat ≤ 18446744073709551615
    have hlt := (opts.size.getD 18446744073709551615).toNat_lt
    omega
  unfold given
  split
  · exact Nat.zero_le _
  · exact (List.length_take_le ..).trans hmax

/-- The tool stores what it is given, over any store, exactly if it writes at
least as much as a killed command left where it writes. -/
theorem stored_input (h : Completes s (replaced deleted opts us s) s') :
    (StoresGiven deleted opts s' ↔ CoversLeftover s deleted opts us) ∧ Unswept opts us s s' := by
  obtain ⟨hnamed, hplaced, hunswept⟩ := replaced_places h
  refine ⟨?_, hunswept⟩
  have hgets : Gets s' opts.object (given deleted opts) ↔
      (laid (given deleted opts) (leftover s (draftAt opts us))).take ({} : Options).limit =
        given deleted opts := by
    constructor
    · intro hgets
      have hout := (hgets { object := opts.object } rfl rfl).2
      rwa [@get_held s' { object := opts.object } _ _ hnamed hplaced rfl] at hout
    · intro htake g hobject hsize
      have hlimit : g.limit = ({} : Options).limit := by
        unfold Options.limit
        rw [hsize]
      rw [get_held (by rwa [hobject]) (by rwa [hobject]) rfl, hlimit]
      exact ⟨rfl, htake⟩
  have hheads : Heads s' opts.object opts.metadata := by
    intro g hobject
    rw [head_held (by rwa [hobject]) (by rwa [hobject]) rfl]
    exact ⟨rfl, rfl⟩
  have hcovers : CoversLeftover s deleted opts us ↔
      min (leftover s (draftAt opts us)).length ({} : Options).limit ≤
        (given deleted opts).length := by
    unfold CoversLeftover leftover
    cases s (draftAt opts us) with
    | none => simp
    | some e => simp
  rw [hcovers, ← take_laid (given_le deleted opts), ← hgets]
  exact ⟨And.left, fun hgets => ⟨hgets, fun _ => hheads⟩⟩

def longer : Options := { object := "a/c/o", timestamp := some 500, input := [1, 2, 3] }

def shorter : Options := { object := "a/c/o", timestamp := some 500, input := [9] }

/-- What `longer` leaves on a new store, killed after its first transaction. -/
def cutShort : Store :=
  (applyAll (fun _ => none) ((put longer 0 fun _ => none).transactions.take 1).flatten).get
    (by decide +kernel)

/-- What `shorter` leaves after it. -/
def writtenOver : Store :=
  (applyAll cutShort (put shorter 0 cutShort).transactions.flatten).get (by decide +kernel)

/-- What it leaves on a new store. -/
def writtenFirst : Store :=
  (applyAll (fun _ => none) (put shorter 0 fun _ => none).transactions.flatten).get
    (by decide +kernel)

theorem stored_input_first : StoresGiven false shorter writtenFirst :=
  (@stored_input (fun _ => none) false shorter 0 writtenFirst
    ⟨by decide +kernel, (Option.some_get _).symm⟩).1.mpr fun e he => by contradiction

/-- The end of what was cut short is read after what was written over it. -/
theorem input_leftover : ¬ ∀ (s s' : Store) (deleted : Bool) (opts : Options) (us : UInt64),
    Left s → Completes s (replaced deleted opts us s) s' → StoresGiven deleted opts s' := by
  intro h
  have hleft : Left cutShort := .command (.put longer 0) 1 .new (Option.some_get _).symm
  have hends : Completes cutShort (replaced false shorter 0 cutShort) writtenOver :=
    ⟨by decide +kernel, (Option.some_get _).symm⟩
  have hget := ((h _ _ _ _ _ hleft hends).1 { object := "a/c/o" } rfl rfl).2
  exact absurd hget (by decide +kernel)

end Swiftacular.StoredInput
