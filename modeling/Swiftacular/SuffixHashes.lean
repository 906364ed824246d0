import Mathlib.Data.Int.Notation
import Mathlib.Logic.Function.Basic
import Swiftacular.OrderedDicts
import Swiftacular.StepRuns

/-!
The hashes of a partition's suffix directories, which `hashes.pkl` caches and
`hashes.invalid` marks as out of date. Any number of calls of `get_hashes` run
while the directories change and are invalidated; only the steps under
`lock_path` exclude each other, and a call that is killed gives its lock up.
What hashing a directory comes to is a parameter. `changes`, `told` and `asOf`
are not the program's: they count what happened to a suffix.
-/
namespace Swiftacular.SuffixHashes

open Function OrderedDicts

/-- The name of something in the partition's directory, or a line of a file. -/
structure Name where
  chars : List Char
  deriving DecidableEq

/-- Python's `isspace` of a character. -/
def isSpace (c : Char) : Bool :=
  (9 ≤ c.toNat && c.toNat ≤ 13) || (28 ≤ c.toNat && c.toNat ≤ 32) ||
    (8192 ≤ c.toNat && c.toNat ≤ 8202) ||
    c.toNat ∈ [133, 160, 5760, 8232, 8233, 8239, 8287, 12288]

def strip (line : Name) : Name :=
  ⟨((line.chars.dropWhile isSpace).reverse.dropWhile isSpace).reverse⟩

def hexDigits : List Char :=
  ['0', '1', '2', '3', '4', '5', '6', '7', '8', '9', 'a', 'b', 'c', 'd', 'e', 'f']

def validSuffix (value : Name) : Bool :=
  value.chars.length = 3 && value.chars.all (· ∈ hexDigits)

/-- The dictionary of hashes, the two keys that are no suffixes apart. A
suffix without a hash has to be hashed. -/
structure Hashes (H : Type*) where
  valid : Option Bool
  updated : Option ℤ
  suffixes : List (Name × Option H)

variable {D H : Type*}

namespace Hashes

def get (h : Hashes H) (s : Name) : Option (Option H) := h.suffixes.lookup s

def set (h : Hashes H) (s : Name) (v : Option H) : Hashes H :=
  { h with suffixes := insert h.suffixes (s, v) }

def setDefault (h : Hashes H) (s : Name) (v : Option H) : Hashes H :=
  if s ∈ h.suffixes.map Prod.fst then h else { h with suffixes := h.suffixes ++ [(s, v)] }

def del (h : Hashes H) (s : Name) : Hashes H :=
  { h with suffixes := h.suffixes.filter fun kv => kv.1 ≠ s }

/-- `hashes == orig_hashes`. -/
def Same (h h' : Hashes H) : Prop :=
  h.valid = h'.valid ∧ h.updated = h'.updated ∧
    ∀ s ∈ h.suffixes.map Prod.fst ++ h'.suffixes.map Prod.fst, h.get s = h'.get s

instance [DecidableEq H] (h h' : Hashes H) : Decidable (Same h h') :=
  inferInstanceAs (Decidable (_ ∧ _ ∧ _))

/-- What `write_hashes` adds. -/
def stamped (h : Hashes H) (now : ℤ) : Hashes H :=
  { h with valid := some (h.valid.getD false), updated := some now }

end Hashes

/-- The file `hashes.pkl`: absent, unreadable, or of a dictionary. -/
inductive Pickle (H : Type*)
  | missing
  | corrupt
  | dict (hashes : Hashes H)

def readHashes : Pickle H → Hashes H
  | .missing => ⟨some false, some (-1), []⟩
  | .corrupt => ⟨some false, some (-1), []⟩
  | .dict h =>
      if h.suffixes.all fun kv => validSuffix kv.1 then
        { h with valid := some (h.valid.getD true), updated := some (h.updated.getD (-1)) }
      else ⟨some false, none, []⟩

/-- The suffixes that lines of `hashes.invalid` name. -/
def named (lines : List Name) : List Name := (lines.map strip).filter validSuffix

def mark (h : Hashes H) (suffixes : List Name) : Hashes H :=
  suffixes.foldl (fun h s => h.set s none) h

/-- What `_hash_suffix` does with a directory's content, `none` where it
finds nothing to hash, and which hashes Python takes for false. -/
structure Hasher (D H : Type*) where
  digest : D → Option H
  falsy : H → Bool

/-- One pass of `__get_hashes` over what it read. -/
structure Pass (H : Type*) where
  orig : Hashes H
  hashes : Hashes H
  modified : Bool
  asOf : Name → ℕ

inductive Stage (H : Type*)
  | begins
  | reads
  | clears (hashes : Hashes H) (asOf : Name → ℕ)
  | consolidated (hashes : Hashes H) (asOf : Name → ℕ)
  | lists (pass : Pass H)
  | goes (pass : Pass H) (todo : List Name)
  | digests (pass : Pass H) (suffix : Name) (seen : ℕ) (todo : List Name)
  | returned (suffixes : List (Name × Option H)) (asOf : Name → ℕ)

def Stage.clearing : Stage H → Bool
  | .clears _ _ => true
  | _ => false

/-- The call holds the partition's lock. -/
def Stage.locked : Stage H → Bool
  | .reads => true
  | .clears _ _ => true
  | _ => false

structure Call (H : Type*) where
  recalculate : List Name
  doListdir : Bool
  since : Name → ℕ
  stage : Stage H

structure Partition (D H : Type*) where
  dirs : List (Name × D)
  pickle : Pickle H
  invalid : Option (List Name)
  lock : Option ℕ
  calls : ℕ → Option (Call H)
  changes : Name → ℕ
  told : Name → ℕ
  asOf : Name → ℕ

inductive Outcome (H : Type*)
  | hashed (h : H)
  | pathNotDir
  | osError

/-- What a call does next. An exception out of `consolidate_hashes` is caught,
any other ends the call as a kill does. -/
inductive Turn (H : Type*)
  | lock
  | combine (now : ℤ)
  | clear
  | fail
  | look
  | list
  | begin
  | hash (outcome : Outcome H)
  | finish (now : ℤ)

inductive Event (D H : Type*)
  | change (s : Name) (dir : Option D)
  | invalidate (suffix : Name)
  | getHashes (id : ℕ) (suffixes : List Name) (doListdir : Bool)
  | turn (id : ℕ) (t : Turn H)
  | kill (id : ℕ)

namespace Partition

def lines (w : Partition D H) : List Name := w.invalid.getD []

def enter (w : Partition D H) (id : ℕ) (c : Call H) (stage : Stage H) : Partition D H :=
  { w with calls := update w.calls id (some { c with stage }) }

variable (hasher : Hasher D H)

def digestOf (w : Partition D H) (s : Name) : Option H := (w.dirs.lookup s).bind hasher.digest

/-- `invalidate_hash`, after which what happened to the suffix before is told. -/
def invalidateHash (w : Partition D H) (suffix : Name) : Partition D H :=
  { w with
    invalid := some (w.lines ++ [suffix])
    told := update w.told suffix (w.changes suffix) }

/-- The part of `consolidate_hashes` that reads both files and writes one. -/
def combine (w : Partition D H) (id : ℕ) (c : Call H) (now : ℤ) : Partition D H :=
  let hashes := mark (readHashes w.pickle) (named w.lines)
  let written := if named w.lines = [] then hashes else hashes.stamped now
  let pickle := if named w.lines = [] then w.pickle else .dict written
  if w.lines = [] then { w with pickle, lock := none }.enter id c (.consolidated written w.asOf)
  else { w with pickle }.enter id c (.clears written w.asOf)

/-- From an invalid read a pass starts with nothing, and reads once more. -/
def look (w : Partition D H) (id : ℕ) (c : Call H) (h : Hashes H) (asOf : Name → ℕ) :
    Partition D H :=
  if h.valid = some true then w.enter id c (.lists ⟨h, h, false, asOf⟩)
  else w.enter id { c with doListdir := true }
    (.lists ⟨readHashes w.pickle, ⟨some true, none, []⟩, false, asOf⟩)

def listdir (w : Partition D H) : List Name :=
  (w.dirs.map Prod.fst).filter fun suff => suff.chars.length = 3

def list (w : Partition D H) (id : ℕ) (c : Call H) (p : Pass H) : Partition D H :=
  let listed :=
    if c.doListdir then w.listdir.foldl (fun h suff => h.setDefault suff none) p.hashes
    else p.hashes
  let asOf := fun s => if c.doListdir ∧ listed.get s = none then w.changes s else p.asOf s
  let hashes := mark listed c.recalculate
  w.enter id c (.goes { p with hashes, modified := c.doListdir, asOf }
    ((hashes.suffixes.filter fun kv => kv.2.all hasher.falsy).map Prod.fst))

/-- What a hash may come to. Where the suffix changed meanwhile it is anything. -/
def Fits (w : Partition D H) (s : Name) (seen : ℕ) : Outcome H → Prop
  | .hashed h => w.changes s = seen → w.digestOf hasher s = some h
  | .pathNotDir => w.changes s = seen → w.digestOf hasher s = none
  | .osError => True

instance [DecidableEq H] (w : Partition D H) (s : Name) (seen : ℕ) (out : Outcome H) :
    Decidable (w.Fits hasher s seen out) :=
  match out with
  | .hashed h => inferInstanceAs (Decidable (w.changes s = seen → w.digestOf hasher s = some h))
  | .pathNotDir => inferInstanceAs (Decidable (w.changes s = seen → w.digestOf hasher s = none))
  | .osError => isTrue trivial

end Partition

/-- The dictionary after an outcome; what is known then is known as of `seen`. -/
def Pass.take (p : Pass H) (s : Name) (seen : ℕ) : Outcome H → Pass H
  | .hashed h =>
      { p with hashes := p.hashes.set s (some h), modified := true, asOf := update p.asOf s seen }
  | .pathNotDir =>
      { p with hashes := p.hashes.del s, modified := true, asOf := update p.asOf s seen }
  | .osError => { p with modified := true }

namespace Partition

section Steps

variable [DecidableEq H] (hasher : Hasher D H)

def replace (w : Partition D H) (s : Name) (dir : Option D) : Partition D H :=
  { w with dirs := (w.dirs.filter fun kv => kv.1 ≠ s) ++ (dir.map fun d => (s, d)).toList }

/-- What becomes of a suffix directory. Only what its hash shows counts. -/
def change (w : Partition D H) (s : Name) (dir : Option D) : Partition D H :=
  let shown := (w.replace s dir).digestOf hasher s = w.digestOf hasher s
  { w.replace s dir with changes := update w.changes s (w.changes s + if shown then 0 else 1) }

/-- A pass that changed anything writes it only over what it read. -/
def finish (w : Partition D H) (id : ℕ) (c : Call H) (p : Pass H) (now : ℤ) :
    Option (Partition D H) :=
  if p.modified then
    if w.lock = none then
      if (readHashes w.pickle).Same p.orig then
        some ({ w with pickle := .dict (p.hashes.stamped now), asOf := p.asOf }.enter id c
          (.returned p.hashes.suffixes p.asOf))
      else some (w.enter id c .begins)
    else none
  else some (w.enter id c (.returned p.hashes.suffixes p.asOf))

def turn (w : Partition D H) (id : ℕ) (c : Call H) : Turn H → Option (Partition D H)
  | .lock =>
      match c.stage with
      | .begins => if w.lock = none then some ({ w with lock := some id }.enter id c .reads) else none
      | _ => none
  | .combine now =>
      match c.stage with
      | .reads => some (w.combine id c now)
      | _ => none
  | .clear =>
      match c.stage with
      | .clears h asOf =>
          some ({ w with invalid := some [], lock := none }.enter id c (.consolidated h asOf))
      | _ => none
  | .fail =>
      match c.stage with
      | .begins => some (w.enter id c (.consolidated ⟨some false, none, []⟩ w.asOf))
      | .reads | .clears _ _ =>
          some ({ w with lock := none }.enter id c (.consolidated ⟨some false, none, []⟩ w.asOf))
      | _ => none
  | .look =>
      match c.stage with
      | .consolidated h asOf => some (w.look id c h asOf)
      | _ => none
  | .list =>
      match c.stage with
      | .lists p => some (w.list hasher id c p)
      | _ => none
  | .begin =>
      match c.stage with
      | .goes p (s :: todo) => some (w.enter id c (.digests p s (w.changes s) todo))
      | _ => none
  | .hash out =>
      match c.stage with
      | .digests p s seen todo =>
          if w.Fits hasher s seen out then some (w.enter id c (.goes (p.take s seen out) todo)) else none
      | _ => none
  | .finish now =>
      match c.stage with
      | .goes p [] => w.finish id c p now
      | _ => none

def step (w : Partition D H) : Event D H → Option (Partition D H)
  | .change s dir => some (w.change hasher s dir)
  | .invalidate suffix => if w.lock = none then some (w.invalidateHash suffix) else none
  | .getHashes id suffixes doListdir =>
      match w.calls id with
      | none => some { w with
          calls := update w.calls id
            (some ⟨suffixes.filter validSuffix, doListdir, w.told, .begins⟩) }
      | some _ => none
  | .turn id t => (w.calls id).bind fun c => w.turn hasher id c t
  | .kill id =>
      some { w with
        calls := update w.calls id none
        lock := if w.lock = some id then none else w.lock }

end Steps

end Partition

end Swiftacular.SuffixHashes
