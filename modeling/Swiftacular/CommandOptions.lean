import Swiftacular.StoredInput
import Swiftacular.Conversions

/-!
The command line tool from its arguments on: the flags and what follows them
go into a map of strings, and each command reads from it what it needs, when
it needs it. An argument is a string with one character for each of its bytes.
What goes to standard error is left out, but for the text of an exception.
-/
namespace Swiftacular.CommandOptions

open Function EntryStore EngineObjects EngineRuns Sweep CommandLine Conversions
open StepRuns (bind_ok)

/-- `opts`: what was never set is empty. -/
abbrev Opts := String → String

def argsStr : List (String × String) :=
  [("--database", "database"), ("-d", "database"), ("--input", "input"), ("-i", "input"),
    ("--output", "output"), ("-o", "output"), ("--size", "size"), ("-s", "size"),
    ("--timestamp", "timestamp"), ("-t", "timestamp"), ("--capacity", "capacity"),
    ("-c", "capacity")]

def argsBool : List (String × String) :=
  [("--help", "show_help"), ("-h", "show_help"), ("--quiet", "quiet"), ("-q", "quiet")]

def argsComm : List (String × List String) :=
  [("list", []), ("clean", []), ("get", ["object"]), ("head", ["object"]),
    ("put", ["object", "metadata"]), ("post", ["object", "metadata"]),
    ("delete", ["object", "metadata"])]

def isFlag (arg : String) : Bool := arg.toList.head? = some '-' && arg.toList.length ≠ 1

/-- The loop of `parse_args`: the flags, and the arguments that are none. -/
def parseFlags (opts : Opts) (local_ : List String) : List String → Opts × List String
  | [] => (opts, local_)
  | arg :: rest =>
      match argsBool.lookup arg with
      | some key => parseFlags (update opts key "true") local_ rest
      | none =>
          match argsStr.lookup arg with
          | some key =>
              match rest with
              | [] => (update opts "parse_error" "true", local_)
              | value :: rest => parseFlags (update opts key value) local_ rest
          | none =>
              if isFlag arg then parseFlags (update opts "parse_error" "true") local_ rest
              else parseFlags opts (local_ ++ [arg]) rest

def parseArgs (bin : String) (args : List String) : Opts :=
  let (opts, local_) := parseFlags (update (fun _ => "") "bin" bin) [] args
  if opts "show_help" = "true" then opts
  else
    match local_ with
    | [] => update opts "parse_error" "true"
    | command :: values =>
        let opts := update opts "command" command
        match argsComm.lookup command with
        | none => update opts "parse_error" "true"
        | some keys => (keys.zip values).foldl (fun opts kv => update opts kv.1 kv.2) opts

/-- What is thrown: a text, what a command's own calls throw, or an entry a
scan cannot load. -/
inductive Thrown
  | text (what : String)
  | command (e : Failure)
  | load (e : LoadError)
  deriving DecidableEq

/-- The transactions handed over, what was output, what was thrown, and the exit status. -/
structure Ended where
  transactions : List (List Op)
  output : Bytes
  thrown : Option Thrown
  status : ℕ

/-- What the tool is run on: the files it may read and write, the stores by
their paths and whether they can be mounted, how their collections are listed,
the text for a file that cannot be as long as it is asked to be, and the clock. -/
structure Env where
  stdin : Bytes
  files : String → Option Bytes
  writable : String → Bool
  stores : String → Store
  mount : String → Option UInt64 → Except String Unit
  listings : String → List (List Address)
  tooLong : String
  us : UInt64

/-- How a numeric option is read: its name and its text. -/
abbrev Reader := String → String → Except Thrown UInt64

def text (key : String) (value : String) : Except Thrown String :=
  if value = "" then .error (.text ("Missing " ++ key)) else .ok value

def number : Reader := fun key value => do
  let value ← text key value
  match whole value.toList with
  | some out => .ok out
  | none => .error (.text ("Invalid " ++ key ++ " '" ++ value ++ "'"))

section Options

variable (read : Reader) (opts : Opts) (env : Env)

def capacity : Except Thrown (Option UInt64) :=
  if opts "capacity" = "" then .ok none else (read "capacity" (opts "capacity")).map some

def object : Except Thrown Name := text "object" (opts "object")

def metadata : Bytes := (opts "metadata").toList.map fun c => UInt8.ofNat c.toNat

/-- Without the flag the greatest there is. -/
def size : Except Thrown (Option UInt64) :=
  if opts "size" = "" then .ok none else (read "size" (opts "size")).map some

def timestamp : Except Thrown (Option UInt64) :=
  if opts "timestamp" = "" then .ok none else (read "timestamp" (opts "timestamp")).map some

def input : Except Thrown Bytes :=
  if opts "input" = "" then .ok env.stdin
  else
    match env.files (opts "input") with
    | some bytes => .ok bytes
    | none => .error (.text ("Cannot open " ++ opts "input"))

def output : Except Thrown Unit :=
  if opts "output" = "" ∨ env.writable (opts "output") then .ok ()
  else .error (.text ("Cannot open " ++ opts "output"))

/-- `Backend::Backend`: no file is longer than its offsets can say. -/
def mounted (path : String) (capacity : Option UInt64) : Except Thrown Unit :=
  match capacity with
  | some 0 => .error (.text ("bluestore " ++ path ++ ": capacity must not be 0"))
  | capacity =>
      if 9223372036854775808 ≤ (capacity.getD 0).toNat then
        .error (.text ("bluestore " ++ path ++ ": " ++ env.tooLong ++ inUse))
      else
        match env.mount path capacity with
        | .ok () => .ok ()
        | .error e => .error (.text ("bluestore " ++ path ++ ": " ++ e ++ inUse))
where
  inUse : String := "\nThe store may be in use by another process"

/-- `backend`: the store at the path. The note on other processes is added to
what reading the capacity throws, too. -/
def backend : Except Thrown Store := do
  let path ← text "database" (opts "database")
  match capacity read opts with
  | .error (.text what) => .error (.text (what ++ mounted.inUse))
  | .error e => .error e
  | .ok capacity =>
      mounted env path capacity
      pure (env.stores path)

end Options

/-! The commands. -/

/-- A command that threw before it prepared anything. -/
def failed (e : Thrown) : Ended := ⟨[], [], some e, 1⟩

def settled : Except Thrown Ended → Ended
  | .ok ended => ended
  | .error e => failed e

def Ended.of (out : Outcome) : Ended :=
  ⟨out.transactions, out.output,
    match out.result with
    | .ok () => none
    | .error e => some (.command e), out.exit⟩

def Ended.ofScan (transactions : List (List Op)) (output : Bytes) :
    Except LoadError Unit → Ended
  | .ok () => ⟨transactions, output, none, 0⟩
  | .error e => ⟨transactions, output, some (.load e), 1⟩

section Commands

variable (read : Reader) (opts : Opts) (env : Env)

/-- `prev.open()`, of an Object just found. -/
def searched (s : Store) (name : Name) : Except Thrown Unit :=
  match (Backend.find 0 name).open s with
  | (_, .error e) => .error (.command (.engine e))
  | (_, .ok ()) => .ok ()

/-- The timestamp is read once the store is open and the name was looked for. -/
def replace (deleted : Bool) : Except Thrown Ended := do
  let name ← object opts
  let limit ← size read opts
  let bytes ← (if deleted then .ok env.stdin else input opts env)
  let s ← backend read opts env
  searched s name
  let ts ← timestamp read opts
  pure (Ended.of (replaced deleted ⟨name, metadata opts, limit, ts, bytes⟩ env.us s))

def listLine (stat : Stat) : String :=
  (if stat.state ≠ .active then stateName stat.state ++ " " else "") ++ stat.name ++
    (if stat.state ≠ .active then " ts=" ++ toString stat.ts else "") ++
    (if stat.state = .inWrite then " (estimated)" else "") ++
    (if stat.deleted then " (deleted)" else "") ++ "\n"

def list : Except Thrown Ended := do
  output opts env
  let s ← backend read opts env
  let lines := scan s (fun lines stat => (lines ++ listLine stat, .nextEntry)) ""
    (env.listings (opts "database"))
  pure (Ended.ofScan [] (lines.1.toList.map fun c => UInt8.ofNat c.toNat) lines.2)

/-- What was queued when an entry cannot be loaded is still handed over. -/
def clean : Except Thrown Ended := do
  let s ← backend read opts env
  let removed := scan s cleanEntry [] (env.listings (opts "database"))
  pure (Ended.ofScan (removed.1.map fun op => [op]) [] removed.2)

def get : Except Thrown Ended := do
  let name ← object opts
  let limit ← size read opts
  output opts env
  let s ← backend read opts env
  pure (Ended.of (CommandLine.get { object := name, size := limit } s))

def head : Except Thrown Ended := do
  let name ← object opts
  output opts env
  let s ← backend read opts env
  pure (Ended.of (CommandLine.head { object := name } s))

def post : Except Thrown Ended := do
  let name ← object opts
  let s ← backend read opts env
  pure (Ended.of (CommandLine.post { object := name, metadata := metadata opts } s))

/-- The command by its name, or the status for one that is none. -/
def command : Ended :=
  match opts "command" with
  | "list" => settled (list read opts env)
  | "clean" => settled (clean read opts env)
  | "get" => settled (get read opts env)
  | "head" => settled (head read opts env)
  | "put" => settled (replace read opts env false)
  | "post" => settled (post read opts env)
  | "delete" => settled (replace read opts env true)
  | _ => ⟨[], [], none, 2⟩

end Commands

/-- `run`, with numeric options read in a given way. -/
def runWith (read : Reader) (env : Env) (bin : String) (args : List String) : Ended :=
  let opts := parseArgs bin args
  if opts "show_help" = "true" then ⟨[], [], none, 0⟩
  else if opts "parse_error" = "true" then ⟨[], [], none, 1⟩
  else command read opts env

def run : Env → String → List String → Ended := runWith number

/-! What a value of a numeric option leads to. -/

inductive Key
  | size | timestamp | capacity
  deriving DecidableEq

def Key.name : Key → String
  | .size => "size"
  | .timestamp => "timestamp"
  | .capacity => "capacity"

def Key.flag : Key → String
  | .size => "-s"
  | .timestamp => "-t"
  | .capacity => "-c"

/-- The commands that read an option. -/
def readers : Key → List String
  | .size => ["get", "put", "delete"]
  | .timestamp => ["put", "delete"]
  | .capacity => ["list", "clean", "get", "head", "put", "post", "delete"]

/-- A command is run that reads the option, and this is the option's value. -/
structure Takes (bin : String) (args : List String) (key : Key) (value : String) : Prop where
  shown : parseArgs bin args "show_help" ≠ "true"
  parsed : parseArgs bin args "parse_error" ≠ "true"
  value : parseArgs bin args key.name = value
  command : parseArgs bin args "command" ∈ readers key

/-- Numeric options read as they are, and one of them as a given number. -/
def reading (key : Key) (n : ℕ) : Reader := fun name value =>
  if name = key.name then .ok (UInt64.ofNat n) else number name value

/-- However far the command gets, the store is as it was. -/
def Untouched (s : Store) (ended : Ended) : Prop :=
  ∀ k, applyAll s (ended.transactions.take k).flatten = some s

/-- The store a command runs on. -/
def Env.store (env : Env) (bin : String) (args : List String) : Store :=
  env.stores (parseArgs bin args "database")

/-- A command takes digits as the number they are, and nothing else; and a
name it settles is at the number its timestamp spells. -/
structure ReadsExactly (key : Key) (value : String) : Prop where
  used : ∀ env bin args n, Takes bin args key value → Spells value.toList n →
    run env bin args = runWith (reading key n) env bin args
  refused : ∀ env bin args, Takes bin args key value → value ≠ "" →
    (∀ n, ¬ Spells value.toList n) →
      (run env bin args).status ≠ 0 ∧ Untouched (env.store bin args) (run env bin args)
  spelt : key = .timestamp → ∀ env bin args s', Takes bin args key value → value ≠ "" →
    (run env bin args).status = 0 →
    applyAll (env.store bin args) (run env bin args).transactions.flatten = some s' →
      ∃ e deleted n, s' (ordinary (parseArgs bin args "object")) = some e ∧
        e.attrs = some ⟨n, deleted, false⟩ ∧ Spells value.toList n

/-- Blanks or a sign before the digits; a capacity is then one a file can have. -/
def Loose (key : Key) (value : String) : Prop :=
  ∃ negative n, Padded value.toList negative n ∧
    (key = .capacity →
      if negative then 9223372036854775808 < n else 0 < n ∧ n < 9223372036854775808)

variable {read read' : Reader} {opts : Opts} {env : Env}

/-- A command reads its options, and nothing else depends on how. -/
theorem command_congr
    (h : ∀ key : Key, opts key.name ≠ "" →
      read key.name (opts key.name) = read' key.name (opts key.name)) :
    command read opts env = command read' opts env := by
  have hsize : size read opts = size read' opts := by
    unfold size
    split
    · rfl
    · rename_i hne
      exact congrArg (Except.map some) (h .size hne)
  have hts : timestamp read opts = timestamp read' opts := by
    unfold timestamp
    split
    · rfl
    · rename_i hne
      exact congrArg (Except.map some) (h .timestamp hne)
  have hcap : capacity read opts = capacity read' opts := by
    unfold capacity
    split
    · rfl
    · rename_i hne
      exact congrArg (Except.map some) (h .capacity hne)
  have hback : backend read opts env = backend read' opts env := by
    unfold backend
    rw [hcap]
  unfold command list clean get head post replace
  simp only [hsize, hts, hback]

/-! What a command that does not throw has read. -/

theorem replace_ok {deleted : Bool} {ended : Ended} (h : replace read opts env deleted = .ok ended) :
    ∃ name limit bytes s ts, object opts = .ok name ∧ size read opts = .ok limit ∧
      backend read opts env = .ok s ∧ timestamp read opts = .ok ts ∧
      ended = Ended.of (replaced deleted ⟨name, metadata opts, limit, ts, bytes⟩ env.us s) := by
  unfold replace at h
  obtain ⟨name, hname, h⟩ := bind_ok.mp h
  obtain ⟨limit, hlimit, h⟩ := bind_ok.mp h
  obtain ⟨bytes, -, h⟩ := bind_ok.mp h
  obtain ⟨s, hs, h⟩ := bind_ok.mp h
  obtain ⟨_, -, h⟩ := bind_ok.mp h
  obtain ⟨ts, hts, h⟩ := bind_ok.mp h
  exact ⟨name, limit, bytes, s, ts, hname, hlimit, hs, hts, (Except.ok.inj h).symm⟩

theorem get_ok {ended : Ended} (h : get read opts env = .ok ended) :
    (∃ limit, size read opts = .ok limit) ∧ ∃ s, backend read opts env = .ok s := by
  unfold get at h
  obtain ⟨name, -, h⟩ := bind_ok.mp h
  obtain ⟨limit, hlimit, h⟩ := bind_ok.mp h
  obtain ⟨_, -, h⟩ := bind_ok.mp h
  obtain ⟨s, hs, -⟩ := bind_ok.mp h
  exact ⟨⟨limit, hlimit⟩, s, hs⟩

theorem list_ok {ended : Ended} (h : list read opts env = .ok ended) :
    ∃ s, backend read opts env = .ok s := by
  unfold list at h
  obtain ⟨_, -, h⟩ := bind_ok.mp h
  obtain ⟨s, hs, -⟩ := bind_ok.mp h
  exact ⟨s, hs⟩

theorem clean_ok {ended : Ended} (h : clean read opts env = .ok ended) :
    ∃ s, backend read opts env = .ok s := by
  unfold clean at h
  obtain ⟨s, hs, -⟩ := bind_ok.mp h
  exact ⟨s, hs⟩

theorem head_ok {ended : Ended} (h : head read opts env = .ok ended) :
    ∃ s, backend read opts env = .ok s := by
  unfold head at h
  obtain ⟨_, -, h⟩ := bind_ok.mp h
  obtain ⟨_, -, h⟩ := bind_ok.mp h
  obtain ⟨s, hs, -⟩ := bind_ok.mp h
  exact ⟨s, hs⟩

theorem post_ok {ended : Ended} (h : post read opts env = .ok ended) :
    ∃ s, backend read opts env = .ok s := by
  unfold post at h
  obtain ⟨_, -, h⟩ := bind_ok.mp h
  obtain ⟨s, hs, -⟩ := bind_ok.mp h
  exact ⟨s, hs⟩

theorem backend_ok {s : Store} (h : backend read opts env = .ok s) :
    s = env.stores (opts "database") ∧ ∃ c, capacity read opts = .ok c ∧ c ≠ some 0 ∧
      (c.getD 0).toNat < 9223372036854775808 := by
  unfold backend at h
  obtain ⟨path, hpath, h⟩ := bind_ok.mp h
  have hsame : path = opts "database" := by
    unfold text at hpath
    split at hpath
    · contradiction
    · exact (Except.ok.inj hpath).symm
  subst hsame
  split at h
  · contradiction
  · contradiction
  · rename_i c hc
    obtain ⟨_, hmount, h⟩ := bind_ok.mp h
    refine ⟨(Except.ok.inj h).symm, c, hc, ?_, ?_⟩
    · rintro rfl
      contradiction
    · unfold mounted at hmount
      split at hmount
      · contradiction
      · split at hmount
        · contradiction
        · omega

/-! A value that is refused. -/

/-- No number is read, or one no store can be opened with. -/
def Denied (key : Key) (value : String) : Prop :=
  ∀ n, number key.name value = .ok n → key = .capacity ∧ (n = 0 ∨ 9223372036854775808 ≤ n.toNat)

theorem option_ok {key : String} {value : String} (hne : value ≠ "") {c : Option UInt64}
    (h : (if value = "" then .ok none else (number key value).map some) = (.ok c : Except Thrown _)) :
    ∃ n, number key value = .ok n ∧ c = some n := by
  rw [if_neg hne] at h
  cases hn : number key value with
  | error e =>
    rw [hn] at h
    contradiction
  | ok n =>
    rw [hn] at h
    exact ⟨n, rfl, (Except.ok.inj h).symm⟩

theorem settled_failed {x : Except Thrown Ended} (h : ∀ ended, x ≠ .ok ended) :
    ∃ e, settled x = failed e := by
  cases x with
  | error e => exact ⟨e, rfl⟩
  | ok ended => exact absurd rfl (h ended)

theorem command_denied {key : Key} (hne : opts key.name ≠ "")
    (hreads : opts "command" ∈ readers key) (hdenied : Denied key (opts key.name)) :
    ∃ e, command number opts env = failed e := by
  cases key with
  | size =>
    have hsize : ∀ limit, size number opts ≠ .ok limit := by
      intro limit h
      obtain ⟨n, hn, -⟩ := option_ok hne h
      have hkey := (hdenied n hn).1
      contradiction
    simp only [readers, List.mem_cons, List.not_mem_nil, or_false] at hreads
    unfold command
    rcases hreads with h | h | h <;> rw [h] <;> refine settled_failed fun ended hended => ?_
    · obtain ⟨⟨limit, hlimit⟩, -⟩ := get_ok hended
      exact hsize limit hlimit
    · obtain ⟨_, limit, _, _, _, _, hlimit, _⟩ := replace_ok hended
      exact hsize limit hlimit
    · obtain ⟨_, limit, _, _, _, _, hlimit, _⟩ := replace_ok hended
      exact hsize limit hlimit
  | timestamp =>
    have hts : ∀ ts, timestamp number opts ≠ .ok ts := by
      intro ts h
      obtain ⟨n, hn, -⟩ := option_ok hne h
      have hkey := (hdenied n hn).1
      contradiction
    simp only [readers, List.mem_cons, List.not_mem_nil, or_false] at hreads
    unfold command
    rcases hreads with h | h <;> rw [h] <;> refine settled_failed fun ended hended => ?_
    · obtain ⟨_, _, _, _, ts, _, _, _, hread, _⟩ := replace_ok hended
      exact hts ts hread
    · obtain ⟨_, _, _, _, ts, _, _, _, hread, _⟩ := replace_ok hended
      exact hts ts hread
  | capacity =>
    have hback : ∀ s, backend number opts env ≠ .ok s := by
      intro s h
      obtain ⟨-, c, hc, hzero, hlong⟩ := backend_ok h
      obtain ⟨n, hn, rfl⟩ := option_ok hne hc
      rcases (hdenied n hn).2 with rfl | hge
      · exact hzero rfl
      · rw [Option.getD_some] at hlong
        omega
    simp only [readers, List.mem_cons, List.not_mem_nil, or_false] at hreads
    unfold command
    rcases hreads with h | h | h | h | h | h | h <;> rw [h] <;>
      refine settled_failed fun ended hended => ?_
    · obtain ⟨s, hs⟩ := list_ok hended
      exact hback s hs
    · obtain ⟨s, hs⟩ := clean_ok hended
      exact hback s hs
    · obtain ⟨-, s, hs⟩ := get_ok hended
      exact hback s hs
    · obtain ⟨s, hs⟩ := head_ok hended
      exact hback s hs
    · obtain ⟨_, _, _, s, _, _, _, hs, _⟩ := replace_ok hended
      exact hback s hs
    · obtain ⟨s, hs⟩ := post_ok hended
      exact hback s hs
    · obtain ⟨_, _, _, s, _, _, _, hs, _⟩ := replace_ok hended
      exact hback s hs

theorem number_ok {key value : String} {n : UInt64} :
    number key value = .ok n ↔ value ≠ "" ∧ whole value.toList = some n := by
  unfold number text
  by_cases hne : value = ""
  · simp [hne, bind, Except.bind]
  · simp only [if_neg hne, bind, Except.bind]
    cases whole value.toList with
    | none => simp
    | some out => simp [hne]

theorem number_spells {key value : String} {n : ℕ} (h : Spells value.toList n) :
    number key value = .ok (UInt64.ofNat n) := by
  refine number_ok.mpr ⟨?_, whole_iff.mpr (Or.inl ?_)⟩
  · rintro rfl
    exact h.nonempty rfl
  · rw [UInt64.toNat_ofNat_of_lt' h.bound]
    exact h

/-- The number of a padded text, as a capacity. -/
theorem wrapped_capacity {negative : Bool} {n : ℕ} (hn : n < 18446744073709551616) :
    (if negative then 9223372036854775808 < n else 0 < n ∧ n < 9223372036854775808) ↔
      wrapped negative n ≠ 0 ∧ (wrapped negative n).toNat < 9223372036854775808 := by
  have hnat : (UInt64.ofNat n).toNat = n := UInt64.toNat_ofNat_of_lt' hn
  have hzero : ∀ m : UInt64, m ≠ 0 ↔ m.toNat ≠ 0 := fun m =>
    not_congr (UInt64.toNat_inj (b := 0)).symm
  rw [hzero]
  cases negative with
  | false =>
    simp only [wrapped, Bool.false_eq_true, if_false, hnat]
    omega
  | true =>
    simp only [wrapped, if_true, UInt64.toNat_neg, hnat, UInt64.size]
    omega

/-- A text that is neither digits nor loose is denied. -/
theorem denied_of_tight {key : Key} {value : String} (htight : ¬ Loose key value)
    (hspells : ∀ n, ¬ Spells value.toList n) : Denied key value := by
  intro m hm
  rcases whole_iff.mp (number_ok.mp hm).2 with h | ⟨negative, n, hpadded, rfl⟩
  · exact absurd h (hspells _)
  · have hbound : n < 18446744073709551616 := by
      obtain ⟨_, _, _, _, _, _, _, hn⟩ := hpadded
      exact hn.bound
    have hkey : key = .capacity := by
      by_contra hkey
      exact htight ⟨negative, n, hpadded, fun h => absurd h hkey⟩
    refine ⟨hkey, ?_⟩
    by_contra hnot
    simp only [not_or, not_le] at hnot
    exact htight ⟨negative, n, hpadded, fun _ => (wrapped_capacity hbound).mpr hnot⟩

/-! A value that is taken. -/

theorem run_command {bin : String} {args : List String} {key : Key} {value : String}
    (h : Takes bin args key value) :
    runWith read env bin args = command read (parseArgs bin args) env := by
  unfold runWith
  dsimp only
  rw [if_neg h.shown, if_neg h.parsed]

theorem untouched_failed (s : Store) (e : Thrown) : Untouched s (failed e) := by
  intro k
  simp [failed]

/-- What a `put` or a `delete` that exits 0 settles its name at. -/
theorem replace_settles {deleted : Bool} {s' : Store}
    (hstatus : (settled (replace number opts env deleted)).status = 0)
    (happly : applyAll (env.stores (opts "database"))
      (settled (replace number opts env deleted)).transactions.flatten = some s')
    (hne : opts "timestamp" ≠ "") :
    ∃ e n, s' (ordinary (opts "object")) = some e ∧ e.attrs = some ⟨n.toNat, deleted, false⟩ ∧
      number "timestamp" (opts "timestamp") = .ok n := by
  cases hended : replace number opts env deleted with
  | error e =>
    rw [hended] at hstatus
    contradiction
  | ok ended =>
    rw [hended] at hstatus happly
    obtain ⟨name, limit, bytes, s, ts, hname, -, hback, hts, rfl⟩ := replace_ok hended
    obtain ⟨rfl, -⟩ := backend_ok hback
    obtain ⟨n, hn, rfl⟩ := option_ok hne hts
    have hobject : name = opts "object" := by
      unfold object text at hname
      split at hname
      · contradiction
      · exact (Except.ok.inj hname).symm
    obtain ⟨-, hplaced, -⟩ := StoredInput.replaced_places
      (⟨hstatus, happly⟩ : StoredInput.Completes _ (replaced deleted _ env.us _) s')
    subst hobject
    exact ⟨_, n, hplaced, rfl, hn⟩

/-- What a command has prepared before its put is handed over before it. -/
theorem log_closed (c : Core) (ts : Option ℕ) :
    c.log <+: (closed (attempt c (c.put next prev ts)).1).log := by
  have hrelease : ∀ (c : Core) (id : ℕ), c.log <+: (c.release id).log := by
    intro c id
    unfold Core.release
    split
    · exact List.prefix_rfl
    · dsimp only
      split
      · exact List.prefix_rfl
      · exact List.prefix_append ..
  have hput : c.log <+: (attempt c (c.put next prev ts)).1.log := by
    cases hc : c.put next prev ts with
    | error e => exact List.prefix_rfl
    | ok c' =>
      rcases put_cases hc with rfl | ⟨n, p, n', p', ops, -, -, -, rfl⟩
      · exact List.prefix_rfl
      · exact List.prefix_append ..
  exact hput.trans ((hrelease _ _).trans (hrelease _ _))

/-- A deletion of any name on an empty store: its first transaction makes an entry. -/
theorem removed_touches (o : Options) (us : UInt64) (hname : o.object ≠ "") :
    ¬ Untouched (fun _ => none) (Ended.of (replaced true o us fun _ => none)) := by
  let found := (opened.find o.object).open (fun _ => none) prev
  let c₁ := found.1.create o.object o.ts us
  let c₂ := (attempt c₁ (c₁.tombstone next o.metadata)).1
  have hreplace : CommandLine.replace true o us (fun _ => none) =
      attempt c₂ (c₂.put next prev o.ts) := rfl
  let made := temporary o.object (StoredInput.created o us)
  have hlog : ∃ t, c₂.log = [t] ∧ t.ops = [.touch made, .setheader made o.metadata,
      .setattrs made ⟨StoredInput.created o us, true, false⟩] := ⟨_, rfl, rfl⟩
  obtain ⟨t, ht, hops⟩ := hlog
  obtain ⟨rest, hrest⟩ := log_closed c₂ o.ts
  rw [ht] at hrest
  intro hsame
  have hfirst : applyAll (fun _ => none) t.ops = some (fun _ => none) := by
    have hone := hsame 1
    simp only [Ended.of, replaced, if_neg hname, hreplace, ← hrest] at hone
    simpa using hone
  rw [hops] at hfirst
  simp [apply, update_self] at hfirst

/-- A machine with empty stores that can be mounted. -/
def bare : Env :=
  { stdin := [], files := fun _ => none, writable := fun _ => false, stores := fun _ _ => none
    mount := fun _ _ => .ok (), listings := fun _ => [], tooLong := "File too large", us := 0 }

/-- A deletion with one numeric option. -/
def deletion (key : Key) (value : String) : List String :=
  ["-d", "/s", key.flag, value, "delete", "o"]

theorem deletion_opts (key : Key) (value : String) :
    parseArgs "bluestore-cli" (deletion key value) =
      update (update (update (update (update (fun _ => "") "bin" "bluestore-cli") "database" "/s")
        key.name value) "command" "delete") "object" "o" := by
  cases key <;> rfl

theorem deletion_takes (key : Key) (value : String) :
    Takes "bluestore-cli" (deletion key value) key value := by
  refine ⟨?_, ?_, ?_, ?_⟩ <;> rw [deletion_opts]
  · cases key <;> simp [update, Key.name]
  · cases key <;> simp [update, Key.name]
  · cases key <;> simp [update, Key.name]
  · cases key <;> simp [update, readers]

/-- An option that is not given, or is a number, is read. -/
theorem option_reads {key value : String} (h : value = "" ∨ ∃ m, number key value = .ok m) :
    ∃ c : Option UInt64, (if value = "" then .ok none else (number key value).map some) =
      (.ok c : Except Thrown _) := by
  by_cases hne : value = ""
  · exact ⟨none, if_pos hne⟩
  · obtain ⟨m, hm⟩ := h.resolve_left hne
    exact ⟨some m, by rw [if_neg hne, hm]; rfl⟩

/-- With a number read for its option, the deletion removes its name. -/
theorem deletion_run {key : Key} {value : String} {m : UInt64}
    (hm : number key.name value = .ok m)
    (hcapacity : key = .capacity → m ≠ 0 ∧ m.toNat < 9223372036854775808) :
    ∃ o : Options, o.object ≠ "" ∧ run bare "bluestore-cli" (deletion key value) =
      Ended.of (replaced true o 0 fun _ => none) := by
  have hrun := @run_command number bare _ _ _ _ (deletion_takes key value)
  have hopts := deletion_opts key value
  have hvalue := (deletion_takes key value).value
  generalize parseArgs "bluestore-cli" (deletion key value) = opts at hrun hopts hvalue
  have hread : ∀ k : Key, opts k.name = "" ∨ ∃ m, number k.name (opts k.name) = .ok m := by
    intro k
    by_cases hk : k = key
    · subst hk
      exact Or.inr ⟨m, by rw [hvalue, hm]⟩
    · left
      rw [hopts]
      cases k <;> cases key <;> simp [update, Key.name] at hk ⊢
  have hcommand : opts "command" = "delete" := by
    rw [hopts]
    rfl
  have hobject : object opts = .ok "o" := by
    rw [hopts]
    rfl
  have hpath : text "database" (opts "database") = .ok "/s" := by
    rw [hopts]
    cases key <;> rfl
  obtain ⟨limit, hlimit⟩ : ∃ limit, size number opts = .ok limit := option_reads (hread .size)
  obtain ⟨ts, hts⟩ : ∃ ts, timestamp number opts = .ok ts := option_reads (hread .timestamp)
  have hback : backend number opts bare = .ok fun _ => none := by
    obtain ⟨c, hc, hok⟩ : ∃ c, capacity number opts = .ok c ∧ c ≠ some 0 ∧
        (c.getD 0).toNat < 9223372036854775808 := by
      unfold capacity
      by_cases hk : key = .capacity
      · subst hk
        obtain ⟨hzero, hlong⟩ := hcapacity rfl
        have hne : opts "capacity" ≠ "" := hvalue.trans_ne (number_ok.mp hm).1
        have hread : number "capacity" (opts "capacity") = .ok m := by
          rw [show opts "capacity" = value from hvalue]
          exact hm
        exact ⟨some m, by rw [if_neg hne, hread]; rfl, by simpa using hzero, hlong⟩
      · have hempty : opts "capacity" = "" := by
          rw [hopts]
          cases key <;> simp [update, Key.name] at hk ⊢
        exact ⟨none, if_pos hempty, by simp, by decide⟩
    have hmounted : mounted bare "/s" c = .ok () := by
      unfold mounted
      split
      · exact absurd rfl hok.1
      · rw [if_neg (by omega)]
        rfl
    have hstore : bare.stores = fun _ _ => none := rfl
    unfold backend
    rw [hpath, hc]
    simp only [bind, Except.bind, hmounted, hstore]
    rfl
  refine ⟨⟨"o", metadata opts, limit, ts, []⟩, (by decide : "o" ≠ ""), ?_⟩
  have hreplace : replace number opts bare true =
      .ok (Ended.of (replaced true ⟨"o", metadata opts, limit, ts, []⟩ 0 fun _ => none)) := by
    unfold replace
    rw [hobject, hlimit, hback, hts]
    rfl
  rw [run, hrun]
  unfold command
  rw [hcommand, hreplace]
  rfl

theorem refused_of_tight {key : Key} {value : String} (htight : ¬ Loose key value) (env : Env)
    {bin : String} {args : List String} (htakes : Takes bin args key value) (hne : value ≠ "")
    (hspells : ∀ n, ¬ Spells value.toList n) : ∃ e, run env bin args = failed e := by
  have hopts := htakes.value
  rw [run, run_command htakes]
  refine @command_denied _ _ key ?_ htakes.command ?_
  · rw [hopts]
    exact hne
  · rw [hopts]
    exact denied_of_tight htight hspells

/-- A numeric option is read exactly if and only if its text is not a number
with blanks or a sign before it. -/
theorem reads_exactly (key : Key) (value : String) : ReadsExactly key value ↔ ¬ Loose key value := by
  constructor
  · rintro h ⟨negative, n, hpadded, hcapacity⟩
    have hm : number key.name value = .ok (wrapped negative n) := by
      refine number_ok.mpr ⟨?_, whole_iff.mpr (Or.inr ⟨negative, n, hpadded, rfl⟩)⟩
      rintro rfl
      obtain ⟨blanks, sign, digits, hempty, -, -, -, hdigits⟩ := hpadded
      exact hdigits.nonempty (List.append_eq_nil_iff.mp hempty.symm).2
    have hbound : n < 18446744073709551616 := by
      obtain ⟨_, _, _, _, _, _, _, hn⟩ := hpadded
      exact hn.bound
    obtain ⟨o, hname, hrun⟩ := deletion_run hm fun hkey =>
      (wrapped_capacity hbound).mp (hcapacity hkey)
    have hsame := (h.refused bare _ _ (deletion_takes key value) (number_ok.mp hm).1
      (padded_not_spells hpadded)).2
    rw [hrun] at hsame
    exact removed_touches o 0 hname hsame
  · intro htight
    refine ⟨fun env bin args n htakes hn => ?_, fun env bin args htakes hne hspells => ?_,
      fun hkey env bin args s' htakes hne hstatus happly => ?_⟩
    · rw [run, run_command htakes, run_command htakes]
      refine command_congr fun k _ => ?_
      unfold reading
      split
      · rename_i hk
        rw [hk, htakes.value]
        exact number_spells hn
      · rfl
    · obtain ⟨e, he⟩ := refused_of_tight htight env htakes hne hspells
      rw [he]
      exact ⟨Nat.one_ne_zero, untouched_failed _ e⟩
    · subst hkey
      have hspelt : ∃ n, Spells value.toList n := by
        by_contra hnone
        obtain ⟨e, he⟩ := refused_of_tight htight env htakes hne (not_exists.mp hnone)
        rw [he] at hstatus
        contradiction
      have hvalue : parseArgs bin args "timestamp" = value := htakes.value
      obtain ⟨n, hn⟩ := hspelt
      have hsettles : ∀ deleted, run env bin args =
          settled (replace number (parseArgs bin args) env deleted) →
          ∃ e deleted n, s' (ordinary (parseArgs bin args "object")) = some e ∧
            e.attrs = some ⟨n, deleted, false⟩ ∧ Spells value.toList n := by
        intro deleted hrun
        rw [hrun] at hstatus happly
        obtain ⟨e, m, he, hattrs, hm⟩ := replace_settles hstatus happly (hvalue ▸ hne)
        rw [hvalue, number_spells hn] at hm
        obtain rfl := Except.ok.inj hm
        refine ⟨e, deleted, _, he, hattrs, ?_⟩
        rw [UInt64.toNat_ofNat_of_lt' hn.bound]
        exact hn
      have hcommand := htakes.command
      simp only [readers, List.mem_cons, List.not_mem_nil, or_false] at hcommand
      rcases hcommand with h | h
      · refine hsettles false ?_
        rw [run, run_command htakes]
        unfold command
        rw [h]
        rfl
      · refine hsettles true ?_
        rw [run, run_command htakes]
        unfold command
        rw [h]
        rfl

def wrappedPut : List String := ["-d", "/s", "-t", "-1", "put", "a/c/o"]

/-- A put at `-1` exits 0, and the name is settled at the greatest timestamp. -/
theorem wrapped_accepted : ¬ ReadsExactly .timestamp "-1" ∧
    (run bare "bluestore-cli" wrappedPut).status = 0 ∧ (∀ n, ¬ Spells "-1".toList n) ∧
      ((applyAll (fun _ => none) (run bare "bluestore-cli" wrappedPut).transactions.flatten).bind
        fun s' => s' (ordinary "a/c/o")).bind Entry.attrs =
          some ⟨18446744073709551615, false, false⟩ := by
  have hstatus : (run bare "bluestore-cli" wrappedPut).status = 0 := by decide +kernel
  have hspells : ∀ n, ¬ Spells "-1".toList n := fun n hn =>
    absurd (hn.digits '-' (by decide)) (by decide)
  have htakes : Takes "bluestore-cli" wrappedPut .timestamp "-1" :=
    ⟨by decide +kernel, by decide +kernel, by decide +kernel, by decide +kernel⟩
  exact ⟨fun h => (h.refused bare _ _ htakes (by decide) hspells).1 hstatus, hstatus, hspells,
    by decide +kernel⟩

end Swiftacular.CommandOptions
