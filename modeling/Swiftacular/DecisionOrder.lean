import Swiftacular.DeviceInvariant

/-!
No update of a name is lost. Whatever its requests wait for and in whatever
order they go on, each decision is made against the Object the map has at that
moment and against all the metadata prepared for it so far, and the name ends
up as if the decisions had been made one after another.
-/
namespace Swiftacular.DecisionOrder

open EntryStore EngineObjects Versions EngineRuns LiveObjects HeldEntries PreparedLog DeviceRuns
  DeviceEngine DeviceWorld DeviceSteps DeviceInvariant MetadataModel Sweep

/-- What the store shows of a name. -/
def seen (s : EngineObjects.Store) (name : Name) : Option View :=
  (s (ordinary name)).bind fun e => e.attrs.map fun k => ⟨k.ts, k.deleted, e.header⟩

structure Ordered (conf : Conf) (r : Record) (w : World) : Prop where
  current : ∀ d, .decided d ∈ w.events → Current r w.core.log d
  folded : ∀ name, view r w.core.log name =
    (decisions w name).foldl (decided conf) (view r [] name)
  shown : ∀ name, (∀ k, TouchedAt w.core.log name k → k < w.handed) →
    seen w.store name = view r w.core.log name

variable {conf : Conf} {G : Goal → Prop} {r : Record} {s : EngineObjects.Store} {w : World}
  {name : Name}

/-- An entry that shows a version shows its timestamp, its flag and its metadata. -/
theorem seen_shown {held : Option Version}
    (h : (s (ordinary name)).map shown = held.map fun v => shown v.entry) :
    seen s name = held.map View.of := by
  unfold seen
  cases held with
  | none =>
    rw [Option.map_none, Option.map_eq_none_iff] at h
    rw [h]
    rfl
  | some v =>
    obtain ⟨e, he, hshown⟩ := Option.map_eq_some_iff.mp h
    obtain ⟨hheader, hattrs⟩ := Prod.mk.inj hshown
    rw [he, Option.bind_some, hattrs, hheader]
    rfl

theorem decision_order (hs : Swept r s) (last : UInt64) {actions : List Action}
    (hrun : (World.start s last).run conf actions = some w) : Ordered conf r w := by
  have h := running_any hs last hrun
  exact ⟨fun d hd => h.told _ hd, h.followed, fun n hn => seen_shown (shown_handed h.grounded hn)⟩

/-! A POST that comes while the PUT before it is still being synced. -/

def written : Section := Section.stamped ⟨100, 0⟩

def posted : Section := Section.stamped ⟨150, 0⟩

/-- The two blobs of the run, and what `json.dumps` makes of them. -/
def texts : List (Blob × String) :=
  [(⟨written, none⟩, "\x7b\"data\": \x7b\"X-Timestamp\": \"0000000000.00100\"\x7d\x7d"),
    (⟨written, some posted⟩, "\x7b\"data\": \x7b\"X-Timestamp\": \"0000000000.00100\"\x7d, " ++
      "\"meta\": \x7b\"X-Timestamp\": \"0000000000.00150\"\x7d\x7d")]

def bytesOf (text : String) : Bytes := text.toList.map fun c => c.toNat.toUInt8

/-- The one collection of the run. -/
def home : Collection := ⟨0, Nat.zero_lt_succ _⟩

/-- A Device whose runs dump these blobs only, as these texts. -/
def tabled (texts : List (Blob × String)) : Conf where
  chunkSize := 64
  isSysMeta := fun _ => false
  dumps := fun blob => ((texts.lookup blob).map bytesOf).getD []
  loads := fun bytes => (texts.find? fun p => bytesOf p.2 = bytes).map Prod.fst
  collection := fun _ => home

def sample : Conf := tabled texts

/-- A request opens the name, which nothing is known of yet, and puts it. -/
def putting : List Action :=
  [.request "a/c/o", .ask 0 .open, .go 0 0, .go 1 0, .move 1, .resume 1 0, .go 0 0, .go 0 0,
    .ask 0 (.create 5), .ask 0 (.put 100 written), .go 0 0]

/-- Another posts to it, and what it reads first is what the PUT wrote. -/
def posting : List Action :=
  [.request "a/c/o", .ask 2 .open, .go 2 0, .ask 2 (.post posted), .go 2 0, .go 2 0] ++
    List.replicate 9 (.move 2) ++ [.move 0, .move 0, .move 2, .move 2, .commit home 2, .resume 2 0,
      .move 2, .move 2, .move 2, .resume 2 0, .resume 0 0] ++
    List.replicate 7 (.move 2) ++ [.commit home 3, .resume 2 0]

def raced : World :=
  ((World.start (fun _ => none) 0).run sample (putting ++ posting)).get (by decide +kernel)

theorem raced_run : (World.start (fun _ => none) 0).run sample (putting ++ posting) = some raced :=
  (Option.some_get _).symm

example : decisions raced "a/c/o" = [.put 1 100 written, .post posted] := by decide +kernel

theorem decision_order_raced : Ordered sample Record.empty raced :=
  decision_order swept_empty 0 raced_run

end Swiftacular.DecisionOrder
