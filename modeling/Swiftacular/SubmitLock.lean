import Mathlib.Data.List.Induction
import Mathlib.Logic.Function.Basic
import Swiftacular.StepRuns

/-!
The queue of prepared transactions, and the two locks that threads take around
it. A submit that finds the submit lock taken returns, which is safe because
the holder lets go of it only inside the critical section in which it saw the
queue empty.
-/
namespace Swiftacular.SubmitLock

open StepRuns (run_concat_some)

/-- What became of a transaction taken off the queue: the store took it, the
store refused it, or it was destroyed with the batch it was in. -/
inductive Outcome
  | taken | refused | destroyed
  deriving DecidableEq

/-- Where a thread is. From `trying` to `unwinding` it is inside `submit`, in
`found` and `unlocked` holding the queue lock too; `taking` and `waiting` are
what `sync` does next. -/
inductive Point (τ : Type)
  | outside
  | trying
  | looking
  | handing (batch : List τ)
  | found
  | unlocked
  | unwinding (place : ℕ)
  | taking
  | waiting (place : ℕ)

namespace Point

variable {τ : Type}

def holdsSubmit : Point τ → Bool
  | .looking | .handing _ | .found | .unwinding _ => true
  | _ => false

def holdsQueue : Point τ → Bool
  | .found | .unlocked => true
  | _ => false

def inSubmit : Point τ → Bool
  | .outside | .taking | .waiting _ => false
  | _ => true

/-- Whether the thread is yet to look at the queue again. -/
def serves : Point τ → Bool
  | .trying | .looking | .handing _ => true
  | _ => false

def batch : Point τ → List τ
  | .handing batch => batch
  | _ => []

end Point

/-- A thread, and the Object whose `sync` its `submit` is part of. -/
structure Frame (O τ : Type) where
  point : Point τ
  syncing : Option O

/-- A return from `submit`, into `sync` where that called it. -/
def Frame.left {O τ : Type} (f : Frame O τ) : Frame O τ :=
  match f.syncing with
  | none => ⟨.outside, none⟩
  | some o => ⟨.taking, some o⟩

/-- `past` has the transactions taken off the queue in the order they were, and
`done` the place of each Object's latest one. -/
structure State (T O τ : Type) where
  queue : List τ
  queueLock : Option T
  submitLock : Option T
  frames : T → Frame O τ
  past : List (τ × Outcome)
  count : ℕ
  done : O → Option ℕ
  committed : List ℕ
  returned : List ℕ

def start {T O τ : Type} : State T O τ where
  queue := []
  queueLock := none
  submitLock := none
  frames := fun _ => ⟨.outside, none⟩
  past := []
  count := 0
  done := fun _ => none
  committed := []
  returned := []

/-- What can happen next: a thread calls `prepare`, `submit` or `sync`, a thread
inside one of the latter goes on, `queue_transaction` returns an error to it,
or the store commits. -/
inductive Action (T O τ : Type)
  | prepare (t : T) (tx : τ) (done : Option O)
  | submit (t : T)
  | sync (t : T) (o : O)
  | go (t : T)
  | fail (t : T)
  | commit (place : ℕ)

namespace State

variable {T O τ : Type} [DecidableEq T]

def handed (s : State T O τ) : List τ :=
  (s.past.filter fun entry => entry.2 = Outcome.taken).map Prod.fst

def point (s : State T O τ) (t : T) : Point τ := (s.frames t).point

/-- The batch of the thread that holds the submit lock. -/
def inflight (s : State T O τ) : List τ :=
  match s.submitLock with
  | some t => (s.point t).batch
  | none => []

def set (s : State T O τ) (t : T) (f : Frame O τ) : State T O τ :=
  { s with frames := Function.update s.frames t f }

def move (s : State T O τ) (t : T) (p : Point τ) : State T O τ :=
  s.set t ⟨p, (s.frames t).syncing⟩

/-- A thread that is out of `submit` and of `sync`. -/
def stop (s : State T O τ) (t : T) : State T O τ := s.set t ⟨.outside, none⟩

def leave (s : State T O τ) (t : T) : State T O τ := s.set t (s.frames t).left

/-- Whether a future is there: its transaction has committed, or its promise is
gone with it. Whether destroying a transaction breaks its promise or leaks it
is a parameter. -/
def ready (breaks : Bool) (s : State T O τ) (place : ℕ) : Bool :=
  place ∈ s.committed || (breaks && (s.past[place]?).any fun entry => entry.2 ≠ Outcome.taken)

def prepare [DecidableEq O] (s : State T O τ) (tx : τ) (o : Option O) : State T O τ :=
  { s with
    queue := s.queue ++ [tx]
    count := s.count + 1
    done := match o with
      | none => s.done
      | some o => Function.update s.done o (some s.count) }

/-- A thread's next step in `submit` or `sync`; none where it has to wait. -/
def go (breaks : Bool) (s : State T O τ) (t : T) : Option (State T O τ) :=
  match s.point t with
  | .outside => none
  | .trying =>
      match s.submitLock with
      | none => some ({ s with submitLock := some t }.move t .looking)
      | some _ => some (s.leave t)
  | .looking =>
      match s.queueLock, s.queue with
      | some _, _ => none
      | none, [] => some ({ s with queueLock := some t }.move t .found)
      | none, batch => some ({ s with queue := [] }.move t (.handing batch))
  | .handing [] => some (s.move t .looking)
  | .handing (tx :: rest) =>
      some ({ s with past := s.past ++ [(tx, Outcome.taken)] }.move t (.handing rest))
  | .found => some ({ s with submitLock := none }.move t .unlocked)
  | .unlocked => some ({ s with queueLock := none }.leave t)
  | .unwinding _ => some ({ s with submitLock := none }.stop t)
  | .taking =>
      match s.queueLock, (s.frames t).syncing.bind s.done with
      | some _, _ => none
      | none, none => some (s.stop t)
      | none, some place => some (s.move t (.waiting place))
  | .waiting place =>
      if s.ready breaks place then some ({ s with returned := place :: s.returned }.stop t)
      else none

/-- `queue_transaction` returns an error: `submit` throws, and what is left of
the batch goes with it. -/
def fail (s : State T O τ) (t : T) : Option (State T O τ) :=
  match s.point t with
  | .handing (tx :: rest) =>
      some ({ s with past := s.past ++ (tx, Outcome.refused) :: rest.map fun tx => (tx, Outcome.destroyed) }.move t
        (.unwinding s.past.length))
  | _ => none

def call (s : State T O τ) (t : T) (o : Option O) : Option (State T O τ) :=
  match s.point t with
  | .outside => some (s.set t ⟨.trying, o⟩)
  | _ => none

def step [DecidableEq O] (breaks : Bool) (s : State T O τ) : Action T O τ → Option (State T O τ)
  | .prepare t tx o =>
      match s.point t, s.queueLock with
      | .outside, none => some (s.prepare tx o)
      | _, _ => none
  | .submit t => s.call t none
  | .sync t o => s.call t (some o)
  | .go t => s.go breaks t
  | .fail t => s.fail t
  | .commit place =>
      if (s.past[place]?).any fun entry => entry.2 = Outcome.taken then
        some { s with committed := place :: s.committed }
      else none

abbrev run [DecidableEq O] (breaks : Bool) (s : State T O τ) (actions : List (Action T O τ)) :
    Option (State T O τ) :=
  StepRuns.run (step breaks) s actions

end State

/-! A lock is held by whoever is where it is held. -/

section Locks

variable {T : Type} [DecidableEq T] {lock : Option T} {holds : T → Bool}

def Owned (lock : Option T) (holds : T → Bool) : Prop := ∀ t, lock = some t ↔ holds t = true

theorem Owned.keep (h : Owned lock holds) {t : T} {b : Bool} (hb : b = holds t) :
    Owned lock (Function.update holds t b) := by
  rw [hb, Function.update_eq_self]
  exact h

theorem Owned.acquire (h : Owned none holds) (t : T) :
    Owned (some t) (Function.update holds t true) := by
  intro u
  by_cases hu : u = t
  · simp [hu]
  · have hfree := h u
    simp only [reduceCtorEq, false_iff] at hfree
    simp [hu, hfree, Ne.symm hu]

theorem Owned.release {t : T} (h : Owned (some t) holds) :
    Owned none (Function.update holds t false) := by
  intro u
  by_cases hu : u = t
  · simp [hu]
  · have hother := h u
    simp only [Option.some.injEq, Ne.symm hu, false_iff] at hother
    simp [hu, hother]

end Locks

section Invariant

variable {T O τ : Type} [DecidableEq T]

/-- The transactions of a run in the order `prepare` queued them. -/
def prepared (actions : List (Action T O τ)) : List τ :=
  actions.filterMap fun action =>
    match action with
    | .prepare _ tx _ => some tx
    | _ => none

/-- What a thread's next step may be, and what it asks for. -/
inductive Moves (breaks : Bool) (s : State T O τ) (t : T) : State T O τ → Prop
  | took : s.point t = .trying → s.submitLock = none →
      Moves breaks s t ({ s with submitLock := some t }.move t .looking)
  | gaveUp (u : T) : s.point t = .trying → s.submitLock = some u → Moves breaks s t (s.leave t)
  | saw : s.point t = .looking → s.queueLock = none → s.queue = [] →
      Moves breaks s t ({ s with queueLock := some t }.move t .found)
  | swapped : s.point t = .looking →
      Moves breaks s t ({ s with queue := [] }.move t (.handing s.queue))
  | drained : s.point t = .handing [] → Moves breaks s t (s.move t .looking)
  | handed (tx : τ) (rest : List τ) : s.point t = .handing (tx :: rest) →
      Moves breaks s t ({ s with past := s.past ++ [(tx, Outcome.taken)] }.move t (.handing rest))
  | unlocked : s.point t = .found →
      Moves breaks s t ({ s with submitLock := none }.move t .unlocked)
  | left : s.point t = .unlocked → Moves breaks s t ({ s with queueLock := none }.leave t)
  | unwound (place : ℕ) : s.point t = .unwinding place →
      Moves breaks s t ({ s with submitLock := none }.stop t)
  | unset : s.point t = .taking → Moves breaks s t (s.stop t)
  | awaits (place : ℕ) : s.point t = .taking → Moves breaks s t (s.move t (.waiting place))
  | returned (place : ℕ) : s.point t = .waiting place → s.ready breaks place = true →
      Moves breaks s t ({ s with returned := place :: s.returned }.stop t)

theorem go_moves {breaks : Bool} {s s' : State T O τ} {t : T} (h : s.go breaks t = some s') :
    Moves breaks s t s' := by
  unfold State.go at h
  split at h
  case h_1 => contradiction
  case h_2 htrying =>
    split at h
    · rename_i hfree
      obtain rfl := Option.some.inj h
      exact .took htrying hfree
    · rename_i u hheld
      obtain rfl := Option.some.inj h
      exact .gaveUp u htrying hheld
  case h_3 hlooking =>
    split at h
    · contradiction
    · rename_i hfree hempty
      obtain rfl := Option.some.inj h
      exact .saw hlooking hfree hempty
    · obtain rfl := Option.some.inj h
      exact .swapped hlooking
  case h_4 hhanding =>
    obtain rfl := Option.some.inj h
    exact .drained hhanding
  case h_5 tx rest hhanding =>
    obtain rfl := Option.some.inj h
    exact .handed tx rest hhanding
  case h_6 hfound =>
    obtain rfl := Option.some.inj h
    exact .unlocked hfound
  case h_7 hunlocked =>
    obtain rfl := Option.some.inj h
    exact .left hunlocked
  case h_8 place hunwinding =>
    obtain rfl := Option.some.inj h
    exact .unwound place hunwinding
  case h_9 htaking =>
    split at h
    · contradiction
    · obtain rfl := Option.some.inj h
      exact .unset htaking
    · obtain rfl := Option.some.inj h
      exact .awaits _ htaking
  case h_10 place hwaiting =>
    split at h
    · rename_i hready
      obtain rfl := Option.some.inj h
      exact .returned place hwaiting hready
    · contradiction

/-- Every transaction that was prepared was taken off the queue, or is in the
batch being handed over, or is queued, in this order; each lock is held by the
thread that is where it is held; and the queue lock is held between two steps
only over an empty queue. -/
structure Inv (actions : List (Action T O τ)) (s : State T O τ) : Prop where
  ordered : s.past.map Prod.fst ++ s.inflight ++ s.queue = prepared actions
  submits : Owned s.submitLock fun t => (s.point t).holdsSubmit
  queues : Owned s.queueLock fun t => (s.point t).holdsQueue
  empty : s.queueLock ≠ none → s.queue = []
  count : s.count = (prepared actions).length

variable {breaks : Bool} {s s' : State T O τ} {t : T} {f : Frame O τ}
  {actions : List (Action T O τ)}

theorem point_set (u : T) : (s.set t f).point u = if u = t then f.point else s.point u := by
  unfold State.point State.set
  by_cases hu : u = t
  · simp [hu]
  · simp [hu]

theorem holds_set (g : Point τ → Bool) :
    (fun u => g ((s.set t f).point u)) = Function.update (fun u => g (s.point u)) t (g f.point) := by
  funext u
  rw [point_set]
  by_cases hu : u = t
  · simp [hu]
  · simp [hu]

@[simp] theorem left_holdsSubmit (f : Frame O τ) : f.left.point.holdsSubmit = false := by
  unfold Frame.left
  cases f.syncing <;> rfl

@[simp] theorem left_holdsQueue (f : Frame O τ) : f.left.point.holdsQueue = false := by
  unfold Frame.left
  cases f.syncing <;> rfl

omit [DecidableEq T] in
theorem inflight_self (h : s.submitLock = some t) : s.inflight = (s.point t).batch := by
  rw [State.inflight, h]

theorem inflight_set_self (h : s.submitLock = some t) : (s.set t f).inflight = f.point.batch := by
  have hlock : (s.set t f).submitLock = some t := h
  rw [inflight_self hlock, point_set, if_pos rfl]

theorem inflight_set_other (h : s.submitLock ≠ some t) : (s.set t f).inflight = s.inflight := by
  have hlock : (s.set t f).submitLock = s.submitLock := rfl
  unfold State.inflight
  rw [hlock]
  cases hu : s.submitLock with
  | none => rfl
  | some u =>
    have hne : u ≠ t := fun heq => h (by rw [hu, heq])
    simp only [point_set, hne, if_false]

/-- A thread that is not where the submit lock is held changes no batch. -/
theorem Inv.inflight_idle (h : Inv actions s) (ht : (s.point t).holdsSubmit = false) :
    (s.set t f).inflight = s.inflight := by
  refine inflight_set_other fun hlock => ?_
  have hholds : (s.point t).holdsSubmit = true := (h.submits t).mp hlock
  rw [ht] at hholds
  contradiction

omit [DecidableEq T] in
theorem Inv.lock_of (h : Inv actions s) (ht : (s.point t).holdsSubmit = true) :
    s.submitLock = some t := (h.submits t).mpr ht

theorem ordered_moves (h : Inv actions s) (hm : Moves breaks s t s') :
    s'.past.map Prod.fst ++ s'.inflight ++ s'.queue =
      s.past.map Prod.fst ++ s.inflight ++ s.queue := by
  cases hm with
  | took hpoint hfree =>
    have hbefore : s.inflight = [] := by rw [State.inflight, hfree]
    have hafter : (State.move { s with submitLock := some t } t .looking).inflight = [] :=
      inflight_set_self rfl
    rw [hbefore, hafter]
    rfl
  | gaveUp u hpoint hheld =>
    have hidle : (s.leave t).inflight = s.inflight := h.inflight_idle (by rw [hpoint]; rfl)
    rw [hidle]
    rfl
  | saw hpoint hfree hempty =>
    have hlock := h.lock_of (t := t) (by rw [hpoint]; rfl)
    have hbefore : s.inflight = [] := by rw [inflight_self hlock, hpoint]; rfl
    have hafter : (State.move { s with queueLock := some t } t .found).inflight = [] :=
      inflight_set_self hlock
    rw [hbefore, hafter]
    rfl
  | swapped hpoint =>
    have hlock := h.lock_of (t := t) (by rw [hpoint]; rfl)
    have hbefore : s.inflight = [] := by rw [inflight_self hlock, hpoint]; rfl
    have hafter : (State.move { s with queue := [] } t (.handing s.queue)).inflight = s.queue :=
      inflight_set_self hlock
    rw [hbefore, hafter, List.append_nil]
    exact List.append_nil _
  | drained hpoint =>
    have hlock := h.lock_of (t := t) (by rw [hpoint]; rfl)
    have hbefore : s.inflight = [] := by rw [inflight_self hlock, hpoint]; rfl
    have hafter : (s.move t .looking).inflight = [] := inflight_set_self hlock
    rw [hbefore, hafter]
    rfl
  | handed tx rest hpoint =>
    have hlock := h.lock_of (t := t) (by rw [hpoint]; rfl)
    have hbefore : s.inflight = tx :: rest := by rw [inflight_self hlock, hpoint]; rfl
    have hafter : (State.move { s with past := s.past ++ [(tx, Outcome.taken)] } t
        (.handing rest)).inflight = rest := inflight_set_self hlock
    rw [hbefore, hafter]
    change (s.past ++ [(tx, Outcome.taken)]).map Prod.fst ++ rest ++ s.queue = _
    simp
  | unlocked hpoint =>
    have hlock := h.lock_of (t := t) (by rw [hpoint]; rfl)
    have hbefore : s.inflight = [] := by rw [inflight_self hlock, hpoint]; rfl
    rw [hbefore]
    rfl
  | left hpoint =>
    have hidle : (State.leave { s with queueLock := none } t).inflight = s.inflight :=
      inflight_set_other (s := { s with queueLock := none }) fun hlock => by
        have hholds : (s.point t).holdsSubmit = true := (h.submits t).mp hlock
        rw [hpoint] at hholds
        contradiction
    rw [hidle]
    rfl
  | unwound place hpoint =>
    have hlock := h.lock_of (t := t) (by rw [hpoint]; rfl)
    have hbefore : s.inflight = [] := by rw [inflight_self hlock, hpoint]; rfl
    rw [hbefore]
    rfl
  | unset hpoint =>
    have hidle : (s.stop t).inflight = s.inflight := h.inflight_idle (by rw [hpoint]; rfl)
    rw [hidle]
    rfl
  | awaits place hpoint =>
    have hidle : (s.move t (.waiting place)).inflight = s.inflight :=
      h.inflight_idle (by rw [hpoint]; rfl)
    rw [hidle]
    rfl
  | returned place hpoint hready =>
    have hidle : (s.stop t).inflight = s.inflight := h.inflight_idle (by rw [hpoint]; rfl)
    change s.past.map Prod.fst ++ (s.stop t).inflight ++ s.queue = _
    rw [hidle]

theorem submits_moves (h : Inv actions s) (hm : Moves breaks s t s') :
    Owned s'.submitLock fun u => (s'.point u).holdsSubmit := by
  have hkeep : ∀ f : Frame O τ, f.point.holdsSubmit = (s.point t).holdsSubmit →
      Owned s.submitLock fun u => ((s.set t f).point u).holdsSubmit := by
    intro f hf
    rw [holds_set Point.holdsSubmit]
    exact h.submits.keep hf
  have hrelease : ∀ f : Frame O τ, (s.point t).holdsSubmit = true → f.point.holdsSubmit = false →
      Owned none fun u => ((s.set t f).point u).holdsSubmit := by
    intro f ht hf
    have howned := h.submits
    rw [h.lock_of ht] at howned
    rw [holds_set Point.holdsSubmit, hf]
    exact howned.release
  cases hm with
  | took hpoint hfree =>
    have howned := h.submits
    rw [hfree] at howned
    change Owned (some t) fun u => ((s.move t .looking).point u).holdsSubmit
    unfold State.move
    rw [holds_set Point.holdsSubmit]
    exact howned.acquire t
  | gaveUp u hpoint hheld => exact hkeep _ (by rw [hpoint, left_holdsSubmit]; rfl)
  | saw hpoint hfree hempty => exact hkeep ⟨.found, _⟩ (by rw [hpoint]; rfl)
  | swapped hpoint => exact hkeep ⟨.handing s.queue, _⟩ (by rw [hpoint]; rfl)
  | drained hpoint => exact hkeep _ (by rw [hpoint]; rfl)
  | handed tx rest hpoint => exact hkeep ⟨.handing rest, _⟩ (by rw [hpoint]; rfl)
  | unlocked hpoint => exact hrelease ⟨.unlocked, _⟩ (by rw [hpoint]; rfl) rfl
  | left hpoint => exact hkeep _ (by rw [hpoint, left_holdsSubmit]; rfl)
  | unwound place hpoint => exact hrelease ⟨.outside, none⟩ (by rw [hpoint]; rfl) rfl
  | unset hpoint => exact hkeep _ (by rw [hpoint]; rfl)
  | awaits place hpoint => exact hkeep _ (by rw [hpoint]; rfl)
  | returned place hpoint hready => exact hkeep ⟨.outside, none⟩ (by rw [hpoint]; rfl)

theorem queues_moves (h : Inv actions s) (hm : Moves breaks s t s') :
    Owned s'.queueLock fun u => (s'.point u).holdsQueue := by
  have hkeep : ∀ f : Frame O τ, f.point.holdsQueue = (s.point t).holdsQueue →
      Owned s.queueLock fun u => ((s.set t f).point u).holdsQueue := by
    intro f hf
    rw [holds_set Point.holdsQueue]
    exact h.queues.keep hf
  cases hm with
  | took hpoint hfree => exact hkeep ⟨.looking, _⟩ (by rw [hpoint]; rfl)
  | gaveUp u hpoint hheld => exact hkeep _ (by rw [hpoint, left_holdsQueue]; rfl)
  | saw hpoint hfree hempty =>
    have howned := h.queues
    rw [hfree] at howned
    change Owned (some t) fun u => ((s.move t .found).point u).holdsQueue
    unfold State.move
    rw [holds_set Point.holdsQueue]
    exact howned.acquire t
  | swapped hpoint => exact hkeep ⟨.handing s.queue, _⟩ (by rw [hpoint]; rfl)
  | drained hpoint => exact hkeep _ (by rw [hpoint]; rfl)
  | handed tx rest hpoint => exact hkeep ⟨.handing rest, _⟩ (by rw [hpoint]; rfl)
  | unlocked hpoint => exact hkeep ⟨.unlocked, _⟩ (by rw [hpoint]; rfl)
  | left hpoint =>
    have hholds : (s.point t).holdsQueue = true := by rw [hpoint]; rfl
    have hlock : s.queueLock = some t := (h.queues t).mpr hholds
    have howned := h.queues
    rw [hlock] at howned
    change Owned none fun u => ((s.leave t).point u).holdsQueue
    unfold State.leave
    rw [holds_set Point.holdsQueue, left_holdsQueue]
    exact howned.release
  | unwound place hpoint => exact hkeep ⟨.outside, none⟩ (by rw [hpoint]; rfl)
  | unset hpoint => exact hkeep _ (by rw [hpoint]; rfl)
  | awaits place hpoint => exact hkeep _ (by rw [hpoint]; rfl)
  | returned place hpoint hready => exact hkeep ⟨.outside, none⟩ (by rw [hpoint]; rfl)

theorem empty_moves (h : Inv actions s) (hm : Moves breaks s t s') :
    s'.queueLock ≠ none → s'.queue = [] := by
  cases hm with
  | saw hpoint hfree hempty => exact fun _ => hempty
  | swapped hpoint => exact fun _ => rfl
  | left hpoint => exact fun hlock => absurd rfl hlock
  | _ => exact h.empty

theorem inv_go (h : Inv actions s) (hm : Moves breaks s t s') : Inv (actions ++ [.go t]) s' := by
  have hsame : prepared (actions ++ [Action.go t]) = prepared actions := by simp [prepared]
  refine ⟨?_, submits_moves h hm, queues_moves h hm, empty_moves h hm, ?_⟩
  · rw [hsame, ordered_moves h hm, h.ordered]
  · rw [hsame, ← h.count]
    cases hm <;> rfl

theorem inv_call {o : Option O} {a : Action T O τ} (h : Inv actions s)
    (ha : prepared (actions ++ [a]) = prepared actions) (hcall : s.call t o = some s') :
    Inv (actions ++ [a]) s' := by
  unfold State.call at hcall
  split at hcall
  · rename_i hpoint
    obtain rfl := Option.some.inj hcall
    refine ⟨?_, ?_, ?_, h.empty, by rw [ha]; exact h.count⟩
    · rw [ha, h.inflight_idle (by rw [hpoint]; rfl)]
      exact h.ordered
    · rw [holds_set Point.holdsSubmit]
      exact h.submits.keep (by rw [hpoint]; rfl)
    · rw [holds_set Point.holdsQueue]
      exact h.queues.keep (by rw [hpoint]; rfl)
  · contradiction

theorem inv_fail (h : Inv actions s) (hfail : s.fail t = some s') :
    Inv (actions ++ [.fail t]) s' := by
  have hsame : prepared (actions ++ [Action.fail t]) = prepared actions := by simp [prepared]
  unfold State.fail at hfail
  split at hfail
  · rename_i tx rest hpoint
    obtain rfl := Option.some.inj hfail
    have hlock := h.lock_of (t := t) (by rw [hpoint]; rfl)
    have hbefore : s.inflight = tx :: rest := by rw [inflight_self hlock, hpoint]; rfl
    refine ⟨?_, ?_, ?_, h.empty, by rw [hsame]; exact h.count⟩
    · rw [hsame, ← h.ordered, hbefore]
      unfold State.move
      rw [inflight_set_self (by exact hlock)]
      change (s.past ++ (tx, Outcome.refused) :: rest.map fun tx => (tx, Outcome.destroyed)).map
        Prod.fst ++ [] ++ s.queue = _
      simp [Function.comp_def]
    · unfold State.move
      rw [holds_set Point.holdsSubmit]
      exact h.submits.keep (by rw [hpoint]; rfl)
    · unfold State.move
      rw [holds_set Point.holdsQueue]
      exact h.queues.keep (by rw [hpoint]; rfl)
  · contradiction

theorem inv_step [DecidableEq O] {a : Action T O τ} (h : Inv actions s)
    (hstep : s.step breaks a = some s') : Inv (actions ++ [a]) s' := by
  cases a with
  | prepare u tx o =>
    unfold State.step at hstep
    dsimp only at hstep
    split at hstep
    · rename_i hpoint hfree
      obtain rfl := Option.some.inj hstep
      have hmore : prepared (actions ++ [Action.prepare u tx o]) = prepared actions ++ [tx] := by
        simp [prepared]
      refine ⟨?_, h.submits, h.queues, fun hlock => absurd hfree hlock, ?_⟩
      · rw [hmore, ← h.ordered]
        exact (List.append_assoc _ _ _).symm
      · rw [hmore, List.length_append, ← h.count]
        rfl
    · contradiction
  | submit u => exact inv_call h (by simp [prepared]) hstep
  | sync u o => exact inv_call h (by simp [prepared]) hstep
  | go u => exact inv_go h (go_moves hstep)
  | fail u => exact inv_fail h hstep
  | commit place =>
    have hsame : prepared (actions ++ [Action.commit place]) = prepared actions := by simp [prepared]
    unfold State.step at hstep
    dsimp only at hstep
    split at hstep
    · obtain rfl := Option.some.inj hstep
      exact ⟨by rw [hsame]; exact h.ordered, h.submits, h.queues, h.empty, by rw [hsame]; exact h.count⟩
    · contradiction

omit [DecidableEq T] in
theorem inv_start : Inv ([] : List (Action T O τ)) start where
  ordered := rfl
  submits := fun t => by simp [start, State.point, Point.holdsSubmit]
  queues := fun t => by simp [start, State.point, Point.holdsQueue]
  empty := fun _ => rfl
  count := rfl

theorem inv_run [DecidableEq O] (h : State.run breaks start actions = some s) : Inv actions s := by
  induction actions using List.reverseRecOn generalizing s with
  | nil =>
    obtain rfl := Option.some.inj h
    exact inv_start
  | append_singleton actions a ih =>
    obtain ⟨before, hbefore, hstep⟩ := run_concat_some h
    exact inv_step (ih hbefore) hstep

/-! Nobody is left with a transaction that no thread will look for. -/

def Action.submits (t : T) : Action T O τ → Prop
  | .submit u | .sync u _ => u = t
  | _ => False

/-- The thread has prepared something and not called `submit` or `sync` since. -/
def Owes (actions : List (Action T O τ)) (t : T) : Prop :=
  ∃ before tx o after, actions = before ++ .prepare t tx o :: after ∧
    ∀ a ∈ after, ¬ a.submits t

omit [DecidableEq T] in
theorem owes_prepare (actions : List (Action T O τ)) (t : T) (tx : τ) (o : Option O) :
    Owes (actions ++ [.prepare t tx o]) t :=
  ⟨actions, tx, o, [], rfl, fun a ha => by contradiction⟩

omit [DecidableEq T] in
theorem owes_later {a : Action T O τ} (h : Owes actions t) (ha : ¬ a.submits t) :
    Owes (actions ++ [a]) t := by
  obtain ⟨before, tx, o, after, rfl, hafter⟩ := h
  refine ⟨before, tx, o, after ++ [a], by simp, fun b hb => ?_⟩
  rcases List.mem_append.mp hb with hb | hb
  · exact hafter b hb
  · rw [List.mem_singleton.mp hb]
    exact ha

/-- While nothing has failed: what is queued is queued by a thread that has yet
to call `submit`, or some thread in `submit` will look at the queue again. -/
structure Awake (actions : List (Action T O τ)) (s : State T O τ) : Prop where
  taken : ∀ entry ∈ s.past, entry.2 = .taken
  calm : ∀ t place, s.point t ≠ .unwinding place
  awake : s.queue ≠ [] → (∃ t, Owes actions t) ∨ ∃ t, (s.point t).serves = true

omit [DecidableEq T] in
/-- A thread that gives up leaves the queue to the holder of the lock: either
that thread will look again, or it has the queue lock and the queue is empty. -/
theorem holder_serves {u : T} (h : Inv actions s) (hs : Awake actions s)
    (hlock : s.submitLock = some u) (hqueue : s.queue ≠ []) : (s.point u).serves = true := by
  have hholds : (s.point u).holdsSubmit = true := (h.submits u).mp hlock
  cases hpoint : s.point u with
  | looking => rfl
  | handing batch => rfl
  | found =>
    have hheld : s.queueLock = some u := (h.queues u).mpr (by simp only [hpoint]; rfl)
    exact absurd (h.empty (by simp [hheld])) hqueue
  | unwinding place => exact absurd hpoint (hs.calm u place)
  | _ =>
    rw [hpoint] at hholds
    contradiction

@[simp] theorem left_serves (f : Frame O τ) : f.left.point.serves = false := by
  unfold Frame.left
  cases f.syncing <;> rfl

theorem left_calm (f : Frame O τ) (place : ℕ) : f.left.point ≠ .unwinding place := by
  unfold Frame.left
  cases f.syncing <;> simp

/-- Whoever was to look at the queue still is, where the step's own thread is
still to or did not have to. -/
theorem awake_set {a : Action T O τ} (hs : Awake actions s) (ha : ∀ u, ¬ a.submits u)
    (hserves : (s.point t).serves = true → f.point.serves = true) (hqueue : s.queue ≠ []) :
    (∃ u, Owes (actions ++ [a]) u) ∨ ∃ u, ((s.set t f).point u).serves = true := by
  rcases hs.awake hqueue with ⟨u, hu⟩ | ⟨u, hu⟩
  · exact Or.inl ⟨u, owes_later hu (ha u)⟩
  · refine Or.inr ⟨u, ?_⟩
    rw [point_set]
    split
    · rename_i heq
      exact hserves (heq ▸ hu)
    · exact hu

theorem calm_set (hs : Awake actions s) (hf : ∀ place, f.point ≠ .unwinding place) (u : T)
    (place : ℕ) : (s.set t f).point u ≠ .unwinding place := by
  rw [point_set]
  split
  · exact hf place
  · exact hs.calm u place

theorem awake_go (h : Inv actions s) (hs : Awake actions s) (hm : Moves breaks s t s') :
    Awake (actions ++ [.go t]) s' := by
  have hgo : ∀ u, ¬ (Action.go t : Action T O τ).submits u := fun u hu => hu
  -- a step that keeps what is past and the queue, by a thread that goes on serving
  have hkeep : ∀ f : Frame O τ, (∀ place, f.point ≠ .unwinding place) →
      ((s.point t).serves = true → f.point.serves = true) →
      (∀ u place, (s.set t f).point u ≠ .unwinding place) ∧ (s.queue ≠ [] →
        (∃ u, Owes (actions ++ [.go t]) u) ∨ ∃ u, ((s.set t f).point u).serves = true) :=
    fun f hcalm hserves => ⟨calm_set hs hcalm, awake_set hs hgo hserves⟩
  cases hm with
  | took hpoint hfree =>
    obtain ⟨hcalm, hawake⟩ := hkeep ⟨.looking, (s.frames t).syncing⟩ (by simp) fun _ => rfl
    exact ⟨hs.taken, hcalm, hawake⟩
  | gaveUp u hpoint hheld =>
    refine ⟨hs.taken, calm_set hs (left_calm _), fun hqueue => Or.inr ⟨u, ?_⟩⟩
    have hne : u ≠ t := by
      intro heq
      have hholds : (s.point u).holdsSubmit = true := (h.submits u).mp hheld
      rw [heq, hpoint] at hholds
      contradiction
    rw [State.leave, point_set, if_neg hne]
    exact holder_serves h hs hheld hqueue
  | saw hpoint hfree hempty =>
    have hcalm := calm_set (t := t) (f := ⟨.found, (s.frames t).syncing⟩) hs (by simp)
    exact ⟨hs.taken, hcalm, fun hqueue => absurd hempty hqueue⟩
  | swapped hpoint =>
    have hcalm := calm_set (t := t) (f := ⟨.handing s.queue, (s.frames t).syncing⟩) hs (by simp)
    exact ⟨hs.taken, hcalm, fun hqueue => absurd rfl hqueue⟩
  | drained hpoint =>
    obtain ⟨hcalm, hawake⟩ := hkeep ⟨.looking, (s.frames t).syncing⟩ (by simp) fun _ => rfl
    exact ⟨hs.taken, hcalm, hawake⟩
  | handed tx rest hpoint =>
    obtain ⟨hcalm, hawake⟩ := hkeep ⟨.handing rest, (s.frames t).syncing⟩ (by simp) fun _ => rfl
    refine ⟨fun entry hentry => ?_, hcalm, hawake⟩
    rcases List.mem_append.mp hentry with hentry | hentry
    · exact hs.taken entry hentry
    · rw [List.mem_singleton.mp hentry]
  | unwound place hpoint => exact absurd hpoint (hs.calm t place)
  | unlocked hpoint =>
    obtain ⟨hcalm, hawake⟩ := hkeep ⟨.unlocked, (s.frames t).syncing⟩ (by simp)
      (by rw [hpoint]; exact fun h => h)
    exact ⟨hs.taken, hcalm, hawake⟩
  | left hpoint =>
    obtain ⟨hcalm, hawake⟩ := hkeep (s.frames t).left (left_calm _) (by rw [hpoint]; simp [Point.serves])
    exact ⟨hs.taken, hcalm, hawake⟩
  | unset hpoint =>
    obtain ⟨hcalm, hawake⟩ := hkeep ⟨.outside, none⟩ (by simp) (by rw [hpoint]; exact fun h => h)
    exact ⟨hs.taken, hcalm, hawake⟩
  | awaits place hpoint =>
    obtain ⟨hcalm, hawake⟩ := hkeep ⟨.waiting place, (s.frames t).syncing⟩ (by simp)
      (by rw [hpoint]; exact fun h => h)
    exact ⟨hs.taken, hcalm, hawake⟩
  | returned place hpoint hready =>
    obtain ⟨hcalm, hawake⟩ := hkeep ⟨.outside, none⟩ (by simp) (by rw [hpoint]; exact fun h => h)
    exact ⟨hs.taken, hcalm, hawake⟩

/-- A thread that calls `submit` or `sync` will look at the queue itself. -/
theorem awake_call {o : Option O} {a : Action T O τ} (hs : Awake actions s)
    (hcall : s.call t o = some s') :
    Awake (actions ++ [a]) s' := by
  unfold State.call at hcall
  split at hcall
  · obtain rfl := Option.some.inj hcall
    have hself : ((s.set t ⟨.trying, o⟩).point t).serves = true := by
      rw [point_set, if_pos rfl]
      rfl
    exact ⟨hs.taken, calm_set hs (by simp), fun _ => Or.inr ⟨t, hself⟩⟩
  · contradiction

theorem awake_step [DecidableEq O] {a : Action T O τ} (h : Inv actions s) (hs : Awake actions s)
    (ha : ∀ t, a ≠ .fail t) (hstep : s.step breaks a = some s') : Awake (actions ++ [a]) s' := by
  cases a with
  | prepare u tx o =>
    unfold State.step at hstep
    dsimp only at hstep
    split at hstep
    · obtain rfl := Option.some.inj hstep
      exact ⟨hs.taken, hs.calm, fun _ => Or.inl ⟨u, owes_prepare actions u tx o⟩⟩
    · contradiction
  | submit u => exact awake_call hs hstep
  | sync u o => exact awake_call hs hstep
  | go u => exact awake_go h hs (go_moves hstep)
  | fail u => exact absurd rfl (ha u)
  | commit place =>
    unfold State.step at hstep
    dsimp only at hstep
    split at hstep
    · obtain rfl := Option.some.inj hstep
      refine ⟨hs.taken, hs.calm, fun hqueue => (hs.awake hqueue).imp_left ?_⟩
      rintro ⟨u, hu⟩
      exact ⟨u, owes_later hu fun h => h⟩
    · contradiction

theorem awake_run [DecidableEq O] (h : State.run breaks start actions = some s)
    (hok : ∀ t, .fail t ∉ actions) : Awake actions s := by
  induction actions using List.reverseRecOn generalizing s with
  | nil =>
    obtain rfl := Option.some.inj h
    exact ⟨fun entry hentry => by contradiction, fun t place => by simp [start, State.point],
      fun hqueue => absurd rfl hqueue⟩
  | append_singleton actions a ih =>
    obtain ⟨before, hbefore, hstep⟩ := run_concat_some h
    have hearlier : ∀ t, .fail t ∉ actions := fun t ht => hok t (List.mem_append_left _ ht)
    refine awake_step (inv_run hbefore) (ih hbefore hearlier) (fun t ht => ?_) hstep
    exact hok t (by simp [ht])

/-- Every thread that completed a `prepare` has called `submit` since. -/
def Submitted (actions : List (Action T O τ)) : Prop :=
  ∀ before t tx o after, actions = before ++ .prepare t tx o :: after → ∃ a ∈ after, a.submits t

omit [DecidableEq T] in
theorem submitted_cons (a : Action T O τ) (rest : List (Action T O τ)) :
    Submitted (a :: rest) ↔
      (∀ t tx o, a = .prepare t tx o → ∃ b ∈ rest, b.submits t) ∧ Submitted rest := by
  constructor
  · intro h
    refine ⟨fun t tx o ha => h [] t tx o rest (by rw [ha]; rfl), ?_⟩
    intro before t tx o after heq
    exact h (a :: before) t tx o after (by rw [heq]; rfl)
  · rintro ⟨hhead, htail⟩ before t tx o after heq
    cases before with
    | nil =>
      obtain ⟨ha, hrest⟩ := List.cons.inj heq
      rw [← hrest]
      exact hhead t tx o ha
    | cons b before => exact htail before t tx o after (List.cons.inj heq).2

/-- While the store takes what it is handed, it is handed the prepared
transactions in order, each once, and none stays behind once every thread that
prepared has submitted. -/
theorem none_stranded [DecidableEq O] (breaks : Bool) {actions : List (Action T O τ)}
    {s : State T O τ} (h : State.run breaks start actions = some s)
    (hok : ∀ t, .fail t ∉ actions) :
    s.handed ++ s.inflight ++ s.queue = prepared actions ∧
      ((∀ t, (s.point t).inSubmit = false) → Submitted actions →
        s.queue = [] ∧ s.handed = prepared actions) := by
  have hinv := inv_run h
  have hawake := awake_run h hok
  have hhanded : s.handed = s.past.map Prod.fst := by
    unfold State.handed
    rw [List.filter_eq_self.mpr fun entry hentry => decide_eq_true (hawake.taken entry hentry)]
  have hordered := hinv.ordered
  rw [← hhanded] at hordered
  refine ⟨hordered, fun hout hsubmitted => ?_⟩
  have hqueue : s.queue = [] := by
    by_contra hne
    rcases hawake.awake hne with ⟨t, before, tx, o, after, heq, hafter⟩ | ⟨t, ht⟩
    · obtain ⟨a, ha, hsubmits⟩ := hsubmitted before t tx o after heq
      exact hafter a ha hsubmits
    · have hin := hout t
      cases hpoint : s.point t <;> simp_all [Point.serves, Point.inSubmit]
  have hinflight : s.inflight = [] := by
    cases hlock : s.submitLock with
    | none => rw [State.inflight, hlock]
    | some t =>
      have hin := hout t
      have hholds : (s.point t).holdsSubmit = true := (hinv.submits t).mp hlock
      cases hpoint : s.point t <;> simp_all [Point.holdsSubmit, Point.inSubmit]
  refine ⟨hqueue, ?_⟩
  rw [← hordered, hqueue, hinflight, List.append_nil, List.append_nil]

end Invariant

/-- The second thread's `submit` meets the lock taken and returns; the first
thread, which is handing its own batch over, looks at the queue once more. -/
def taken : List (Action Bool Unit ℕ) :=
  [.prepare false 10 none, .submit false, .go false, .go false,
    .prepare true 20 none, .submit true, .go true,
    .go false, .go false, .go false, .go false, .go false, .go false, .go false, .go false]

theorem none_stranded_taken :
    ∃ s, State.run false start taken = some s ∧ s.queue = [] ∧ s.handed = [10, 20] := by
  have hrun : ∃ s, State.run false start taken = some s ∧ ∀ t, (s.point t).inSubmit = false :=
    ⟨_, rfl, by decide⟩
  obtain ⟨s, hs, hout⟩ := hrun
  have hsubmitted : Submitted taken := by
    unfold taken
    simp only [submitted_cons]
    simp [Action.submits, Submitted]
  exact ⟨s, hs, (none_stranded false hs (by simp [taken])).2 hout hsubmitted⟩

end Swiftacular.SubmitLock
