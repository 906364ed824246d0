import Swiftacular.SubmitLock

/-!
What a failed hand-over leaves behind. The queue was swapped into a batch of
the submit's own, and the exception takes what is left of it along, so nothing
is lost exactly when nothing was left.
-/
namespace Swiftacular.FailedHandOver

open SubmitLock
open StepRuns (run_concat run_concat_some)

variable {T O τ : Type} [DecidableEq T]

/-- What is to hold in each state of a run. `queued`: while a submit throws,
what was prepared after the failing transaction is queued in its order.
`durable`: a `sync` that returned had waited for a transaction that committed,
or for one that was itself refused. `handed`: once a submit has found the queue
empty, the store took each transaction prepared so far, or refused it, so it
will commit whatever a `sync` still waits for. -/
structure Keeps (actions : List (Action T O τ)) (s : State T O τ) : Prop where
  queued : ∀ t place, s.point t = .unwinding place →
    s.queue = (prepared actions).drop (place + 1)
  durable : ∀ place ∈ s.returned, place ∈ s.committed ∨
    (s.past[place]?).any fun entry => entry.2 = Outcome.refused
  handed : ∀ t, s.point t = .found → ∀ place < (prepared actions).length,
    (s.past[place]?).any fun entry => entry.2 ≠ Outcome.destroyed

/-- While only the last transactions of batches were refused. -/
structure Spared (s : State T O τ) : Prop where
  whole : ∀ entry ∈ s.past, entry.2 ≠ .destroyed
  last : ∀ t place, s.point t = .unwinding place → s.past.length = place + 1
  waited : ∀ place ∈ s.returned, place ∈ s.committed ∨
    (s.past[place]?).any fun entry => entry.2 ≠ Outcome.taken

variable {breaks : Bool} {s s' : State T O τ} {t : T} {actions : List (Action T O τ)}

theorem any_append {α : Type} {p : α → Bool} {l : List α} {i : ℕ} (m : List α)
    (h : (l[i]?).any p = true) : ((l ++ m)[i]?).any p = true := by
  have hlt : i < l.length := by
    by_contra hnot
    rw [List.getElem?_eq_none (by omega)] at h
    contradiction
  rw [List.getElem?_append_left hlt]
  exact h

theorem spared_go (h : Inv actions s) (hs : Spared s) (hm : Moves breaks s t s') : Spared s' := by
  -- no step of this kind begins to unwind
  have hlast : ∀ f : Frame O τ, (∀ place, f.point ≠ .unwinding place) →
      ∀ u place, (s.set t f).point u = .unwinding place → s.past.length = place + 1 := by
    intro f hf u place hu
    rw [point_set] at hu
    split at hu
    · exact absurd hu (hf place)
    · exact hs.last u place hu
  cases hm with
  | took hpoint hfree => exact ⟨hs.whole, hlast ⟨.looking, _⟩ (by simp), hs.waited⟩
  | gaveUp u hpoint hheld => exact ⟨hs.whole, hlast _ (left_calm _), hs.waited⟩
  | saw hpoint hfree hempty => exact ⟨hs.whole, hlast ⟨.found, _⟩ (by simp), hs.waited⟩
  | swapped hpoint => exact ⟨hs.whole, hlast ⟨.handing s.queue, _⟩ (by simp), hs.waited⟩
  | drained hpoint => exact ⟨hs.whole, hlast ⟨.looking, _⟩ (by simp), hs.waited⟩
  | handed tx rest hpoint =>
    refine ⟨fun entry hentry => ?_, fun u place hu => ?_, fun place hplace => ?_⟩
    · rcases List.mem_append.mp hentry with hentry | hentry
      · exact hs.whole entry hentry
      · rw [List.mem_singleton.mp hentry]
        simp
    · -- two threads would hold the submit lock
      have hother : (s.move t (.handing rest)).point u = .unwinding place := hu
      unfold State.move at hother
      rw [point_set] at hother
      split at hother
      · contradiction
      · rename_i hne
        have hlock := h.lock_of (t := t) (by rw [hpoint]; rfl)
        have hlock' := h.lock_of (t := u) (by rw [hother]; rfl)
        rw [hlock] at hlock'
        exact absurd (Option.some.inj hlock').symm hne
    · exact (hs.waited place hplace).imp_right (any_append _)
  | unlocked hpoint => exact ⟨hs.whole, hlast ⟨.unlocked, _⟩ (by simp), hs.waited⟩
  | left hpoint => exact ⟨hs.whole, hlast _ (left_calm _), hs.waited⟩
  | unwound place hpoint => exact ⟨hs.whole, hlast ⟨.outside, none⟩ (by simp), hs.waited⟩
  | unset hpoint => exact ⟨hs.whole, hlast _ (by simp), hs.waited⟩
  | awaits place hpoint => exact ⟨hs.whole, hlast _ (by simp), hs.waited⟩
  | returned place hpoint hready =>
    refine ⟨hs.whole, hlast ⟨.outside, none⟩ (by simp), fun other hother => ?_⟩
    rcases List.mem_cons.mp hother with rfl | hother
    · unfold State.ready at hready
      rw [Bool.or_eq_true, Bool.and_eq_true] at hready
      rcases hready with hcommitted | ⟨-, hgone⟩
      · exact Or.inl (of_decide_eq_true hcommitted)
      · exact Or.inr hgone
    · exact hs.waited other hother

theorem fail_ok (hfail : s.fail t = some s') :
    ∃ tx rest, s.point t = .handing (tx :: rest) ∧ s'.queue = s.queue ∧
      s'.point t = .unwinding s.past.length := by
  unfold State.fail at hfail
  split at hfail
  · rename_i tx rest hpoint
    obtain rfl := Option.some.inj hfail
    refine ⟨tx, rest, hpoint, rfl, ?_⟩
    unfold State.move
    rw [point_set, if_pos rfl]
  · contradiction

/-- A failure of the last transaction in a batch destroys no other. -/
theorem spared_fail (hs : Spared s) {tx : τ} (h : Inv actions s)
    (hpoint : s.point t = .handing [tx]) (hfail : s.fail t = some s') : Spared s' := by
  unfold State.fail at hfail
  rw [hpoint] at hfail
  obtain rfl := Option.some.inj hfail
  refine ⟨fun entry hentry => ?_, fun u place hu => ?_, fun place hplace =>
    (hs.waited place hplace).imp_right (any_append _)⟩
  · rcases List.mem_append.mp hentry with hentry | hentry
    · exact hs.whole entry hentry
    · rw [List.mem_singleton.mp hentry]
      simp
  · have hother : (s.move t (.unwinding s.past.length)).point u = .unwinding place := hu
    unfold State.move at hother
    rw [point_set] at hother
    split at hother
    · rw [← Point.unwinding.inj hother]
      exact List.length_append
    · rename_i hne
      have hlock := h.lock_of (t := t) (by rw [hpoint]; rfl)
      have hlock' := h.lock_of (t := u) (by rw [hother]; rfl)
      rw [hlock] at hlock'
      exact absurd (Option.some.inj hlock').symm hne

theorem spared_step [DecidableEq O] {a : Action T O τ} (h : Inv actions s) (hs : Spared s)
    (ha : ∀ t, a = .fail t → ∀ tx rest, s.point t = .handing (tx :: rest) → rest = [])
    (hstep : s.step breaks a = some s') : Spared s' := by
  have hcall : ∀ u (o : Option O), s.call u o = some s' → Spared s' := by
    intro u o hcall
    unfold State.call at hcall
    split at hcall
    · obtain rfl := Option.some.inj hcall
      refine ⟨hs.whole, fun v place hv => ?_, hs.waited⟩
      rw [point_set] at hv
      split at hv
      · contradiction
      · exact hs.last v place hv
    · contradiction
  cases a with
  | prepare u tx o =>
    unfold State.step at hstep
    dsimp only at hstep
    split at hstep
    · obtain rfl := Option.some.inj hstep
      exact ⟨hs.whole, hs.last, hs.waited⟩
    · contradiction
  | submit u => exact hcall u none hstep
  | sync u o => exact hcall u (some o) hstep
  | go u => exact spared_go h hs (go_moves hstep)
  | fail u =>
    have hfail : s.fail u = some s' := hstep
    obtain ⟨tx, rest, hpoint, -, -⟩ := fail_ok hfail
    rw [ha u rfl tx rest hpoint] at hpoint
    exact spared_fail hs h hpoint hstep
  | commit place =>
    unfold State.step at hstep
    dsimp only at hstep
    split at hstep
    · obtain rfl := Option.some.inj hstep
      exact ⟨hs.whole, hs.last, fun other hother =>
        (hs.waited other hother).imp_left (List.mem_cons_of_mem _)⟩
    · contradiction

/-- Every failure in a run is of the last transaction of the batch that the
submit had taken off the queue. -/
def LastOfBatch [DecidableEq O] (breaks : Bool) (actions : List (Action T O τ)) : Prop :=
  ∀ before t after, actions = before ++ .fail t :: after →
    ∀ s, State.run breaks start before = some s →
      ∀ tx rest, s.point t = .handing (tx :: rest) → rest = []

/-- What is to hold in each state does, along a run. -/
def KeptAlong [DecidableEq O] (breaks : Bool) (actions : List (Action T O τ)) : Prop :=
  ∀ before after, actions = before ++ after →
    ∀ s, State.run breaks start before = some s → Keeps before s

theorem LastOfBatch.earlier [DecidableEq O] {before after : List (Action T O τ)}
    (h : LastOfBatch breaks (before ++ after)) : LastOfBatch breaks before := by
  intro first t rest heq s hs
  exact h first t (rest ++ after) (by rw [heq]; simp) s hs

theorem spared_run [DecidableEq O] (hlast : LastOfBatch breaks actions)
    (h : State.run breaks start actions = some s) : Spared s := by
  induction actions using List.reverseRecOn generalizing s with
  | nil =>
    obtain rfl := Option.some.inj h
    exact ⟨fun entry hentry => by contradiction, fun t place hpoint => by contradiction,
      fun place hplace => by contradiction⟩
  | append_singleton actions a ih =>
    obtain ⟨before, hbefore, hstep⟩ := run_concat_some h
    refine spared_step (inv_run hbefore) (ih hlast.earlier hbefore) (fun t ha => ?_) hstep
    exact hlast actions t [] (by rw [ha]) before hbefore

omit [DecidableEq T] in
/-- A thread inside `submit` with the lock and no batch: what is past is all
that was prepared but for the queue. -/
theorem past_of_lock (h : Inv actions s) (ht : (s.point t).holdsSubmit = true)
    (hbatch : (s.point t).batch = []) : s.past.map Prod.fst ++ s.queue = prepared actions := by
  have hinflight : s.inflight = [] := by rw [inflight_self (h.lock_of ht), hbatch]
  have hordered := h.ordered
  rwa [hinflight, List.append_nil] at hordered

omit [DecidableEq T] in
theorem keeps_of_spared (h : Inv actions s) (hs : Spared s) : Keeps actions s := by
  refine ⟨fun t place hpoint => ?_, fun place hplace => ?_, fun t hpoint place hplace => ?_⟩
  · have hpast := past_of_lock (t := t) h (by rw [hpoint]; rfl) (by rw [hpoint]; rfl)
    have hlength : (s.past.map Prod.fst).length = place + 1 := by
      rw [List.length_map, hs.last t place hpoint]
    rw [← hpast, ← hlength, List.drop_left]
  · refine (hs.waited place hplace).imp_right fun hgone => ?_
    cases hentry : s.past[place]? with
    | none =>
      rw [hentry] at hgone
      contradiction
    | some entry =>
      have hwhole := hs.whole entry (List.mem_of_getElem? hentry)
      rw [hentry] at hgone
      obtain ⟨tx, outcome⟩ := entry
      cases outcome with
      | refused => rfl
      | taken => contradiction
      | destroyed => contradiction
  · have hpast := past_of_lock (t := t) h (by rw [hpoint]; rfl) (by rw [hpoint]; rfl)
    have hlock : s.queueLock = some t := by
      have hholds : (s.point t).holdsQueue = true := by rw [hpoint]; rfl
      exact (h.queues t).mpr hholds
    rw [h.empty (by rw [hlock]; simp), List.append_nil] at hpast
    have hlt : place < s.past.length := by
      rw [← hpast, List.length_map] at hplace
      exact hplace
    rw [List.getElem?_eq_getElem hlt]
    exact decide_eq_true (hs.whole _ (List.getElem_mem hlt))

/-- The state right after a failure already shows what was lost. -/
theorem rest_of_keeps [DecidableEq O] {tx : τ} {rest : List τ} (h : Inv actions s)
    (hpoint : s.point t = .handing (tx :: rest)) (hfail : s.fail t = some s')
    (hkeeps : Keeps (actions ++ [.fail t]) s') : rest = [] := by
  obtain ⟨-, -, -, hsame, hafter⟩ := fail_ok hfail
  have hqueue := hkeeps.queued t s.past.length hafter
  have hordered : prepared (actions ++ [.fail t]) =
      s.past.map Prod.fst ++ (tx :: rest) ++ s.queue := by
    have hlock := h.lock_of (t := t) (by rw [hpoint]; rfl)
    have hinflight : s.inflight = tx :: rest := by rw [inflight_self hlock, hpoint]; rfl
    rw [← hinflight, h.ordered]
    simp [prepared]
  have hlength := congrArg List.length hqueue
  rw [hordered, hsame] at hlength
  simp only [List.length_drop, List.length_append, List.length_map, List.length_cons] at hlength
  exact List.length_eq_zero_iff.mp (by omega)

/-- A failed hand-over loses nothing else exactly in the runs in which only the
last transaction of a batch ever fails. -/
theorem kept_iff [DecidableEq O] (breaks : Bool) (actions : List (Action T O τ)) :
    KeptAlong breaks actions ↔ LastOfBatch breaks actions := by
  constructor
  · intro hkept before t after heq s hs tx rest hpoint
    have hfail : ∃ s', s.fail t = some s' := by
      unfold State.fail
      rw [hpoint]
      exact ⟨_, rfl⟩
    obtain ⟨s', hfail⟩ := hfail
    have hprefix : State.run breaks start (before ++ [.fail t]) = some s' := by
      exact (run_concat ..).trans (Option.bind_eq_some_iff.mpr ⟨s, hs, hfail⟩)
    have hkeeps := hkept (before ++ [.fail t]) after (by rw [heq, List.append_cons]) s' hprefix
    exact rest_of_keeps (inv_run hs) hpoint hfail hkeeps
  · intro hlast before after heq s hs
    rw [heq] at hlast
    exact keeps_of_spared (inv_run hs) (spared_run hlast.earlier hs)

/-- Two transactions in one batch, and the store refuses the first. -/
def refusedFirst : List (Action Bool Unit ℕ) :=
  [.prepare false 10 none, .prepare false 20 (some ()), .submit false, .go false, .go false,
    .fail false]

theorem second_lost : ¬ KeptAlong false refusedFirst := by
  intro hkept
  have hrun : ∃ s, State.run false start refusedFirst = some s ∧
      s.point false = .unwinding 0 ∧ s.queue = [] := ⟨_, rfl, rfl, rfl⟩
  obtain ⟨s, hs, hpoint, hqueue⟩ := hrun
  have hkeeps := (hkept refusedFirst [] (by simp) s hs).queued false 0 hpoint
  rw [hqueue] at hkeeps
  contradiction

end Swiftacular.FailedHandOver
