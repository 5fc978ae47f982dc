import ServiceInfra.ThreadPool.Pool

/-!
# No task is forgotten

A worker that sleeps while tasks wait has to be woken, and `submit` notifies one worker
only. `Attended` counts: as long as a worker sleeps, the wake-ups under way are enough for
the tasks that wait. The steps of the pool itself lower a measure, so that they come to an
end; before `stopping` that end is an empty queue, behind it the return of the destructor.

Main results:
- `wakeUps_suffice`: no wake-up is lost
- `drains`: left to itself, the pool runs every task that was submitted, once
- `shuts_down`: from `stopping` on no task is started, and the destructor returns
-/

namespace ServiceInfra.ThreadPool

open Library

/-! ## Definitions -/

namespace Worker

variable {T : Type}

/-- The worker was woken and has not looked at the queue since. -/
def wakeUps : Worker T → Nat
  | .woken => 1
  | _ => 0

/-- How many steps the worker can take until it sleeps or returns, the tasks aside. -/
def toGo : Worker T → Nat
  | .running _ => 2
  | .free | .woken => 1
  | .blocked | .left => 0

end Worker

/-- A step of the pool itself: none of its callers, and no spurious wake-up. -/
def PoolAction.isOwn {W T : Type} : PoolAction W T → Bool
  | .look _ | .finish _ _ | .notify _ | .notifyAll | .join => true
  | .submit _ | .wake _ | .stop => false

namespace PoolState

variable {W T : Type} [Fintype W]

/-- As long as a worker sleeps, the wake-ups under way are enough for the tasks that wait. -/
def Attended (s : PoolState W T) : Prop :=
  s.stopping = false → (∃ w, (s.threads w).isBlocked = true) →
    s.tasks.length ≤ s.notifies + total Worker.wakeUps s.threads

/-- What the destructor has before it; its `notify_all` may wake every worker. -/
def destructorToGo (s : PoolState W T) : Nat :=
  match s.destructor with
  | .stopped => Fintype.card W + 2
  | .joining => 1
  | .notStarted | .finished => 0

/-- A bound on the steps the pool can take by itself. -/
def toGo (s : PoolState W T) : Nat :=
  2 * s.tasks.length + 2 * s.notifies + total Worker.toGo s.threads + s.destructorToGo

/-- No step of the pool itself is possible. -/
def Stuck [DecidableEq W] (s : PoolState W T) : Prop := ∀ a, a.isOwn = true → s.step a = none

end PoolState

/-! ## Wake-ups -/

section WakeUps

variable {W T : Type} [DecidableEq W] {s t : PoolState W T}

/-- A worker that goes to a place where it does not sleep leaves the other sleepers. -/
theorem blocked_of_goTo {w : W} {place : Worker T} (hplace : place.isBlocked = false)
    (h : ∃ v, ((s.goTo w place).threads v).isBlocked = true) :
    ∃ v, (s.threads v).isBlocked = true := by
  obtain ⟨v, hv⟩ := h
  by_cases hvw : v = w
  · rw [hvw, s.goTo_self, hplace] at hv
    cases hv
  · rw [s.goTo_of_ne hvw] at hv
    exact ⟨v, hv⟩

variable [Fintype W]

theorem wakeUps_goTo (s : PoolState W T) (w : W) (place : Worker T) :
    total Worker.wakeUps (s.goTo w place).threads + (s.threads w).wakeUps =
      total Worker.wakeUps s.threads + place.wakeUps :=
  total_update _ _ w place

theorem Worker.wakeUps_le (place : Worker T) : place.wakeUps ≤ 1 := by
  cases place <;> simp [Worker.wakeUps]

theorem attended_step (h : s.Attended) {a : PoolAction W T} (heffect : Effect s a t)
    (hphases : Phases s) : t.Attended := by
  intro hstopping hsleeper
  cases heffect with
  | refused => exact h hstopping hsleeper
  | submitted =>
    -- the task comes with a notify of its own
    have hle : s.tasks.length ≤ s.notifies + total Worker.wakeUps s.threads :=
      h hstopping hsleeper
    show (s.tasks ++ [_]).length ≤ (s.notifies + 1) + total Worker.wakeUps s.threads
    rw [List.length_append, List.length_singleton]
    omega
  | unheard _ hnone =>
    obtain ⟨w, hw⟩ := hsleeper
    rw [hnone w] at hw
    cases hw
  | @heard w hpending hw =>
    -- the notify becomes a worker that is awake
    have hle := h hstopping ⟨w, congrArg Worker.isBlocked hw⟩
    have hcount := wakeUps_goTo s w .woken
    rw [hw] at hcount
    simp only [Worker.wakeUps] at hcount
    show s.tasks.length ≤ (s.notifies - 1) + total Worker.wakeUps (s.goTo w .woken).threads
    omega
  | @woke w hw =>
    have hle := h hstopping ⟨w, congrArg Worker.isBlocked hw⟩
    have hcount := wakeUps_goTo s w .woken
    rw [hw] at hcount
    simp only [Worker.wakeUps] at hcount
    show s.tasks.length ≤ s.notifies + total Worker.wakeUps (s.goTo w .woken).threads
    omega
  | left _ hstops =>
    rw [show s.stopping = false from hstopping] at hstops
    cases hstops
  | slept _ _ htasks =>
    -- it sleeps because no task waits
    show s.tasks.length ≤ _
    rw [htasks]
    exact Nat.zero_le _
  | @took w task tasks hw _ htasks =>
    have hle := h hstopping (blocked_of_goTo rfl hsleeper)
    have hcount := wakeUps_goTo s w (.running task)
    have hone := (s.threads w).wakeUps_le
    rw [htasks, List.length_cons] at hle
    simp only [Worker.wakeUps] at hcount hone
    show tasks.length ≤ s.notifies + total Worker.wakeUps (s.goTo w (.running task)).threads
    omega
  | @finished w task _ hw =>
    have hle := h hstopping (blocked_of_goTo rfl hsleeper)
    have hcount := wakeUps_goTo s w .free
    rw [hw] at hcount
    simp only [Worker.wakeUps] at hcount
    show s.tasks.length ≤ s.notifies + total Worker.wakeUps (s.goTo w .free).threads
    omega
  | stopped => cases hstopping
  | notifiedAll hd =>
    have hstart := hphases.destructor_eq hstopping
    cases hstart.symm.trans hd
  | joined hd =>
    have hstart := hphases.destructor_eq hstopping
    cases hstart.symm.trans hd

theorem attended_reachable (h : (threadPool W T).Reachable s) : s.Attended := by
  have hinit : ∀ s, (threadPool W T).init s → Phases s ∧ s.Attended := by
    rintro s rfl
    exact ⟨phases_reachable (.of_init rfl), fun _ _ => Nat.zero_le _⟩
  refine (h.invariant hinit ?_).2
  rintro s a t ⟨hphases, hattended⟩ hstep
  have heffect := effect_of_step hstep
  exact ⟨hphases.step heffect, attended_step hattended heffect hphases⟩

/-- While a worker sleeps, the wake-ups that are under way are enough for the tasks that
wait: each is a notify that a `submit` has still to issue, or a worker that was woken. -/
theorem wakeUps_suffice (h : (threadPool W T).Reachable s) (hstart : s.stopping = false) {w : W}
    (hw : s.threads w = .blocked) :
    s.tasks.length ≤ s.notifies + total Worker.wakeUps s.threads :=
  attended_reachable h hstart ⟨w, congrArg _ hw⟩

theorem wakeUps_suffice_two : ∃ s : PoolState (Fin 2) Nat,
    s.tasks = [7, 8] ∧ s.threads 0 = .blocked ∧
      2 ≤ s.notifies + total Worker.wakeUps s.threads := by
  let as : List (PoolAction (Fin 2) Nat) :=
    [.look 0, .look 1, .submit 7, .submit 8, .notify (some 1)]
  have hrun : (as.foldlM PoolState.step {}).any (fun s =>
      s.stopping = false ∧ s.tasks = [7, 8] ∧ s.threads 0 = .blocked) = true := by
    decide +kernel
  obtain ⟨s, hs, hend⟩ := (Option.any_eq_true _ _).mp hrun
  obtain ⟨hstart, htasks, hblocked⟩ := of_decide_eq_true hend
  have hreachable : (threadPool (Fin 2) Nat).Reachable s :=
    .foldlM (fun _ _ _ h => h) (.of_init rfl) hs
  have hle := wakeUps_suffice hreachable hstart hblocked
  rw [htasks] at hle
  exact ⟨s, htasks, hblocked, hle⟩

end WakeUps

/-! ## The end of a run -/

section Measure

variable {W T : Type} [DecidableEq W] {s t : PoolState W T}

/-- What a step of the pool itself leaves alone. -/
theorem own_step {a : PoolAction W T} (ha : a.isOwn = true) (heffect : Effect s a t) :
    t.submitted = s.submitted ∧ t.stopping = s.stopping := by
  cases heffect with
  | refused | submitted | woke | stopped => cases ha
  | _ => exact ⟨rfl, rfl⟩

/-- Behind `stopping` the queue is not touched any more. -/
theorem stopping_step (hstopping : s.stopping = true) {a : PoolAction W T}
    (heffect : Effect s a t) :
    t.stopping = true ∧ t.started = s.started ∧ t.tasks = s.tasks ∧
      t.submitted = s.submitted := by
  cases heffect with
  | submitted hstart | slept _ hstart | took _ hstart =>
    rw [hstopping] at hstart
    cases hstart
  | stopped => exact ⟨rfl, rfl, rfl, rfl⟩
  | _ => exact ⟨hstopping, rfl, rfl, rfl⟩

variable [Fintype W]

theorem toGo_goTo (s : PoolState W T) (w : W) (place : Worker T) :
    total Worker.toGo (s.goTo w place).threads + (s.threads w).toGo =
      total Worker.toGo s.threads + place.toGo :=
  total_update _ _ w place

theorem Worker.toGo_of_looking {place : Worker T} (h : place.isLooking = true) :
    place.toGo = 1 := by
  cases place <;> first | rfl | cases h

theorem Worker.toGo_notified (place : Worker T) : place.notified.toGo ≤ place.toGo + 1 := by
  cases place <;> simp [Worker.notified, Worker.toGo]

/-- A step of the pool itself lowers what it has before it. -/
theorem toGo_lt {a : PoolAction W T} (ha : a.isOwn = true) (heffect : Effect s a t) :
    t.toGo < s.toGo := by
  cases heffect with
  | refused | submitted | woke | stopped => cases ha
  | unheard hpending =>
    show 2 * s.tasks.length + 2 * (s.notifies - 1) + total Worker.toGo s.threads +
      s.destructorToGo < s.toGo
    rw [PoolState.toGo]
    omega
  | @heard w hpending hw =>
    have hsum := toGo_goTo s w .woken
    rw [hw] at hsum
    simp only [Worker.toGo] at hsum
    show 2 * s.tasks.length + 2 * (s.notifies - 1) + total Worker.toGo (s.goTo w .woken).threads +
      s.destructorToGo < s.toGo
    rw [PoolState.toGo]
    omega
  | @left w hw =>
    have hsum := toGo_goTo s w .left
    rw [Worker.toGo_of_looking hw] at hsum
    simp only [Worker.toGo] at hsum
    show 2 * s.tasks.length + 2 * s.notifies + total Worker.toGo (s.goTo w .left).threads +
      s.destructorToGo < s.toGo
    rw [PoolState.toGo]
    omega
  | @slept w hw =>
    have hsum := toGo_goTo s w .blocked
    rw [Worker.toGo_of_looking hw] at hsum
    simp only [Worker.toGo] at hsum
    show 2 * s.tasks.length + 2 * s.notifies + total Worker.toGo (s.goTo w .blocked).threads +
      s.destructorToGo < s.toGo
    rw [PoolState.toGo]
    omega
  | @took w task tasks hw _ htasks =>
    -- the task costs more in the queue than in the worker
    have hsum := toGo_goTo s w (.running task)
    rw [Worker.toGo_of_looking hw] at hsum
    simp only [Worker.toGo] at hsum
    show 2 * tasks.length + 2 * s.notifies + total Worker.toGo (s.goTo w (.running task)).threads +
      s.destructorToGo < s.toGo
    rw [PoolState.toGo, htasks, List.length_cons]
    omega
  | @finished w task _ hw =>
    have hsum := toGo_goTo s w .free
    rw [hw] at hsum
    simp only [Worker.toGo] at hsum
    show 2 * s.tasks.length + 2 * s.notifies + total Worker.toGo (s.goTo w .free).threads +
      s.destructorToGo < s.toGo
    rw [PoolState.toGo]
    omega
  | notifiedAll hd =>
    have hsum := total_le_add_card fun w => (s.threads w).toGo_notified
    have hbefore : s.destructorToGo = Fintype.card W + 2 := by rw [PoolState.destructorToGo, hd]
    show 2 * s.tasks.length + 2 * s.notifies +
      total Worker.toGo (fun w => (s.threads w).notified) + 1 < s.toGo
    rw [PoolState.toGo, hbefore]
    omega
  | joined hd =>
    have hbefore : s.destructorToGo = 1 := by rw [PoolState.destructorToGo, hd]
    show 2 * s.tasks.length + 2 * s.notifies + total Worker.toGo s.threads + 0 < s.toGo
    rw [PoolState.toGo, hbefore]
    omega

/-- A pool that is stuck has no notify to issue before its destructor is through. -/
theorem PoolState.Stuck.notifies_eq (h : s.Stuck) : s.notifies = 0 := by
  by_contra hne
  have hpending : 0 < s.notifies := Nat.pos_of_ne_zero hne
  by_cases hsleeper : ∃ w, (s.threads w).isBlocked = true
  · obtain ⟨w, hw⟩ := hsleeper
    have hnone := h (.notify (some w)) rfl
    simp [PoolState.step, PoolState.notify, hpending, PoolState.notifyOne, PoolState.wake, hw]
      at hnone
  · have hnone := h (.notify none) rfl
    simp only [not_exists, Bool.not_eq_true] at hsleeper
    simp [PoolState.step, PoolState.notify, hpending, PoolState.notifyOne, hsleeper] at hnone

/-- A pool that is stuck has all its workers asleep, or they have returned. -/
theorem PoolState.Stuck.places (h : s.Stuck) (w : W) :
    s.threads w = .blocked ∨ s.threads w = .left := by
  have hlook : ∀ {place}, s.threads w = place → place.isLooking = true → False := by
    intro place hw hlooking
    have hnone := h (.look w) rfl
    simp only [PoolState.step, PoolState.look, hw] at hnone
    cases place with
    | free | woken =>
      dsimp only at hnone
      split at hnone
      · cases hnone
      · split at hnone <;> cases hnone
    | _ => cases hlooking
  cases hw : s.threads w with
  | free | woken => exact (hlook hw rfl).elim
  | blocked => exact .inl rfl
  | running task =>
    have hnone := h (.finish w false) rfl
    simp [PoolState.step, PoolState.finish, hw] at hnone
  | left => exact .inr rfl

theorem PoolState.Stuck.of_asleep (hplaces : ∀ w, s.threads w = .blocked ∨ s.threads w = .left)
    (hnotifies : s.notifies = 0) (hd : s.destructor = .notStarted ∨ s.destructor = .finished) :
    s.Stuck := by
  intro a ha
  cases a with
  | submit | wake | stop => cases ha
  | notify worker => simp [PoolState.step, PoolState.notify, hnotifies]
  | look w => rcases hplaces w with hw | hw <;> simp [PoolState.step, PoolState.look, hw]
  | finish w threw =>
    rcases hplaces w with hw | hw <;> simp [PoolState.step, PoolState.finish, hw]
  | notifyAll => rcases hd with hd | hd <;> simp [PoolState.step, PoolState.notifyAll, hd]
  | join => rcases hd with hd | hd <;> simp [PoolState.step, PoolState.join, hd]

/-- What was started has ended where no step of the pool itself is possible. -/
theorem PoolState.Stuck.finished_perm (h : s.Stuck) (hconserved : Conserved s) :
    s.finished.Perm s.started := by
  have hnone : total Worker.held s.threads = 0 := total_of_zero fun w => by
    rcases h.places w with hw | hw <;> rw [hw] <;> rfl
  have hran := hconserved.ran
  rw [hnone, add_zero] at hran
  exact (Multiset.coe_eq_coe.mp hran).symm

/-- Before `stopping`, a pool that is stuck has nothing to do. -/
theorem PoolState.Stuck.idle [Nonempty W] (h : s.Stuck) (hphases : Phases s)
    (hattended : s.Attended) (hstart : s.stopping = false) :
    s.tasks = [] ∧ ∀ w, s.threads w = .blocked := by
  have hblocked : ∀ w, s.threads w = .blocked := by
    intro w
    rcases h.places w with hw | hw
    · exact hw
    · have hstays := hphases.staying hstart w
      rw [hw] at hstays
      cases hstays
  have hwaiting := hattended hstart ⟨Classical.arbitrary W, congrArg _ (hblocked _)⟩
  have hnone : total Worker.wakeUps s.threads = 0 := total_of_zero fun w => by
    rw [hblocked w]
    rfl
  rw [h.notifies_eq, hnone] at hwaiting
  exact ⟨List.length_eq_zero_iff.mp (Nat.le_zero.mp hwaiting), hblocked⟩

/-- Behind `stopping`, a pool that is stuck has been destroyed. -/
theorem PoolState.Stuck.finished (h : s.Stuck) (hphases : Phases s)
    (hstopping : s.stopping = true) :
    s.destructor = .finished := by
  cases hd : s.destructor with
  | notStarted => exact absurd hd (hphases.flag.mp hstopping)
  | stopped =>
    have hnone := h .notifyAll rfl
    simp [PoolState.step, PoolState.notifyAll, hd] at hnone
  | joining =>
    have hleft : ∀ w, (s.threads w).hasLeft = true := fun w => by
      rcases h.places w with hw | hw
      · have hawake := hphases.awake (.inl hd) w
        rw [hw] at hawake
        cases hawake
      · rw [hw]
        rfl
    have hnone := h .join rfl
    simp [PoolState.step, PoolState.join, hd, hleft] at hnone
  | finished => rfl

/-- Left to itself, the pool comes to rest, and then every task that was submitted has been
started in its turn and has ended. -/
theorem drains [Nonempty W] {as : List (PoolAction W T)} (h : (threadPool W T).Reachable s)
    (hstart : s.stopping = false) (hown : ∀ a ∈ as, a.isOwn = true)
    (hrun : (threadPool W T).Run s as t) :
    as.length ≤ s.toGo ∧
      (t.Stuck → t.tasks = [] ∧ t.started = s.submitted ∧ t.finished.Perm s.submitted ∧
        ∀ w, t.threads w = .blocked) := by
  have hlength := hrun.length_add_le (fun s a t ha hstep => toGo_lt ha (effect_of_step hstep)) hown
  refine ⟨by omega, fun hstuck => ?_⟩
  have hreachable := h.run hrun
  have hkept : ∀ u (a : PoolAction W T) v, a.isOwn = true →
      (u.submitted = s.submitted ∧ u.stopping = s.stopping) → (threadPool W T).step u a v →
      v.submitted = s.submitted ∧ v.stopping = s.stopping := by
    rintro u a v ha ⟨husubmitted, hustopping⟩ hstep
    obtain ⟨hsubmitted, hstopping⟩ := own_step ha (effect_of_step hstep)
    exact ⟨hsubmitted.trans husubmitted, hstopping.trans hustopping⟩
  obtain ⟨hsubmitted, hstopping⟩ := hrun.invariant_of hkept hown ⟨rfl, rfl⟩
  have hconserved := conserved_reachable hreachable
  obtain ⟨htasks, hblocked⟩ := hstuck.idle (phases_reachable hreachable)
    (attended_reachable hreachable) (hstopping.trans hstart)
  have hstarted : t.started = s.submitted := by
    rw [← hsubmitted, hconserved.queued, htasks, List.append_nil]
  exact ⟨htasks, hstarted, hstarted ▸ hstuck.finished_perm hconserved, hblocked⟩

theorem drains_two : ∃ s t : PoolState (Fin 2) Nat,
    s.submitted = [7, 8] ∧ t.Stuck ∧ t.finished.Perm [7, 8] := by
  let before : List (PoolAction (Fin 2) Nat) := [.look 0, .look 1, .submit 7, .submit 8]
  let as : List (PoolAction (Fin 2) Nat) := [.notify (some 1), .look 1, .notify (some 0),
    .look 0, .finish 0 true, .finish 1 false, .look 0, .look 1]
  have hruns : (before.foldlM PoolState.step {}).any (fun s =>
      s.stopping = false ∧ s.submitted = [7, 8] ∧ (as.foldlM PoolState.step s).any (fun t =>
        (∀ w, t.threads w = .blocked ∨ t.threads w = .left) ∧ t.notifies = 0 ∧
        t.destructor = .notStarted)) = true := by
    decide +kernel
  obtain ⟨s, hbefore, hs⟩ := (Option.any_eq_true _ _).mp hruns
  obtain ⟨hstart, hsubmitted, hs⟩ := of_decide_eq_true hs
  obtain ⟨t, hafter, ht⟩ := (Option.any_eq_true _ _).mp hs
  obtain ⟨hplaces, hnotifies, hd⟩ := of_decide_eq_true ht
  have hreachable : (threadPool (Fin 2) Nat).Reachable s :=
    .foldlM (fun _ _ _ h => h) (.of_init rfl) hbefore
  have hstuck : t.Stuck := .of_asleep hplaces hnotifies (.inl hd)
  obtain ⟨-, hend⟩ := drains hreachable hstart (by decide) (.of_foldlM (fun _ _ _ h => h) hafter)
  exact ⟨s, t, hsubmitted, hstuck, hsubmitted ▸ (hend hstuck).2.2.1⟩

/-- From `stopping` on no task is started. Left to itself, the pool comes to rest, and then
its destructor has returned behind the tasks that were running. -/
theorem shuts_down {as : List (PoolAction W T)} (h : (threadPool W T).Reachable s)
    (hstopping : s.stopping = true) (hrun : (threadPool W T).Run s as t) :
    t.started = s.started ∧ t.tasks = s.tasks ∧ t.submitted = s.submitted ∧
      ((∀ a ∈ as, a.isOwn = true) → as.length ≤ s.toGo ∧
        (t.Stuck → t.destructor = .finished ∧ (∀ w, t.threads w = .left) ∧
          t.finished.Perm s.started)) := by
  have hkept : ∀ u (a : PoolAction W T) v,
      (u.stopping = true ∧ u.started = s.started ∧ u.tasks = s.tasks ∧
        u.submitted = s.submitted) → (threadPool W T).step u a v →
      v.stopping = true ∧ v.started = s.started ∧ v.tasks = s.tasks ∧
        v.submitted = s.submitted := by
    rintro u a v ⟨hustops, hustarted, hutasks, husubmitted⟩ hstep
    obtain ⟨hstops, hstarted, htasks, hsubmitted⟩ := stopping_step hustops (effect_of_step hstep)
    exact ⟨hstops, hstarted.trans hustarted, htasks.trans hutasks, hsubmitted.trans husubmitted⟩
  obtain ⟨hstops, hstarted, htasks, hsubmitted⟩ :=
    hrun.invariant hkept ⟨hstopping, rfl, rfl, rfl⟩
  refine ⟨hstarted, htasks, hsubmitted, fun hown => ?_⟩
  have hlength := hrun.length_add_le (fun s a t ha hstep => toGo_lt ha (effect_of_step hstep)) hown
  refine ⟨by omega, fun hstuck => ?_⟩
  have hreachable := h.run hrun
  have hphases := phases_reachable hreachable
  have hfinished := hstuck.finished hphases hstops
  exact ⟨hfinished, fun w => Worker.eq_of_hasLeft (hphases.joined hfinished w),
    hstarted ▸ hstuck.finished_perm (conserved_reachable hreachable)⟩

theorem shuts_down_two : ∃ s t : PoolState (Fin 2) Nat,
    s.tasks = [9] ∧ t.tasks = [9] ∧ t.destructor = .finished ∧ t.finished.Perm [7, 8] := by
  let before : List (PoolAction (Fin 2) Nat) :=
    [.submit 7, .submit 8, .submit 9, .look 0, .look 1, .finish 1 false, .stop]
  let as : List (PoolAction (Fin 2) Nat) := [.look 1, .notifyAll, .notify none, .notify none,
    .finish 0 false, .notify none, .look 0, .join]
  have hruns : (before.foldlM PoolState.step {}).any (fun s =>
      s.stopping = true ∧ s.tasks = [9] ∧ s.started = [7, 8] ∧
      (as.foldlM PoolState.step s).any (fun t =>
        (∀ w, t.threads w = .blocked ∨ t.threads w = .left) ∧ t.notifies = 0 ∧
        t.destructor = .finished)) = true := by
    decide +kernel
  obtain ⟨s, hbefore, hs⟩ := (Option.any_eq_true _ _).mp hruns
  obtain ⟨hstopping, htasks, hstarted, hs⟩ := of_decide_eq_true hs
  obtain ⟨t, hafter, ht⟩ := (Option.any_eq_true _ _).mp hs
  obtain ⟨hplaces, hnotifies, hd⟩ := of_decide_eq_true ht
  have hreachable : (threadPool (Fin 2) Nat).Reachable s :=
    .foldlM (fun _ _ _ h => h) (.of_init rfl) hbefore
  obtain ⟨-, htasks', -, hend⟩ :=
    shuts_down hreachable hstopping (.of_foldlM (fun _ _ _ h => h) hafter)
  have hstuck : t.Stuck := .of_asleep hplaces hnotifies (.inr hd)
  obtain ⟨hfinished, -, hperm⟩ := (hend (by decide)).2 hstuck
  exact ⟨s, t, htasks, htasks'.trans htasks, hfinished, hstarted ▸ hperm⟩

end Measure

end ServiceInfra.ThreadPool
