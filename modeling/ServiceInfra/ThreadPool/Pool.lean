import ServiceInfra.Library.Population
import ServiceInfra.Library.TransitionSystem

/-!
# The thread pool

`ThreadPool`: a queue of tasks under one mutex, a condition variable on which idle workers
sleep, and the worker threads. Every critical section is one step, and so is what follows
it outside the mutex: the `notify_one` of `submit` comes behind its push as a step of its
own. Which sleeper a notify wakes is chosen by the label.

Main results:
- `effect_of_step`: what one step can do
- `Conserved`: tasks are started in the order of their submits, each at most once
- `Phases`: how the destructor and the places of the workers go together
-/

namespace ServiceInfra.ThreadPool

open Library

/-! ## State -/

/-- Where a worker thread stands. -/
inductive Worker (T : Type) where
  /-- At the top of the loop of `workerLoop`. -/
  | free
  | blocked
  /-- In the wait, awake again and without the mutex. -/
  | woken
  | running (task : T)
  /-- It has returned. -/
  | left
  deriving DecidableEq, Repr

namespace Worker

variable {T : Type}

def isBlocked : Worker T → Bool
  | .blocked => true
  | _ => false

def hasLeft : Worker T → Bool
  | .left => true
  | _ => false

/-- The worker is about to look at the queue. -/
def isLooking : Worker T → Bool
  | .free | .woken => true
  | _ => false

/-- The tasks the worker holds. -/
def held : Worker T → Multiset T
  | .running task => {task}
  | _ => 0

/-- `notify_all` for one worker. -/
def notified : Worker T → Worker T
  | .blocked => .woken
  | place => place

end Worker

/-- Where the destructor stands. -/
inductive Destructor where
  | notStarted
  /-- `stopping` is set, the `notify_all` comes next. -/
  | stopped
  | joining
  | finished
  deriving DecidableEq, Repr

/-- The members of the pool and the places of its threads. -/
structure PoolState (W T : Type) where
  threads : W → Worker T := fun _ => .free
  tasks : List T := []
  stopping : Bool := false
  destructor : Destructor := .notStarted
  /-- How many calls of `submit` have their notify to issue. -/
  notifies : Nat := 0
  /-- The tasks that were pushed, in order. -/
  submitted : List T := []
  /-- The tasks that workers took, in order. -/
  started : List T := []
  /-- The tasks that returned or threw. -/
  finished : List T := []
  /-- How often `workerLoop` printed its line about an exception. -/
  complaints : Nat := 0

/-- The labels of the steps. -/
inductive PoolAction (W T : Type) where
  | submit (task : T)
  /-- The notify of `submit`, and the worker it wakes. -/
  | notify (worker : Option W)
  /-- `workerLoop` from where it (re)gains the mutex, up to a wait, a task or its return. -/
  | look (w : W)
  /-- A spurious wake-up. -/
  | wake (w : W)
  /-- The task returns or throws. -/
  | finish (w : W) (threw : Bool)
  /-- The destructor sets `stopping`. -/
  | stop
  | notifyAll
  /-- The destructor has joined all workers. -/
  | join
  deriving DecidableEq, Repr

/-! ## Steps -/

namespace PoolState

variable {W T : Type} [DecidableEq W]

/-- The worker goes on to another place. -/
def goTo (s : PoolState W T) (w : W) (place : Worker T) : PoolState W T :=
  { s with threads := Function.update s.threads w place }

@[simp] theorem goTo_self (s : PoolState W T) (w : W) (place : Worker T) :
    (s.goTo w place).threads w = place :=
  Function.update_self ..

@[simp] theorem goTo_of_ne (s : PoolState W T) {v w : W} (h : v ≠ w) (place : Worker T) :
    (s.goTo w place).threads v = s.threads v :=
  Function.update_of_ne h ..

/-- The critical section of `submit`. -/
def submit (s : PoolState W T) (task : T) : Option (PoolState W T) :=
  if s.destructor = .finished then none
  -- returns without a notify
  else if s.stopping then some s
  else some { s with
    tasks := s.tasks ++ [task]
    submitted := s.submitted ++ [task]
    notifies := s.notifies + 1 }

/-- The critical section of `workerLoop`. The wait goes on while the queue is empty and
`stopping` is not set; behind it `stopping` comes before the queue. -/
def look (s : PoolState W T) (w : W) : Option (PoolState W T) :=
  match s.threads w with
  | .free | .woken =>
      if s.stopping then some (s.goTo w .left)
      else
        match s.tasks with
        | [] => some (s.goTo w .blocked)
        | task :: tasks =>
            some ({ s with tasks, started := s.started ++ [task] }.goTo w (.running task))
  | _ => none

def wake (s : PoolState W T) (w : W) : Option (PoolState W T) :=
  if (s.threads w).isBlocked then some (s.goTo w .woken) else none

/-- The end of `task()`; what it throws is caught, and the loop goes on. -/
def finish (s : PoolState W T) (w : W) (threw : Bool) : Option (PoolState W T) :=
  match s.threads w with
  | .running task =>
      some ({ s with
        finished := s.finished ++ [task]
        complaints := if threw then s.complaints + 1 else s.complaints }.goTo w .free)
  | _ => none

def stop (s : PoolState W T) : Option (PoolState W T) :=
  if s.destructor = .notStarted then some { s with stopping := true, destructor := .stopped }
  else none

def notifyAll (s : PoolState W T) : Option (PoolState W T) :=
  if s.destructor = .stopped then
    some { s with threads := fun w => (s.threads w).notified, destructor := .joining }
  else none

variable [Fintype W]

/-- `cv.notify_one()`: it wakes one of the sleeping workers, none only where none sleeps. -/
def notifyOne (s : PoolState W T) : Option W → Option (PoolState W T)
  | some w => s.wake w
  | none => if ∀ w, (s.threads w).isBlocked = false then some s else none

def notify (s : PoolState W T) (worker : Option W) : Option (PoolState W T) :=
  if 0 < s.notifies then { s with notifies := s.notifies - 1 }.notifyOne worker else none

/-- `t.join()` for all threads: it waits for each to return. -/
def join (s : PoolState W T) : Option (PoolState W T) :=
  if s.destructor = .joining ∧ ∀ w, (s.threads w).hasLeft = true then
    some { s with destructor := .finished }
  else none

/-- One step. -/
def step (s : PoolState W T) : PoolAction W T → Option (PoolState W T)
  | .submit task => s.submit task
  | .notify worker => s.notify worker
  | .look w => s.look w
  | .wake w => s.wake w
  | .finish w threw => s.finish w threw
  | .stop => s.stop
  | .notifyAll => s.notifyAll
  | .join => s.join

end PoolState

/-- The pool with one worker for every `W`, from its constructor on. -/
def threadPool (W T : Type) [DecidableEq W] [Fintype W] :
    TransitionSystem (PoolState W T) (PoolAction W T) where
  init s := s = {}
  step s a t := s.step a = some t

section Steps

variable {W T : Type} [DecidableEq W] {s t : PoolState W T}

/-- What one step can do. -/
inductive Effect (s : PoolState W T) : PoolAction W T → PoolState W T → Prop where
  /-- A `submit` that returns at `stopping`. -/
  | refused {task : T} : s.stopping = true → Effect s (.submit task) s
  | submitted {task : T} :
      s.stopping = false →
      Effect s (.submit task) { s with
        tasks := s.tasks ++ [task]
        submitted := s.submitted ++ [task]
        notifies := s.notifies + 1 }
  /-- A notify while no worker sleeps. -/
  | unheard : 0 < s.notifies → (∀ w, (s.threads w).isBlocked = false) →
      Effect s (.notify none) { s with notifies := s.notifies - 1 }
  | heard {w : W} : 0 < s.notifies → s.threads w = .blocked →
      Effect s (.notify (some w)) ({ s with notifies := s.notifies - 1 }.goTo w .woken)
  | woke {w : W} : s.threads w = .blocked → Effect s (.wake w) (s.goTo w .woken)
  | left {w : W} : (s.threads w).isLooking = true → s.stopping = true →
      Effect s (.look w) (s.goTo w .left)
  | slept {w : W} : (s.threads w).isLooking = true → s.stopping = false → s.tasks = [] →
      Effect s (.look w) (s.goTo w .blocked)
  | took {w : W} {task : T} {tasks : List T} :
      (s.threads w).isLooking = true → s.stopping = false → s.tasks = task :: tasks →
      Effect s (.look w)
        ({ s with tasks, started := s.started ++ [task] }.goTo w (.running task))
  | finished {w : W} {task : T} {threw : Bool} : s.threads w = .running task →
      Effect s (.finish w threw)
        ({ s with
          finished := s.finished ++ [task]
          complaints := if threw then s.complaints + 1 else s.complaints }.goTo w .free)
  | stopped : s.destructor = .notStarted →
      Effect s .stop { s with stopping := true, destructor := .stopped }
  | notifiedAll : s.destructor = .stopped →
      Effect s .notifyAll
        { s with threads := fun w => (s.threads w).notified, destructor := .joining }
  | joined : s.destructor = .joining → (∀ w, (s.threads w).hasLeft = true) →
      Effect s .join { s with destructor := .finished }

namespace Worker

theorem eq_of_isBlocked {place : Worker T} (h : place.isBlocked = true) :
    place = .blocked := by
  cases place <;> first | rfl | cases h

theorem eq_of_hasLeft {place : Worker T} (h : place.hasLeft = true) : place = .left := by
  cases place <;> first | rfl | cases h

theorem held_of_looking {place : Worker T} (h : place.isLooking = true) : place.held = 0 := by
  cases place <;> first | rfl | cases h

@[simp] theorem held_notified (place : Worker T) : place.notified.held = place.held := by
  cases place <;> rfl

@[simp] theorem isBlocked_notified (place : Worker T) : place.notified.isBlocked = false := by
  cases place <;> rfl

@[simp] theorem hasLeft_notified (place : Worker T) :
    place.notified.hasLeft = place.hasLeft := by
  cases place <;> rfl

end Worker

theorem effect_of_look {w : W} (h : s.look w = some t) : Effect s (.look w) t := by
  have hlooks : ∀ {u}, (s.threads w).isLooking = true →
      (if s.stopping then some (s.goTo w .left)
        else
          match s.tasks with
          | [] => some (s.goTo w .blocked)
          | task :: tasks =>
              some ({ s with tasks, started := s.started ++ [task] }.goTo w (.running task))) =
        some u → Effect s (.look w) u := by
    intro u hlooking hu
    split at hu
    · rename_i hstopping
      cases hu
      exact .left hlooking hstopping
    · rename_i hstopping
      rw [Bool.not_eq_true] at hstopping
      split at hu
      · rename_i htasks
        cases hu
        exact .slept hlooking hstopping htasks
      · rename_i task tasks htasks
        cases hu
        exact .took hlooking hstopping htasks
  rw [PoolState.look] at h
  split at h
  · rename_i hw
    exact hlooks (by rw [hw]; rfl) h
  · rename_i hw
    exact hlooks (by rw [hw]; rfl) h
  · cases h

variable [Fintype W]

theorem effect_of_notify {worker : Option W} (h : s.notify worker = some t) :
    Effect s (.notify worker) t := by
  rw [PoolState.notify] at h
  split at h
  · rename_i hpending
    cases worker with
    | none =>
      simp only [PoolState.notifyOne] at h
      split at h <;> cases h
      rename_i hnone
      exact .unheard hpending hnone
    | some w =>
      simp only [PoolState.notifyOne, PoolState.wake] at h
      split at h <;> cases h
      rename_i hblocked
      exact .heard hpending (Worker.eq_of_isBlocked hblocked)
  · cases h

theorem effect_of_step {a : PoolAction W T} (h : s.step a = some t) : Effect s a t := by
  cases a with
  | submit task =>
    simp only [PoolState.step, PoolState.submit] at h
    split_ifs at h with hfinished hstopping
    · cases h
      exact .refused hstopping
    · cases h
      exact .submitted (Bool.not_eq_true _ ▸ hstopping)
  | notify worker => exact effect_of_notify h
  | look w => exact effect_of_look h
  | wake w =>
    simp only [PoolState.step, PoolState.wake] at h
    split at h <;> cases h
    rename_i hblocked
    exact .woke (Worker.eq_of_isBlocked hblocked)
  | finish w threw =>
    simp only [PoolState.step, PoolState.finish] at h
    split at h <;> cases h
    rename_i hrunning
    exact .finished hrunning
  | stop =>
    simp only [PoolState.step, PoolState.stop] at h
    split at h <;> cases h
    exact .stopped ‹_›
  | notifyAll =>
    simp only [PoolState.step, PoolState.notifyAll] at h
    split at h <;> cases h
    exact .notifiedAll ‹_›
  | join =>
    simp only [PoolState.step, PoolState.join] at h
    split at h <;> cases h
    rename_i hjoin
    exact .joined hjoin.1 hjoin.2

end Steps

/-! ## What holds in every state -/

section Invariants

variable {W T : Type}

/-- How the destructor, `stopping` and the places of the workers go together. -/
structure Phases (s : PoolState W T) : Prop where
  flag : s.stopping = true ↔ s.destructor ≠ .notStarted
  /-- Behind the `notify_all` no worker sleeps. -/
  awake : s.destructor = .joining ∨ s.destructor = .finished →
    ∀ w, (s.threads w).isBlocked = false
  /-- A worker returns only at `stopping`. -/
  staying : s.stopping = false → ∀ w, (s.threads w).hasLeft = false
  joined : s.destructor = .finished → ∀ w, (s.threads w).hasLeft = true

/-- The queue keeps the order of the submits, and a task is started once. -/
structure Conserved [Fintype W] (s : PoolState W T) : Prop where
  queued : s.submitted = s.started ++ s.tasks
  ran : (s.started : Multiset T) = s.finished + total Worker.held s.threads

variable {s t : PoolState W T}

theorem Phases.of_same (h : Phases s) (hthreads : t.threads = s.threads)
    (hstopping : t.stopping = s.stopping) (hdestructor : t.destructor = s.destructor) :
    Phases t where
  flag := by rw [hstopping, hdestructor, h.flag]
  awake := by rw [hthreads, hdestructor]; exact h.awake
  staying := by rw [hthreads, hstopping]; exact h.staying
  joined := by rw [hthreads, hdestructor]; exact h.joined

/-- Until `stopping` is set, the destructor has not started. -/
theorem Phases.destructor_eq (h : Phases s) (hstopping : s.stopping = false) :
    s.destructor = .notStarted := by
  by_contra hne
  rw [h.flag.mpr hne] at hstopping
  cases hstopping

variable [DecidableEq W]

/-- A property of all workers stays when one of them goes to a place that has it. -/
theorem forall_goTo (P : Worker T → Prop) {w : W} {place : Worker T}
    (h : ∀ v, P (s.threads v)) (hplace : P place) (v : W) : P ((s.goTo w place).threads v) := by
  by_cases hvw : v = w
  · rw [hvw, s.goTo_self]
    exact hplace
  · rw [s.goTo_of_ne hvw]
    exact h v

/-- A worker goes on that has not returned. -/
theorem Phases.goTo (h : Phases s) {w : W} {place : Worker T}
    (hw : (s.threads w).hasLeft = false)
    (hblocked : place.isBlocked = true → s.stopping = false)
    (hleft : place.hasLeft = true → s.stopping = true) : Phases (s.goTo w place) where
  flag := h.flag
  awake hbehind := by
    refine forall_goTo (·.isBlocked = false) (h.awake hbehind) ?_
    rw [← Bool.not_eq_true]
    intro hplace
    have hstart := h.destructor_eq (hblocked hplace)
    rcases hbehind with hd | hd <;> cases hstart.symm.trans hd
  staying hstopping := by
    refine forall_goTo (·.hasLeft = false) (h.staying hstopping) ?_
    rw [← Bool.not_eq_true]
    exact fun hplace => Bool.noConfusion (hstopping.symm.trans (hleft hplace))
  joined hfinished := by
    rw [h.joined hfinished w] at hw
    cases hw

theorem Worker.hasLeft_of_looking {place : Worker T} (h : place.isLooking = true) :
    place.hasLeft = false := by
  cases place <;> first | rfl | cases h

theorem Phases.step (h : Phases s) {a : PoolAction W T} (heffect : Effect s a t) : Phases t := by
  cases heffect with
  | refused => exact h
  | submitted => exact h.of_same rfl rfl rfl
  | unheard => exact h.of_same rfl rfl rfl
  | @heard w _ hw =>
    have hgo : Phases (s.goTo w .woken) := h.goTo (congrArg Worker.hasLeft hw) nofun nofun
    exact hgo.of_same rfl rfl rfl
  | woke hw => exact h.goTo (congrArg Worker.hasLeft hw) nofun nofun
  | left hw hstopping =>
    exact h.goTo (Worker.hasLeft_of_looking hw) nofun fun _ => hstopping
  | slept hw hstopping => exact h.goTo (Worker.hasLeft_of_looking hw) (fun _ => hstopping) nofun
  | @took w task _ hw =>
    have hgo : Phases (s.goTo w (.running task)) :=
      h.goTo (Worker.hasLeft_of_looking hw) nofun nofun
    exact hgo.of_same rfl rfl rfl
  | @finished w _ _ hw =>
    have hgo : Phases (s.goTo w .free) := h.goTo (congrArg Worker.hasLeft hw) nofun nofun
    exact hgo.of_same rfl rfl rfl
  | stopped =>
    exact
      { flag := by simp
        awake := by simp
        staying := nofun
        joined := nofun }
  | notifiedAll hd =>
    exact
      { flag := by simp [h.flag, hd]
        awake := fun _ w => Worker.isBlocked_notified _
        staying := fun hstopping w => by
          rw [Worker.hasLeft_notified]
          exact h.staying hstopping w
        joined := nofun }
  | joined hd hleft =>
    exact
      { flag := by simp [h.flag, hd]
        awake := fun _ => h.awake (.inl hd)
        staying := h.staying
        joined := fun _ => hleft }

variable [Fintype W]

/-- What a worker held is exchanged for what it holds now. -/
theorem held_goTo (s : PoolState W T) (w : W) (place : Worker T) :
    total Worker.held (s.goTo w place).threads + (s.threads w).held =
      total Worker.held s.threads + place.held :=
  total_update _ _ w place

theorem Conserved.step (h : Conserved s) {a : PoolAction W T} (heffect : Effect s a t) :
    Conserved t := by
  -- a worker that takes nothing and ends nothing
  have hmoves : ∀ {u : PoolState W T} {w : W} {place : Worker T}, Conserved u →
      (u.threads w).held = 0 → place.held = 0 → Conserved (u.goTo w place) := by
    intro u w place hu hold hnew
    have hheld := held_goTo u w place
    rw [hold, hnew, add_zero, add_zero] at hheld
    exact ⟨hu.queued, by rw [hheld]; exact hu.ran⟩
  cases heffect with
  | refused => exact h
  | submitted =>
    exact ⟨by simp [h.queued], h.ran⟩
  | unheard => exact ⟨h.queued, h.ran⟩
  | heard _ hw => exact hmoves (u := { s with notifies := _ }) ⟨h.queued, h.ran⟩ (congrArg _ hw) rfl
  | woke hw => exact hmoves h (congrArg _ hw) rfl
  | left hw => exact hmoves h (Worker.held_of_looking hw) rfl
  | slept hw => exact hmoves h (Worker.held_of_looking hw) rfl
  | @took w task tasks hw _ htasks =>
    have hheld := held_goTo s w (.running task)
    rw [Worker.held_of_looking hw, add_zero] at hheld
    refine ⟨?_, ?_⟩
    · show s.submitted = (s.started ++ [task]) ++ tasks
      rw [h.queued, htasks, List.append_assoc, List.singleton_append]
    show ((s.started ++ [task] : List T) : Multiset T) =
      s.finished + total Worker.held (s.goTo w (.running task)).threads
    rw [hheld, ← add_assoc, ← h.ran, ← Multiset.coe_add]
    rfl
  | @finished w task _ hw =>
    have hheld := held_goTo s w .free
    rw [hw] at hheld
    refine ⟨h.queued, ?_⟩
    show (s.started : Multiset T) =
      ((s.finished ++ [task] : List T) : Multiset T) + total Worker.held (s.goTo w .free).threads
    have hfree : total Worker.held s.threads =
        total Worker.held (s.goTo w .free).threads + {task} := by
      rw [show ({task} : Multiset T) = (Worker.running task).held from rfl, hheld]
      exact (add_zero _).symm
    rw [h.ran, hfree, ← Multiset.coe_add, Multiset.coe_singleton, add_assoc,
      add_comm (total Worker.held _)]
  | stopped => exact ⟨h.queued, h.ran⟩
  | notifiedAll =>
    have hheld : total Worker.held (fun w => (s.threads w).notified) =
        total Worker.held s.threads := by simp [total]
    exact ⟨h.queued, by rw [hheld]; exact h.ran⟩
  | joined => exact ⟨h.queued, h.ran⟩

theorem phases_reachable (h : (threadPool W T).Reachable s) : Phases s := by
  apply h.invariant
  · rintro s rfl
    exact ⟨by simp, nofun, fun _ _ => rfl, nofun⟩
  · exact fun s a t hs hstep => hs.step (effect_of_step hstep)

theorem conserved_reachable (h : (threadPool W T).Reachable s) : Conserved s := by
  apply h.invariant
  · rintro s rfl
    have hfree : total Worker.held (fun _ : W => (.free : Worker T)) = 0 :=
      total_of_zero fun _ => rfl
    exact ⟨rfl, by rw [hfree]; rfl⟩
  · exact fun s a t hs hstep => hs.step (effect_of_step hstep)

end Invariants

end ServiceInfra.ThreadPool
