import ServiceInfra.Reactor.EventLoop

/-!
# Waking the reactor

The main loop of `start` waits without a timeout; what wakes it is the eventfd of the done
queue, which is in the poll set. `push` puts its item into the queue and then adds one to
the counter, `on_signal` sets `stopping` and then does the same, and `ondone` reads the
counter back to zero before it drains. This module splits these calls at their `write` and
`read`, with the steps of the loop of the module before in between.

Many writes may come together in one read, and both kinds of writers share the counter. A
write fails only where the counter is positive already.

Main results:
- `WakeInv.step`: what the counter says about the queue and about `stopping`
- `no_lost_wakeUp`: a reactor that waits at counter zero has missed nothing
-/

namespace ServiceInfra.Reactor

open Library
open Net

/-! ## State -/

/-- The server with the eventfd. -/
structure WakeState where
  loop : LoopState := {}
  /-- The counter of the eventfd. -/
  counter : Nat := 0
  /-- The items of the calls of `push` that have enqueued and not written yet. -/
  unwritten : List DoitItem := []
  /-- How many calls of `on_signal` have set `stopping` and not written yet. -/
  signalling : Nat := 0
  /-- `ondone` has read the eventfd and not drained yet. -/
  hasRead : Bool := false

/-- The labels of the steps. -/
inductive WakeAction where
  /-- A step of the loop and of the threads beside it: of `push` up to its write, of
  `on_signal` up to its write, of `ondone` from `drain` on. -/
  | loop (a : LoopAction)
  /-- The first part of the `push` of a worker, of which there may be any number. -/
  | push (item : DoitItem)
  /-- The write of one of the unwritten pushes. -/
  | pushWrite (i : Nat) (ok : Bool)
  /-- The write of `on_signal`. -/
  | signalWrite (ok : Bool)
  /-- The read of `ondone`. -/
  | read
  deriving DecidableEq, Repr

/-! ## Steps -/

/-- The next event to dispatch is the eventfd. -/
def LoopState.atDone (s : LoopState) : Bool :=
  match s.phase with
  | .events (.done :: _) => true
  | _ => false

/-- In the `epoll_wait` without a timeout. -/
def LoopState.InMainWait (s : LoopState) : Prop := s.phase = .wait ∧ s.draining = false

namespace WakeState

/-- The eventfd is reported only where its counter is positive, and drained after the read. -/
def allows (s : WakeState) : LoopAction → Bool
  | .wait (.events batch) => !batch.contains .done || decide (0 < s.counter)
  | .next _ => !s.loop.atDone || s.hasRead
  | _ => true

/-- A step of the loop. -/
def loopStep (handler : List UInt8 → Option (List UInt8)) (s : WakeState) (a : LoopAction) :
    Option WakeState :=
  if s.allows a then
    (s.loop.step handler a).map fun loop =>
      { s with
        loop
        unwritten := s.unwritten ++ loop.reactor.queue.drop s.loop.reactor.queue.length
        signalling := if a = .inner .stop then s.signalling + 1 else s.signalling
        hasRead := match a with
          | .next _ => false
          | _ => s.hasRead }
  else none

/-- `push` up to the end of its critical section. -/
def push (s : WakeState) (item : DoitItem) : WakeState :=
  { s with
    loop := { s.loop with
      reactor := { s.loop.reactor with queue := s.loop.reactor.queue ++ [item] } }
    unwritten := s.unwritten ++ [item] }

/-- `write(wake_fd, &len, 8)` with `len` 1: the counter afterwards. -/
def written (s : WakeState) (ok : Bool) : Option Nat :=
  if ok then some (s.counter + 1)
  -- `EAGAIN`
  else if 0 < s.counter then some s.counter
  else none

/-- One step. -/
def step (handler : List UInt8 → Option (List UInt8)) (s : WakeState) :
    WakeAction → Option WakeState
  | .loop a => s.loopStep handler a
  | .push item => some (s.push item)
  | .pushWrite i ok =>
      if i < s.unwritten.length then
        (s.written ok).map fun counter =>
          { s with counter, unwritten := s.unwritten.eraseIdx i }
      else none
  | .signalWrite ok =>
      if 0 < s.signalling then
        (s.written ok).map fun counter => { s with counter, signalling := s.signalling - 1 }
      else none
  | .read =>
      if s.loop.reactor.control = .idle ∧ s.loop.atDone = true ∧ s.hasRead = false then
        some { s with counter := 0, hasRead := true }
      else none

end WakeState

/-- The server with its eventfd, from the start on. -/
def wakeUps (handler : List UInt8 → Option (List UInt8)) :
    TransitionSystem WakeState WakeAction where
  init s := s = {}
  step s a t := s.step handler a = some t

/-! ## What the steps of the loop do to the queue and to the flag -/

section Reactor

variable {handler : List UInt8 → Option (List UInt8)} {s t : ReactorState}

/-- Only `stop` sets the flag, and only `drain` takes items off the queue. -/
theorem step_queue {a : Action} (h : s.step handler a = some t) :
    (a = .stop ∨ t.stopping = s.stopping) ∧ (a = .drain ∨ s.queue <+: t.queue) := by
  have hput {r : ReactorState} {fd : Nat} {oc : Option Connection}
      (hstopping : r.stopping = s.stopping) (hqueue : r.queue = s.queue) :
      (a = .stop ∨ (r.put fd oc).stopping = s.stopping) ∧
        (a = .drain ∨ s.queue <+: (r.put fd oc).queue) :=
    ⟨.inr hstopping, .inr (hqueue ▸ List.prefix_rfl)⟩
  have hsame : (a = .stop ∨ s.stopping = s.stopping) ∧ (a = .drain ∨ s.queue <+: s.queue) :=
    ⟨.inr rfl, .inr List.prefix_rfl⟩
  cases a with
  | accept fd =>
    simp only [ReactorState.step, ReactorState.onaccept] at h
    split at h
    · cases h
      exact hput rfl rfl
    · cases h
  | event fd flags script =>
    rcases addevent_cases h with rfl | ⟨c, -, -, rfl | rfl | ⟨c', taken, ok, -, rfl⟩⟩
    · exact hsame
    · exact hput rfl rfl
    · exact hsame
    · exact hput rfl rfl
  | recv o =>
    simp only [ReactorState.step, ReactorState.recv] at h
    split at h
    · obtain ⟨c, -, rfl⟩ := Option.map_eq_some_iff.mp h
      exact hput rfl rfl
    · cases h
  | submit =>
    simp only [ReactorState.step, ReactorState.submit] at h
    split at h
    · obtain ⟨c, -, rfl⟩ := Option.map_eq_some_iff.mp h
      exact hput rfl rfl
    · cases h
  | endTurn =>
    rcases endTurn_cases h with ⟨fd, -, rfl⟩ | ⟨fd, c, -, -, rfl⟩ | ⟨fd, ok, c, -, -, rfl⟩ |
      ⟨-, rfl⟩
    · exact hsame
    · exact hput rfl rfl
    · exact hput rfl rfl
    · exact hsame
  | drain =>
    simp only [ReactorState.step, ReactorState.drain] at h
    split at h
    · cases h
      exact ⟨.inr rfl, .inl rfl⟩
    · cases h
  | deliver script =>
    obtain ⟨item, items, -, ⟨-, rfl⟩ | ⟨c, c', taken, ok, -, -, -, rfl⟩⟩ := deliver_cases h
    · exact hsame
    · exact hput rfl rfl
  | take =>
    simp only [ReactorState.step, ReactorState.take] at h
    split at h
    · cases h
    · split at h
      · cases h
        exact hsame
      · cases h
  | complete worker =>
    simp only [ReactorState.step, ReactorState.complete] at h
    obtain ⟨req, -, rfl⟩ := Option.map_eq_some_iff.mp h
    split
    · exact ⟨.inr rfl, .inr (List.prefix_append _ _)⟩
    · exact hsame
  | stop =>
    cases h
    exact ⟨.inl rfl, .inr List.prefix_rfl⟩
  | finish fd =>
    simp only [ReactorState.step, ReactorState.finish] at h
    split at h
    · split at h
      · cases h
        exact hput rfl rfl
      · cases h
    · cases h

end Reactor

section Loop

variable {handler : List UInt8 → Option (List UInt8)} {s t : LoopState} {a : LoopAction}

/-- `ondone` leaves the queue empty. -/
theorem next_atDone {script : List SendOutcome} (h : s.step handler (.next script) = some t)
    (hdone : s.atDone = true) : t.reactor.queue = [] := by
  unfold LoopState.atDone at hdone
  cases step_loop h with
  | drained _ hr =>
    simp only [ReactorState.step, ReactorState.drain] at hr
    split at hr
    · cases hr
      rfl
    · cases hr
  | batchEnd _ hphase =>
    rw [hphase] at hdone
    cases hdone
  | listening _ hphase =>
    rw [hphase] at hdone
    cases hdone
  | dispatched _ hphase =>
    rw [hphase] at hdone
    cases hdone

/-- The loop empties the queue or leaves the items in front in it, and it does not touch the
flag. -/
theorem loop_queue (h : s.step handler a = some t) :
    (a = .inner .stop ∨ t.reactor.stopping = s.reactor.stopping) ∧
      (t.reactor.queue = [] ∨ s.reactor.queue <+: t.reactor.queue) := by
  cases hstep : step_loop h with
  | turned => exact ⟨.inr rfl, .inr List.prefix_rfl⟩
  | reported => exact ⟨.inr rfl, .inr List.prefix_rfl⟩
  | unreported => exact ⟨.inr rfl, .inr List.prefix_rfl⟩
  | batchEnd => exact ⟨.inr rfl, .inr List.prefix_rfl⟩
  | listening => exact ⟨.inr rfl, .inr List.prefix_rfl⟩
  | refused => exact ⟨.inr rfl, .inr List.prefix_rfl⟩
  | drained hphase hr =>
    refine ⟨.inr ((step_queue hr).1.resolve_left (by simp)), .inl ?_⟩
    exact next_atDone h (by rw [LoopState.atDone, hphase])
  | dispatched _ _ hr =>
    obtain ⟨hstopping, hqueue⟩ := step_queue hr
    exact ⟨.inr (hstopping.resolve_left (by simp)), .inr (hqueue.resolve_left (by simp))⟩
  | accepted _ hr =>
    obtain ⟨hstopping, hqueue⟩ := step_queue hr
    exact ⟨.inr (hstopping.resolve_left (by simp)), .inr (hqueue.resolve_left (by simp))⟩
  | @beside b _ hbeside hr =>
    obtain ⟨hstopping, hqueue⟩ := step_queue hr
    refine ⟨hstopping.imp_left (congrArg LoopAction.inner), .inr (hqueue.resolve_left ?_)⟩
    rintro rfl
    cases hbeside

/-- The loop comes into the wait without a timeout only behind the test of the flag. -/
theorem inMainWait_of_step (h : s.step handler a = some t) (hwait : t.InMainWait) :
    s.InMainWait ∨ t.reactor.stopping = false := by
  obtain ⟨hphase, hdraining⟩ := hwait
  cases hstep : step_loop h with
  | turned htop =>
    right
    simp only [LoopState.step, LoopState.top, htop] at h
    split at h
    · rename_i hdrain
      -- in the drain loop the wait has a timeout
      split at h
      · cases h
        cases hphase
      · split at h
        · cases h
          cases hphase
        · cases h
          rw [hdrain] at hdraining
          cases hdraining
    · split at h
      · cases h
        cases hdraining
      · rename_i hstopping
        cases h
        exact Bool.eq_false_iff.mpr hstopping
  | reported => cases hphase
  | unreported _ hnext =>
    simp only at hphase
    rcases hnext with rfl | rfl <;> cases hphase
  | batchEnd => cases hphase
  | listening => cases hphase
  | drained => cases hphase
  | dispatched => cases hphase
  | accepted haccepting =>
    simp only at hphase
    rw [haccepting] at hphase
    cases hphase
  | refused => cases hphase
  | beside => exact .inl ⟨hphase, hdraining⟩

/-- Only the dispatch of an event moves on from it. -/
theorem atDone_of_step (h : s.step handler a = some t) (hdone : s.atDone = true) :
    (∃ script, a = .next script) ∨ t.atDone = true := by
  have hphase : ∃ batch, s.phase = .events (.done :: batch) := by
    unfold LoopState.atDone at hdone
    split at hdone
    · exact ⟨_, by assumption⟩
    · cases hdone
  obtain ⟨batch, hphase⟩ := hphase
  cases hstep : step_loop h with
  | turned htop =>
    rw [hphase] at htop
    cases htop
  | reported hwait =>
    rw [hphase] at hwait
    cases hwait
  | unreported hwait =>
    rw [hphase] at hwait
    cases hwait
  | batchEnd => exact .inl ⟨_, rfl⟩
  | listening => exact .inl ⟨_, rfl⟩
  | drained => exact .inl ⟨_, rfl⟩
  | dispatched => exact .inl ⟨_, rfl⟩
  | accepted haccepting =>
    rw [hphase] at haccepting
    cases haccepting
  | refused haccepting =>
    rw [hphase] at haccepting
    cases haccepting
  | beside =>
    right
    rw [LoopState.atDone, LoopState.become, hphase]

end Loop

/-! ## The eventfd -/

/-- What the counter of the eventfd says. -/
structure WakeInv (s : WakeState) : Prop where
  /-- At zero, and not between read and drain, the items in the queue are those of the
  latest pushes that have not written. -/
  queued : s.counter = 0 → s.hasRead = false → s.loop.reactor.queue <:+ s.unwritten
  /-- While the reactor waits, `stopping` has made the counter positive or is about to. -/
  stopped : s.loop.InMainWait → s.loop.reactor.stopping = true →
    0 < s.counter ∨ 0 < s.signalling
  reading : s.hasRead = true → s.loop.atDone = true

section WakeUps

variable {handler : List UInt8 → Option (List UInt8)} {s t : WakeState}

/-- Whether it succeeds or fails, a write leaves the counter positive. -/
theorem written_pos {ok : Bool} {counter : Nat} (h : s.written ok = some counter) :
    0 < counter := by
  unfold WakeState.written at h
  split at h
  · cases h
    exact Nat.succ_pos _
  · split at h
    · rename_i hpos
      cases h
      exact hpos
    · cases h

theorem WakeInv.loopStep (h : WakeInv s) {a : LoopAction} (hstep : s.loopStep handler a = some t) :
    WakeInv t := by
  unfold WakeState.loopStep at hstep
  split at hstep
  · obtain ⟨loop, hloop, rfl⟩ := Option.map_eq_some_iff.mp hstep
    obtain ⟨hstopping, hqueue⟩ := loop_queue hloop
    refine ⟨fun hzero hread => ?_, fun hwait hstop => ?_, fun hread => ?_⟩
    · simp only at hzero hread ⊢
      cases hold : s.hasRead with
      | true =>
        -- the read is over, so this step was the drain
        rcases atDone_of_step hloop (h.reading hold) with ⟨script, rfl⟩ | hdone
        · rw [next_atDone hloop (h.reading hold)]
          exact List.nil_suffix
        · split at hread
          · rw [next_atDone hloop (h.reading hold)]
            exact List.nil_suffix
          · rw [hold] at hread
            cases hread
      | false =>
        rcases hqueue with hempty | ⟨items, hitems⟩
        · rw [hempty]
          exact List.nil_suffix
        · -- what the step enqueued is behind both lists
          obtain ⟨front, hfront⟩ := h.queued hzero hold
          rw [← hitems, List.drop_left, ← hfront, List.append_assoc]
          exact List.suffix_append _ _
    · simp only at hstop ⊢
      rcases inMainWait_of_step hloop hwait with hbefore | hclear
      · rcases hstopping with rfl | hsame
        · rw [if_pos rfl]
          exact .inr (Nat.succ_pos _)
        · rw [hsame] at hstop
          refine (h.stopped hbefore hstop).imp_right fun hpos => ?_
          split <;> omega
      · rw [hclear] at hstop
        cases hstop
    · simp only at hread ⊢
      split at hread
      · cases hread
      · rename_i hnext
        rcases atDone_of_step hloop (h.reading hread) with ⟨script, rfl⟩ | hdone
        · exact absurd rfl (hnext script)
        · exact hdone
  · cases hstep

/-- Behind a write the reactor has its wake-up. -/
theorem WakeInv.written (h : WakeInv s) {ok : Bool} {counter : Nat}
    (hwritten : s.written ok = some counter) (hcounter : t.counter = counter)
    (hloop : t.loop = s.loop) (hread : t.hasRead = s.hasRead) : WakeInv t where
  queued hzero := by
    have hpos := written_pos hwritten
    omega
  stopped _ _ := by
    rw [hcounter]
    exact .inl (written_pos hwritten)
  reading := by
    rw [hread, hloop]
    exact h.reading

theorem WakeInv.step (h : WakeInv s) {b : WakeAction} (hstep : s.step handler b = some t) :
    WakeInv t := by
  cases b with
  | loop a => exact h.loopStep hstep
  | push item =>
    cases hstep
    refine ⟨fun hzero hread => ?_, h.stopped, h.reading⟩
    obtain ⟨front, hfront⟩ := h.queued hzero hread
    exact ⟨front, by rw [WakeState.push, ← List.append_assoc, hfront]⟩
  | pushWrite i ok =>
    simp only [WakeState.step] at hstep
    split at hstep
    · obtain ⟨counter, hwritten, rfl⟩ := Option.map_eq_some_iff.mp hstep
      exact h.written hwritten rfl rfl rfl
    · cases hstep
  | signalWrite ok =>
    simp only [WakeState.step] at hstep
    split at hstep
    · obtain ⟨counter, hwritten, rfl⟩ := Option.map_eq_some_iff.mp hstep
      exact h.written hwritten rfl rfl rfl
    · cases hstep
  | read =>
    simp only [WakeState.step] at hstep
    split at hstep
    · rename_i hready
      cases hstep
      refine ⟨fun _ hread => (by cases hread), fun hwait => ?_, fun _ => hready.2.1⟩
      -- the reactor is not in the wait
      have hdone := hready.2.1
      rw [LoopState.atDone, hwait.1] at hdone
      cases hdone
    · cases hstep

theorem WakeInv.start : WakeInv {} where
  queued _ _ := List.nil_suffix
  stopped hwait := by cases hwait.1
  reading hread := by cases hread

end WakeUps

/-- In every reachable state in which the reactor waits without a timeout and the counter of
the eventfd is zero: the items in the done queue are those of pushes that have not done
their write, and `stopping` is set only if a call of `on_signal` has not done its write. -/
theorem no_lost_wakeUp {handler : List UInt8 → Option (List UInt8)} {s : WakeState}
    (h : (wakeUps handler).Reachable s) (hwait : s.loop.InMainWait) (hzero : s.counter = 0) :
    s.loop.reactor.queue <:+ s.unwritten ∧
      (s.loop.reactor.stopping = true → 0 < s.signalling) := by
  have hinv : WakeInv s := by
    refine h.invariant ?_ ?_
    · rintro _ rfl
      exact .start
    · intro s b t hs hstep
      have hnext : s.step handler b = some t := hstep
      exact hs.step hnext
  have hread : s.hasRead = false := by
    by_contra hread
    have hdone := hinv.reading (Bool.not_eq_false _ ▸ hread)
    rw [LoopState.atDone, hwait.1] at hdone
    cases hdone
  refine ⟨hinv.queued hzero hread, fun hstop => ?_⟩
  exact (hinv.stopped hwait hstop).resolve_left (by omega)

/-- A worker has enqueued and not written, and the signal has come. -/
theorem no_lost_wakeUp_pending :
    let item : DoitItem := ⟨5, 1, [7], ⟨5, 1, [7], 0⟩⟩
    let s : WakeState :=
      { loop := { reactor := { queue := [item], stopping := true }, phase := .wait }
        unwritten := [item]
        signalling := 1 }
    s.loop.reactor.queue <:+ s.unwritten ∧
      (s.loop.reactor.stopping = true → 0 < s.signalling) := by
  refine @no_lost_wakeUp some _ ?_ ⟨rfl, rfl⟩ rfl
  have hwaits : WakeState.step some {} (.loop (.top false)) =
      some { loop := { phase := .wait } } := rfl
  have hsignals : WakeState.step some { loop := { phase := .wait } } (.loop (.inner .stop)) =
      some { loop := { reactor := { stopping := true }, phase := .wait }, signalling := 1 } := rfl
  have hstart : (wakeUps some).Reachable {} := .of_init rfl
  have hreached := (hstart.step hwaits).step hsignals
  exact hreached.step (a := .push ⟨5, 1, [7], ⟨5, 1, [7], 0⟩⟩) rfl

end ServiceInfra.Reactor
