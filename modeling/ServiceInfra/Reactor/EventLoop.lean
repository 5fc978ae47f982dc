import ServiceInfra.Library.PartialRun
import ServiceInfra.Reactor.Turns

/-!
# The event loop

`Epoll::start` around the handlers: `epoll_wait` returns a batch of events, the loop
dispatches one after the other, and after the signal the drain loop does the same until no
connection has a request in flight or the deadline is over. A loop step dispatches, or is a
step of the handler that runs; workers and the signal handler step at any point.

An event says which descriptor it is about. Which connection had the descriptor when it was
reported is ghost data (`id`), as in `ReactorState`: the loop looks the descriptor up in
`status` when it comes to the event.

Main results:
- `step_loop`: every step has one of ten effects
- `step_reactor`: the loop moves the reactor by its own steps
- `resting_step`, `listed_step`: the invariants of the loop
-/

namespace ServiceInfra.Reactor

open Library
open Net

/-! ## State -/

/-- What an event is about. -/
inductive Source where
  /-- `m_listen`. -/
  | listen
  /-- `done.fd()`. -/
  | done
  | conn (fd : Nat)
  deriving DecidableEq, Repr

/-- An entry of `ev64`. -/
inductive Event where
  | listen
  | done
  /-- For the connection numbered `id`, that has the descriptor `fd`. -/
  | conn (fd : Nat) (flags : Events) (id : Nat)
  deriving DecidableEq, Repr

def Event.source : Event → Source
  | .listen => .listen
  | .done => .done
  | .conn fd _ _ => .conn fd

/-- Only what is registered is reported, and errors. -/
def within (flags registered : Events) : Bool :=
  (!flags.epollin || registered.epollin) && (!flags.epollout || registered.epollout) &&
    (!flags.epollrdhup || registered.epollrdhup)

/-- How the loops of `start` are left. -/
inductive Leave where
  /-- No connection has requests in flight. -/
  | drained
  /-- The deadline of the drain loop is over. -/
  | deadline
  /-- `epoll_wait` failed outside the drain loop. -/
  | failed
  deriving DecidableEq, Repr

/-- Where the loop stands. -/
inductive Phase where
  /-- At the top of the loop, or of the drain loop. -/
  | top
  /-- In `epoll_wait`. -/
  | wait
  /-- In the loop over the reported events, with those not dispatched yet. -/
  | events (batch : List Event)
  /-- In the loop of `onaccept`. -/
  | accepting (batch : List Event)
  | left (how : Leave)
  deriving DecidableEq, Repr

/-- The events reported and not dispatched yet. -/
def Phase.batch : Phase → List Event
  | .events batch => batch
  | .accepting batch => batch
  | _ => []

def Phase.isLeft : Phase → Bool
  | .left _ => true
  | _ => false

/-- The server in `start`. -/
structure LoopState where
  reactor : ReactorState := {}
  /-- The keys of `status`, in the order in which the map lists them. -/
  fds : List Nat := []
  /-- In the drain loop. -/
  draining : Bool := false
  phase : Phase := .top

/-- What `epoll_wait` returns. -/
inductive WaitOutcome where
  | events (batch : List Event)
  /-- `EINTR`. -/
  | intr
  /-- Any other error. -/
  | error
  deriving DecidableEq, Repr

/-- The labels of the steps. -/
inductive LoopAction where
  /-- The test at the top, where the deadline may be over. -/
  | top (late : Bool)
  | wait (o : WaitOutcome)
  /-- To the next event. -/
  | next (script : List SendOutcome)
  /-- A turn of the loop of `onaccept`: a client, or the return. -/
  | accept (client : Option Nat)
  /-- Any other step. -/
  | inner (a : Action)
  deriving DecidableEq, Repr

/-- `maxevents`. -/
def maxevents : Nat := 512

/-! ## Steps -/

namespace LoopState

/-- `all_pass`. -/
def allPass (s : LoopState) : Bool :=
  s.fds.all fun fd =>
    match s.reactor.status fd with
    | some c => decide (c.inflight ≤ 0)
    | none => true

/-- `epoll_wait` may report the event. -/
def reports (s : LoopState) : Event → Bool
  -- the drain loop begins with `close(m_listen)`
  | .listen => !s.draining
  | .done => true
  | .conn fd flags id => (s.reactor.status fd).any fun c => c.connId == id && within flags c.events

/-- The reactor has moved. -/
def become (s : LoopState) (reactor : ReactorState) (phase : Phase) : LoopState :=
  { s with reactor, phase, fds := s.fds.filter fun fd => (reactor.status fd).isSome }

/-- The test at the top of the loop. -/
def top (s : LoopState) (late : Bool) : Option LoopState :=
  match s.phase with
  | .top =>
      if s.draining then
        if s.allPass then some { s with phase := .left .drained }
        else if late then some { s with phase := .left .deadline }
        else some { s with phase := .wait }
      else if s.reactor.stopping then some { s with draining := true }
      else some { s with phase := .wait }
  | _ => none

/-- `epoll_wait`. -/
def wait (s : LoopState) (o : WaitOutcome) : Option LoopState :=
  match s.phase, o with
  | .wait, .events batch =>
      if batch.all s.reports ∧ (batch.map Event.source).Nodup ∧ batch.length ≤ maxevents then
        some { s with phase := .events batch }
      else none
  | .wait, .intr => some { s with phase := .top }
  -- the drain loop takes an error for no events
  | .wait, .error => some { s with phase := if s.draining then .top else .left .failed }
  | _, _ => none

/-- The loop over the events, and `addevent` up to the handlers that loop. -/
def next (s : LoopState) (script : List SendOutcome) : Option LoopState :=
  match s.reactor.control, s.phase with
  | .idle, .events [] => some { s with phase := .top }
  | .idle, .events (.listen :: batch) => some { s with phase := .accepting batch }
  | .idle, .events (.done :: batch) =>
      s.reactor.drain.map fun r => s.become r (.events batch)
  -- what the event was reported for is not looked at
  | .idle, .events (.conn fd flags _ :: batch) =>
      (s.reactor.addevent fd flags script).map fun r => s.become r (.events batch)
  | _, _ => none

/-- A turn of the loop of `onaccept`. -/
def accept (s : LoopState) (client : Option Nat) : Option LoopState :=
  match s.phase, client with
  | .accepting _, some fd =>
      (s.reactor.onaccept fd).map fun reactor => { s with reactor, fds := s.fds ++ [fd] }
  -- no client, or one that was refused
  | .accepting batch, none => some { s with phase := .events batch }
  | _, _ => none

/-- The steps beside those of the loop itself. -/
def beside (s : LoopState) : Action → Bool
  | .accept _ => false
  | .event _ _ _ => false
  | .drain => false
  -- the connections that are open after the loops
  | .finish _ => s.phase.isLeft
  | _ => true

/-- A step of the handler that runs, of a worker, of the signal handler, or of the end. -/
def inner (handler : List UInt8 → Option (List UInt8)) (s : LoopState) (a : Action) :
    Option LoopState :=
  if s.beside a then (s.reactor.step handler a).map fun r => s.become r s.phase else none

/-- The step of the server that a step of the loop takes. -/
def action (s : LoopState) : LoopAction → Option Action
  | .next script =>
      match s.phase with
      | .events (.done :: _) => some .drain
      | .events (.conn fd flags _ :: _) => some (.event fd flags script)
      | _ => none
  | .accept (some fd) => some (.accept fd)
  | .inner a => some a
  | _ => none

/-- One step. -/
def step (handler : List UInt8 → Option (List UInt8)) (s : LoopState) :
    LoopAction → Option LoopState
  | .top late => s.top late
  | .wait o => s.wait o
  | .next script => s.next script
  | .accept client => s.accept client
  | .inner a => s.inner handler a

end LoopState

/-! ## What a step can do -/

/-- The effect of a step of the loop. -/
inductive LoopEffect (handler : List UInt8 → Option (List UInt8)) (s : LoopState) :
    LoopAction → LoopState → Prop where
  | turned {late draining : Bool} {phase : Phase} :
      s.phase = .top → phase.batch = [] → (∀ batch, phase ≠ .events batch) →
      (phase = .left .drained ↔ s.draining = true ∧ s.allPass = true) →
      LoopEffect handler s (.top late) { s with draining, phase }
  | reported {batch : List Event} :
      s.phase = .wait → (∀ e ∈ batch, s.reports e = true) → (batch.map Event.source).Nodup →
      LoopEffect handler s (.wait (.events batch)) { s with phase := .events batch }
  | unreported {o : WaitOutcome} {phase : Phase} :
      s.phase = .wait → phase = .top ∨ phase = .left .failed →
      LoopEffect handler s (.wait o) { s with phase }
  | batchEnd {script : List SendOutcome} :
      s.reactor.control = .idle → s.phase = .events [] →
      LoopEffect handler s (.next script) { s with phase := .top }
  | listening {script : List SendOutcome} {batch : List Event} :
      s.reactor.control = .idle → s.phase = .events (.listen :: batch) →
      LoopEffect handler s (.next script) { s with phase := .accepting batch }
  | drained {script : List SendOutcome} {batch : List Event} {r : ReactorState} :
      s.phase = .events (.done :: batch) → s.reactor.step handler .drain = some r →
      LoopEffect handler s (.next script) (s.become r (.events batch))
  | dispatched {script : List SendOutcome} {fd id : Nat} {flags : Events} {batch : List Event}
      {r : ReactorState} :
      s.reactor.control = .idle → s.phase = .events (.conn fd flags id :: batch) →
      s.reactor.step handler (.event fd flags script) = some r →
      LoopEffect handler s (.next script) (s.become r (.events batch))
  | accepted {fd : Nat} {batch : List Event} {r : ReactorState} :
      s.phase = .accepting batch → s.reactor.step handler (.accept fd) = some r →
      LoopEffect handler s (.accept (some fd)) { s with reactor := r, fds := s.fds ++ [fd] }
  | refused {batch : List Event} :
      s.phase = .accepting batch →
      LoopEffect handler s (.accept none) { s with phase := .events batch }
  | beside {a : Action} {r : ReactorState} :
      s.beside a = true → s.reactor.step handler a = some r →
      LoopEffect handler s (.inner a) (s.become r s.phase)

section StepLoop

variable {handler : List UInt8 → Option (List UInt8)} {s t : LoopState}

theorem top_effect {late : Bool} (h : s.top late = some t) :
    LoopEffect handler s (.top late) t := by
  unfold LoopState.top at h
  split at h
  · rename_i htop
    split at h
    · rename_i hdraining
      split at h
      · rename_i hpass
        cases h
        exact .turned htop rfl (by simp) (iff_of_true rfl ⟨hdraining, hpass⟩)
      · rename_i hpass
        split at h <;> cases h <;>
          exact .turned htop rfl (by simp) (iff_of_false (by simp) fun hend => hpass hend.2)
    · rename_i hdraining
      split at h
      · cases h
        refine .turned htop ?_ ?_ (iff_of_false ?_ fun hend => hdraining hend.1)
        · rw [htop]
          rfl
        · simp [htop]
        · simp [htop]
      · cases h
        exact .turned htop rfl (by simp) (iff_of_false (by simp) fun hend => hdraining hend.1)
  · cases h

/-- Every step has one of these effects. -/
theorem step_loop {a : LoopAction} (h : s.step handler a = some t) : LoopEffect handler s a t := by
  cases a with
  | top late => exact top_effect h
  | wait o =>
    simp only [LoopState.step, LoopState.wait] at h
    split at h
    · rename_i hwait
      split at h
      · rename_i hbatch
        cases h
        exact .reported hwait (List.all_eq_true.mp hbatch.1) hbatch.2.1
      · cases h
    · rename_i hwait
      cases h
      exact .unreported hwait (.inl rfl)
    · rename_i hwait
      cases h
      refine .unreported hwait ?_
      split
      · exact .inl rfl
      · exact .inr rfl
    · cases h
  | next script =>
    simp only [LoopState.step, LoopState.next] at h
    split at h
    · rename_i hidle hphase
      cases h
      exact .batchEnd hidle hphase
    · rename_i hidle hphase
      cases h
      exact .listening hidle hphase
    · rename_i hidle hphase
      obtain ⟨r, hr, rfl⟩ := Option.map_eq_some_iff.mp h
      exact .drained hphase hr
    · rename_i hidle hphase
      obtain ⟨r, hr, rfl⟩ := Option.map_eq_some_iff.mp h
      exact .dispatched hidle hphase hr
    · cases h
  | accept client =>
    simp only [LoopState.step, LoopState.accept] at h
    split at h
    · rename_i hphase
      obtain ⟨r, hr, rfl⟩ := Option.map_eq_some_iff.mp h
      exact .accepted hphase hr
    · rename_i hphase
      cases h
      exact .refused hphase
    · cases h
  | inner a =>
    simp only [LoopState.step, LoopState.inner] at h
    split at h
    · rename_i hbeside
      obtain ⟨r, hr, rfl⟩ := Option.map_eq_some_iff.mp h
      exact .beside hbeside hr
    · cases h

end StepLoop

/-! ## The loop and the reactor -/

section Refinement

variable {handler : List UInt8 → Option (List UInt8)} {s t : LoopState}

theorem action_step {a : LoopAction} (h : s.step handler a = some t) {b : Action}
    (hb : s.action a = some b) : s.reactor.step handler b = some t.reactor := by
  cases step_loop h with
  | turned => cases hb
  | reported => cases hb
  | unreported => cases hb
  | batchEnd _ hphase =>
    rw [LoopState.action, hphase] at hb
    cases hb
  | listening _ hphase =>
    rw [LoopState.action, hphase] at hb
    cases hb
  | drained hphase hr =>
    rw [LoopState.action, hphase] at hb
    cases hb
    exact hr
  | dispatched _ hphase hr =>
    rw [LoopState.action, hphase] at hb
    cases hb
    exact hr
  | accepted _ hr =>
    cases hb
    exact hr
  | refused => cases hb
  | beside _ hr =>
    cases hb
    exact hr

theorem action_none {a : LoopAction} (h : s.step handler a = some t) (hb : s.action a = none) :
    t.reactor = s.reactor := by
  cases step_loop h with
  | turned => rfl
  | reported => rfl
  | unreported => rfl
  | batchEnd => rfl
  | listening => rfl
  | drained hphase =>
    rw [LoopState.action, hphase] at hb
    cases hb
  | dispatched _ hphase =>
    rw [LoopState.action, hphase] at hb
    cases hb
  | accepted => cases hb
  | refused => rfl
  | beside => cases hb

/-- The loop moves the reactor by a step of the reactor, or leaves it alone. -/
theorem step_reactor {a : LoopAction} (h : s.step handler a = some t) :
    t.reactor = s.reactor ∨ ∃ b, s.reactor.step handler b = some t.reactor := by
  cases hb : s.action a with
  | none => exact .inl (action_none h hb)
  | some b => exact .inr ⟨b, action_step h hb⟩

/-- What the steps of the reactor keep, a step of the loop keeps. -/
theorem reactor_keeps {Inv : ReactorState → Prop}
    (hstep : ∀ r a r', Inv r → ReactorState.step handler r a = some r' → Inv r')
    {a : LoopAction} (h : s.step handler a = some t) (hs : Inv s.reactor) : Inv t.reactor := by
  rcases step_reactor h with heq | ⟨b, hb⟩
  · rw [heq]
    exact hs
  · exact hstep s.reactor b t.reactor hs hb

end Refinement

/-! ## What holds along every run -/

/-- Outside the loop over the events no handler runs. -/
def Resting (s : LoopState) : Prop :=
  (∀ batch, s.phase ≠ .events batch) → s.reactor.control = .idle

/-- The keys of `status` are all listed. -/
def Listed (s : LoopState) : Prop := ∀ fd c, s.reactor.status fd = some c → fd ∈ s.fds

section Invariants

variable {handler : List UInt8 → Option (List UInt8)} {s t : LoopState}

/-- Between two events the other threads step, and connections are closed at the end. -/
theorem inner_idle {a : Action} {r : ReactorState} (hbeside : s.beside a = true)
    (hidle : s.reactor.control = .idle) (h : s.reactor.step handler a = some r) :
    r.control = .idle ∧ ∀ fd c, r.status fd = some c → s.reactor.status fd = some c := by
  cases a with
  | accept fd => cases hbeside
  | event fd flags script => cases hbeside
  | drain => cases hbeside
  | recv o => simp [ReactorState.step, ReactorState.recv, hidle] at h
  | submit => simp [ReactorState.step, ReactorState.submit, hidle] at h
  | endTurn => simp [ReactorState.step, ReactorState.endTurn, hidle] at h
  | deliver script => simp [ReactorState.step, ReactorState.deliver, hidle] at h
  | take =>
    simp only [ReactorState.step, ReactorState.take] at h
    split at h
    · cases h
    · split at h
      · cases h
        exact ⟨hidle, fun _ _ hc => hc⟩
      · cases h
  | complete worker =>
    simp only [ReactorState.step, ReactorState.complete] at h
    obtain ⟨req, -, rfl⟩ := Option.map_eq_some_iff.mp h
    split <;> exact ⟨hidle, fun _ _ hc => hc⟩
  | stop =>
    cases h
    exact ⟨hidle, fun _ _ hc => hc⟩
  | finish fd =>
    simp only [ReactorState.step, ReactorState.finish] at h
    split at h
    · split at h
      · cases h
        refine ⟨hidle, fun fd' c hc => ?_⟩
        rcases put_open hc with ⟨-, hclosed⟩ | ⟨-, hother⟩
        · cases hclosed
        · exact hother
      · cases h
    · cases h

theorem resting_step {a : LoopAction} (h : Resting s) (hstep : s.step handler a = some t) :
    Resting t := by
  intro hphase
  cases step_loop hstep with
  | turned htop => exact h (by simp [htop])
  | reported => exact absurd rfl (hphase _)
  | unreported hwait => exact h (by simp [hwait])
  | batchEnd hidle => exact hidle
  | listening hidle => exact hidle
  | drained => exact absurd rfl (hphase _)
  | dispatched => exact absurd rfl (hphase _)
  | accepted _ hr =>
    -- `onaccept` runs between two events
    simp only [ReactorState.step, ReactorState.onaccept] at hr
    split at hr
    · rename_i hidle _
      cases hr
      exact hidle
    · cases hr
  | refused => exact absurd rfl (hphase _)
  | beside hbeside hr => exact (inner_idle hbeside (h hphase) hr).1

/-- Closed connections are taken off the list. -/
theorem Listed.become {b : Action} {r : ReactorState} (h : Listed s)
    (hr : s.reactor.step handler b = some r) (hnot : ∀ fd, b ≠ .accept fd) (phase : Phase) :
    Listed (s.become r phase) := by
  intro fd c hc
  rcases step_opens hr hc with ⟨haccept, -⟩ | ⟨c', hc', -⟩
  · exact absurd haccept (hnot fd)
  · exact List.mem_filter.mpr ⟨h fd c' hc', Option.isSome_iff_exists.mpr ⟨c, hc⟩⟩

theorem listed_step {a : LoopAction} (h : Listed s) (hstep : s.step handler a = some t) :
    Listed t := by
  cases step_loop hstep with
  | turned => exact h
  | reported => exact h
  | unreported => exact h
  | batchEnd => exact h
  | listening => exact h
  | drained _ hr => exact h.become hr (by simp) _
  | dispatched _ _ hr => exact h.become hr (by simp) _
  | @accepted fd _ _ _ hr =>
    intro fd' c hc
    rcases step_opens hr hc with ⟨haccept, -⟩ | ⟨c', hc', -⟩
    · cases haccept
      exact List.mem_append_right _ (List.mem_singleton.mpr rfl)
    · exact List.mem_append_left _ (h fd' c' hc')
  | refused => exact h
  | beside hbeside hr =>
    refine h.become hr (fun fd heq => ?_) _
    rw [heq] at hbeside
    cases hbeside

/-- The drain loop looks at every connection. -/
theorem allPass_iff (h : Listed s) :
    s.allPass = true ↔ ∀ fd c, s.reactor.status fd = some c → c.inflight ≤ 0 := by
  unfold LoopState.allPass
  rw [List.all_eq_true]
  constructor
  · intro hall fd c hc
    have hpass := hall fd (h fd c hc)
    rw [hc] at hpass
    exact of_decide_eq_true hpass
  · intro hall fd _
    split
    · rename_i c hc
      exact decide_eq_true (hall fd c hc)
    · rfl

end Invariants

end ServiceInfra.Reactor
