import Mathlib.Logic.Function.Basic
import ServiceInfra.Library.TransitionSystem
import ServiceInfra.Net.Connection

/-!
# Epoll, its workers and its done queue

The server as one transition system. The reactor thread runs the handlers of `Epoll`, and
its place in a handler that loops is part of the state; the worker threads of the pool
take tasks and push finished items in between, at any point. What the environment decides
is in the label: the events reported, the outcomes of `recv` and `send`, the descriptor
`accept` returns, and which worker goes on.

## The parties

- the reactor: `event`, `recv`, `submit`, `endTurn`, `drain`, `deliver`, `finish`
- the kernel and the peers: `accept` on a descriptor that is not open, closes by events
- the workers: `take` from the pool, `complete` into the done queue
- the signal handler: `stop`

## Ghost data

Requests are numbered in the order in which they are decoded. `decoded`, `responded` and
`dropped` record what happened to them; no step looks at these.
-/

namespace ServiceInfra.Reactor

open Library
open Net

/-! ## State -/

/-- A decoded request: what the lambda given to the pool captures, and its number. -/
structure Request where
  fd : Nat
  id : Nat
  msg : List UInt8
  seq : Nat
  deriving DecidableEq, Repr

/-- `Donequeue::doit_item`, with the request it answers. -/
structure DoitItem where
  fd : Nat
  id : Nat
  resp : List UInt8
  req : Request
  deriving DecidableEq, Repr

/-- A response passed to `senddata` of the connection numbered `connId`. -/
structure Response where
  connId : Nat
  resp : List UInt8
  req : Request
  deriving DecidableEq, Repr

/-- Where the reactor thread stands. -/
inductive Control where
  /-- Between two events. -/
  | idle
  /-- At the top of the loop of `handreadable`. -/
  | reading (fd : Nat)
  /-- In the loop of `handreadable` that submits the requests of one turn. -/
  | submitting (fd : Nat) (reqs : List Request) (next : Connection.ReadNext)
  /-- In the loop of `ondone` over the drained items. -/
  | delivering (items : List DoitItem)
  deriving DecidableEq, Repr

/-- The requests the reactor has decoded and not yet submitted. -/
def Control.pending : Control → List Request
  | .submitting _ reqs _ => reqs
  | _ => []

/-- The items the reactor has drained and not yet delivered. -/
def Control.items : Control → List DoitItem
  | .delivering items => items
  | _ => []

/-- The members of `Epoll` that the handlers use, the pool and the done queue. -/
structure ReactorState where
  /-- `status`: the open connections by descriptor. -/
  status : Nat → Option Connection := fun _ => none
  /-- `conn_id`: the number given last. -/
  connId : Nat := 0
  stopping : Bool := false
  control : Control := .idle
  /-- `ThreadPool::tasks`. -/
  tasks : List Request := []
  /-- The tasks that worker threads are running. -/
  running : List Request := []
  /-- `Donequeue::queue`. -/
  queue : List DoitItem := []
  decoded : List Request := []
  responded : List Response := []
  /-- The requests of which the response found its connection closed. -/
  dropped : List Request := []

/-- `epoll_poll(4)`: the number of worker threads. -/
def epollPoll : Nat := 4

/-- The labels of the steps. -/
inductive Action where
  | accept (fd : Nat)
  | event (fd : Nat) (flags : Events) (script : List SendOutcome)
  | recv (o : RecvOutcome)
  | submit
  | endTurn
  | drain
  | deliver (script : List SendOutcome)
  | take
  | complete (worker : Nat)
  | stop
  | finish (fd : Nat)
  deriving DecidableEq, Repr

/-! ## Steps -/

namespace ReactorState

/-- Store a connection back, or `onclose` it. -/
def put (s : ReactorState) (fd : Nat) (c : Option Connection) : ReactorState :=
  { s with status := Function.update s.status fd c }

/-- After a handler returned `ok` the connection stays, otherwise it is closed. -/
def after (s : ReactorState) (fd : Nat) (r : Connection × Bool) : ReactorState :=
  s.put fd (if r.2 then some r.1 else none)

/-- One turn of the loop of `onaccept`: `accept` returned `fd`. -/
def onaccept (s : ReactorState) (fd : Nat) : Option ReactorState :=
  match s.control, s.status fd with
  | .idle, none =>
      -- `epoll_ctl`, `conn_id++` and `status.emplace`
      some ({ s with connId := s.connId + 1 }.put fd (some { connId := s.connId + 1 }))
  | _, _ => none

/-- `addevent` for a connection. -/
def addevent (s : ReactorState) (fd : Nat) (flags : Events) (script : List SendOutcome) :
    Option ReactorState :=
  match s.control, s.status fd with
  -- `start` and `addevent` both ignore a descriptor without a connection
  | .idle, none => some s
  | .idle, some c =>
      -- while draining, nothing is read any more
      if s.stopping then
        if flags.epollout then (c.handwrite script).map fun (c, _, ok) => s.after fd (c, ok)
        else some s
      else if flags.epollerr ∨ flags.epollhup then some (s.put fd none)
      else if flags.epollin then some { s with control := .reading fd }
      -- `EPOLLIN` is handled above
      else if flags.epollout then (c.handwrite script).map fun (c, _, ok) => s.after fd (c, ok)
      else some s
  | _, _ => none

/-- The requests decoded in one turn, numbered from `start` on. -/
def number (fd id : Nat) : Nat → List (List UInt8) → List Request
  | _, [] => []
  | start, msg :: msgs => ⟨fd, id, msg, start⟩ :: number fd id (start + 1) msgs

/-- A turn of the loop of `handreadable`, up to the requests it submits. -/
def recv (s : ReactorState) (o : RecvOutcome) : Option ReactorState :=
  match s.control with
  | .reading fd =>
      (s.status fd).map fun c =>
        let (c', msgs, next) := c.receive o
        -- each lambda captures the descriptor, the number of the connection and the message
        let reqs := number fd c.connId s.decoded.length msgs
        { s with decoded := s.decoded ++ reqs, control := .submitting fd reqs next }.put fd
          (some c')
  | _ => none

/-- `inflight++` and `pool->submit` of one request. -/
def submit (s : ReactorState) : Option ReactorState :=
  match s.control with
  | .submitting fd (req :: reqs) next =>
      (s.status fd).map fun c =>
        { s with tasks := s.tasks ++ [req], control := .submitting fd reqs next }.put fd
          (some c.submitted)
  | _ => none

/-- The end of a turn of `handreadable`, or of the loop of `ondone`. -/
def endTurn (s : ReactorState) : Option ReactorState :=
  match s.control with
  | .submitting fd [] .again => some { s with control := .reading fd }
  | .submitting fd [] .eof =>
      (s.status fd).map fun c => { s with control := .idle }.after fd c.eofReturn
  | .submitting fd [] (.ret ok) =>
      (s.status fd).map fun c => { s with control := .idle }.after fd (c, ok)
  | .delivering [] => some { s with control := .idle }
  | _ => none

/-- `ondone` up to its loop: read the eventfd and `drain`. -/
def drain (s : ReactorState) : Option ReactorState :=
  match s.control with
  | .idle => some { s with queue := [], control := .delivering s.queue }
  | _ => none

/-- One turn of the loop of `ondone`. -/
def deliver (s : ReactorState) (script : List SendOutcome) : Option ReactorState :=
  match s.control with
  | .delivering (item :: items) =>
      let s := { s with control := .delivering items }
      match s.status item.fd with
      -- closed since: `continue`
      | none => some { s with dropped := s.dropped ++ [item.req] }
      | some c =>
          -- the descriptor was given to another connection
          if c.connId ≠ item.id then some { s with dropped := s.dropped ++ [item.req] }
          else
            let c := { c with inflight := c.inflight - 1 }
            (c.senddata item.resp script).map fun (c', _, ok) =>
              let response : Response := ⟨c.connId, item.resp, item.req⟩
              let s := { s with responded := s.responded ++ [response] }
              -- `onclose` also where this was the last response of a half-closed connection
              let half := c'.peerClose ∧ c'.outbuffer = [] ∧ c'.inflight = 0
              s.after item.fd (c', ok && !decide half)
  | _ => none

/-- A worker takes the first task. -/
def take (s : ReactorState) : Option ReactorState :=
  match s.tasks with
  | [] => none
  | req :: tasks =>
      -- a worker that runs no task
      if s.running.length < epollPoll then some { s with tasks, running := s.running ++ [req] }
      else none

/-- A worker finishes its task and pushes the response; `workerLoop` catches what the
handler throws (`none`). -/
def complete (handler : List UInt8 → Option (List UInt8)) (s : ReactorState) (worker : Nat) :
    Option ReactorState :=
  (s.running[worker]?).map fun req =>
    let s := { s with running := s.running.eraseIdx worker }
    match handler req.msg with
    | some resp => { s with queue := s.queue ++ [⟨req.fd, req.id, resp, req⟩] }
    | none => s

/-- The end of `start`: a connection that is still open is closed. -/
def finish (s : ReactorState) (fd : Nat) : Option ReactorState :=
  match s.control, s.status fd with
  | .idle, some _ => if s.stopping then some (s.put fd none) else none
  | _, _ => none

/-- One step. -/
def step (handler : List UInt8 → Option (List UInt8)) (s : ReactorState) :
    Action → Option ReactorState
  | .accept fd => s.onaccept fd
  | .event fd flags script => s.addevent fd flags script
  | .recv o => s.recv o
  | .submit => s.submit
  | .endTurn => s.endTurn
  | .drain => s.drain
  | .deliver script => s.deliver script
  | .take => s.take
  | .complete worker => s.complete handler worker
  | .stop => some { s with stopping := true }
  | .finish fd => s.finish fd

/-- Steps in order. -/
def run (handler : List UInt8 → Option (List UInt8)) :
    List Action → ReactorState → Option ReactorState
  | [], s => some s
  | a :: as, s => (s.step handler a).bind (run handler as)

end ReactorState

/-- The server with a given message handler, from its start on. -/
def reactor (handler : List UInt8 → Option (List UInt8)) : TransitionSystem ReactorState Action where
  init s := s = {}
  step s a t := s.step handler a = some t

/-- What a list of steps leads to from the start is reachable. -/
theorem reachable_of_run {handler : List UInt8 → Option (List UInt8)} {as : List Action}
    {t : ReactorState} (h : ReactorState.run handler as {} = some t) :
    (reactor handler).Reachable t := by
  -- from any reachable state, so that the induction on the steps goes through
  have hfrom : ∀ {s : ReactorState}, (reactor handler).Reachable s →
      ReactorState.run handler as s = some t → (reactor handler).Reachable t := by
    clear h
    induction as with
    | nil =>
      intro s hs hrun
      cases hrun
      exact hs
    | cons a as ih =>
      intro s hs hrun
      obtain ⟨u, hstep, hrest⟩ := Option.bind_eq_some_iff.mp hrun
      exact ih (hs.step hstep) hrest
  exact hfrom (.of_init rfl) h

end ServiceInfra.Reactor
