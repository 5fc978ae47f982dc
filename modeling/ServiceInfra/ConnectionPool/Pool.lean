import ServiceInfra.Library.PartialRun
import ServiceInfra.Library.TransitionSystem

/-!
# ConnectionPool

The connection pool with its threads as one transition system. `acquire` runs as a task on
the workers of `internal_pool_`, guards call `release` from any thread, and `scanLoop` and
the destructor run on threads of their own. A critical section of `mutex_` is one step; what
happens outside of it (opening connections, the ping, a notify, a `delete`) is a step of its
own. All wait on the one condition variable `cv_`.

What the environment decides is in the label: the addresses of new connections and whether
they are valid, the outcome of a ping, which thread a notify wakes, spurious wake-ups and
timeouts, and the connections that have been idle for too long.

## Left out

- the times in `borrow_time_` and `return_time_`, of which only the keys are kept
- `warn_` and the log lines
-/

namespace ServiceInfra.ConnectionPool

/-! ## State -/

/-- A `Connection*`. -/
abbrev Conn := Nat

/-- `min_conn_` and `max_conn_`. -/
structure Limits where
  minConn : UInt64
  maxConn : UInt64
  le : minConn ≤ maxConn

/-- Where a worker of `internal_pool_` stands in the task of `acquire`, by what comes next. -/
inductive Task where
  /-- The worker has no task. -/
  | free
  /-- The first critical section, which tests `stopping_`. -/
  | begun
  /-- The second, which decides whether to expand. -/
  | unstopped
  /-- The first critical section of `expand`. -/
  | expanding
  /-- The loop of `expand`, with its local variables. -/
  | opening (need : UInt64) (retries i : Nat) (tem : List Conn)
  /-- The second critical section of `expand`. -/
  | opened (need : UInt64) (tem : List Conn)
  /-- The notify of `expand`. -/
  | expanded
  /-- The third critical section, up to the wait. -/
  | arriving
  /-- Asleep on `cv_`. -/
  | blocked
  /-- Awake, and not back in the critical section yet. -/
  | woken
  /-- The ping of the connection taken. -/
  | pinging (conn : Conn)
  /-- The `delete` behind the critical section of a failed ping. -/
  | failed (conn : Conn)
  /-- The notify behind it. -/
  | deleted
  deriving DecidableEq, Repr

/-- Where `scanLoop` stands. -/
inductive Scanner where
  /-- At the top of its loop. -/
  | running
  | blocked
  | woken
  /-- It has returned. -/
  | left
  deriving DecidableEq, Repr

/-- Where the destructor stands. -/
inductive Destructor where
  | notStarted
  /-- `stopping_` is set, the `notify_all` comes next. -/
  | stopped
  /-- `scanner_thread_.join()`. -/
  | joining
  /-- `internal_pool_.reset()`. -/
  | resetting
  /-- The last critical section, up to the wait. -/
  | arriving
  | blocked
  | woken
  | finished
  deriving DecidableEq, Repr

/-- The members of the pool, the places of its threads, and the guards. -/
structure PoolState (W : Type) where
  /-- `idle_`. -/
  idle : List Conn
  /-- `in_use_`. -/
  inUse : List Conn := []
  /-- The keys of `borrow_time_`. -/
  borrowTime : Finset Conn := ∅
  /-- The keys of `return_time_`. -/
  returnTime : Finset Conn := ∅
  /-- `total_conn_`. -/
  total : UInt64
  stopping : Bool := false
  tasks : W → Task := fun _ => .free
  scanner : Scanner := .running
  destructor : Destructor := .notStarted
  /-- How many calls of `release` have their notify to issue. -/
  releasing : Nat := 0
  /-- The connections that guards hold and have not called back with. -/
  lent : List Conn := []
  /-- The connections that have been constructed and not deleted. -/
  alive : Finset Conn

/-- A thread that waits on `cv_`. -/
inductive Waiter (W : Type) where
  | task (w : W)
  | scanner
  | destructor
  deriving DecidableEq, Repr

/-- The labels of the steps. -/
inductive PoolAction (W : Type) where
  /-- The worker gets a task of `acquire`. -/
  | begin_ (w : W)
  /-- The first or second critical section of the task, or one of `expand`. -/
  | enter (w : W)
  /-- A turn of the loop of `expand`: the connection, where it is valid. -/
  | open_ (w : W) (conn : Option Conn)
  /-- The end of that loop. -/
  | openEnd (w : W)
  /-- The third critical section from where it (re)gains the mutex, perhaps too late. -/
  | take (w : W) (late : Bool)
  /-- A wake-up of the task by its timeout, or a spurious one. -/
  | wake (w : W)
  /-- The ping and, where it fails, the critical section behind it. -/
  | ping (w : W) (ok : Bool)
  | delete (w : W)
  /-- The notify of `expand` or of a failed ping, and the thread it wakes. -/
  | notify (w : W) (waiter : Option (Waiter W))
  /-- The callback of a guard. -/
  | release (conn : Conn)
  | releaseNotify (waiter : Option (Waiter W))
  /-- `scanLoop` up to its wait. -/
  | scanWait
  | scanWake
  /-- `scanLoop` behind a wake-up; at a timeout with the connections idle for too long. -/
  | scan (expired : Option (List Conn))
  /-- The destructor sets `stopping_`. -/
  | stop
  | notifyAll
  /-- The destructor has joined the threads it waits for. -/
  | join
  /-- The last critical section of the destructor from where it (re)gains the mutex. -/
  | destroy (late : Bool)
  | destructorWake
  deriving DecidableEq, Repr

/-! ## Steps -/

namespace PoolState

variable {W : Type} [DecidableEq W]

/-- The pool behind its constructor, with the `min_conn` connections that this opened. -/
def start (L : Limits) (conns : List Conn) : PoolState W where
  idle := conns
  total := L.minConn
  alive := conns.toFinset

/-- The worker goes on to another place. -/
def goTo (s : PoolState W) (w : W) (t : Task) : PoolState W :=
  { s with tasks := Function.update s.tasks w t }

@[simp] theorem goTo_self (s : PoolState W) (w : W) (t : Task) : (s.goTo w t).tasks w = t :=
  Function.update_self ..

@[simp] theorem goTo_of_ne (s : PoolState W) {v w : W} (h : v ≠ w) (t : Task) :
    (s.goTo w t).tasks v = s.tasks v :=
  Function.update_of_ne h ..

variable [Fintype W]

/-- `cv_.notify_one()`: it wakes one of the waiting threads, none only where none waits. -/
def notifyOne (s : PoolState W) : Option (Waiter W) → Option (PoolState W)
  | some (.task w) => if s.tasks w = .blocked then some (s.goTo w .woken) else none
  | some .scanner => if s.scanner = .blocked then some { s with scanner := .woken } else none
  | some .destructor =>
      if s.destructor = .blocked then some { s with destructor := .woken } else none
  | none =>
      if (∀ w, s.tasks w ≠ .blocked) ∧ s.scanner ≠ .blocked ∧ s.destructor ≠ .blocked then some s
      else none

/-- `internal_pool_` still has its workers. -/
def staffed (s : PoolState W) : Bool :=
  match s.destructor with
  | .notStarted | .stopped | .joining | .resetting => true
  | _ => false

/-- The critical sections of a task that do not wait. -/
def enter (L : Limits) (s : PoolState W) (w : W) : Option (PoolState W) :=
  match s.tasks w with
  | .begun => some (s.goTo w (if s.stopping then .free else .unstopped))
  | .unstopped =>
      some (s.goTo w (if s.idle = [] ∧ s.total < L.maxConn then .expanding else .arriving))
  | .expanding =>
      let need := min 2 (L.maxConn - s.total)
      if need = 0 then some (s.goTo w .arriving)
      else some ({ s with total := s.total + need }.goTo w (.opening need need.toNat 0 []))
  | .opened need tem =>
      some ({ s with
        total := s.total - need + UInt64.ofNat tem.length
        idle := s.idle ++ tem }.goTo w .expanded)
  | _ => none

/-- A turn of the loop of `expand`; a connection that is not valid is deleted at once. -/
def open_ (s : PoolState W) (w : W) (conn : Option Conn) : Option (PoolState W) :=
  match s.tasks w with
  | .opening need retries i tem =>
      if i < retries then
        match conn with
        | some c =>
            if c ∈ s.alive then none
            else some ({ s with alive := insert c s.alive }.goTo w
              (.opening need retries (i + 1) (tem ++ [c])))
        | none =>
            if 5 < retries + 1 then some (s.goTo w (.opened need tem))
            else some (s.goTo w (.opening need (retries + 1) (i + 1) tem))
      else none
  | _ => none

/-- The loop of `expand` ends at `i == retries`. -/
def openEnd (s : PoolState W) (w : W) : Option (PoolState W) :=
  match s.tasks w with
  | .opening need retries i tem =>
      if i < retries then none else some (s.goTo w (.opened need tem))
  | _ => none

/-- The end of the third critical section: the last idle connection is taken. -/
def borrow (s : PoolState W) (w : W) (c : Conn) : PoolState W :=
  { s with
    returnTime := s.returnTime.erase c
    idle := s.idle.dropLast
    inUse := s.inUse ++ [c]
    borrowTime := insert c s.borrowTime }.goTo w (.pinging c)

/-- The third critical section: return an empty guard, take a connection, or (again) sleep. -/
def take (s : PoolState W) (w : W) (late : Bool) : Option (PoolState W) :=
  if s.tasks w = .arriving ∨ s.tasks w = .woken then
    if s.stopping then some (s.goTo w .free)
    else
      match s.idle.getLast? with
      | some c => some (s.borrow w c)
      | none => some (s.goTo w (if late then .free else .blocked))
  else none

def wake (s : PoolState W) (w : W) : Option (PoolState W) :=
  if s.tasks w = .blocked then some (s.goTo w .woken) else none

/-- The guard is returned, or the connection is taken out of the books. -/
def ping (s : PoolState W) (w : W) (ok : Bool) : Option (PoolState W) :=
  match s.tasks w with
  | .pinging c =>
      if ok then some ({ s with lent := s.lent ++ [c] }.goTo w .free)
      else some ({ s with
        total := s.total - 1
        inUse := s.inUse.filter (· ≠ c)
        borrowTime := s.borrowTime.erase c }.goTo w (.failed c))
  | _ => none

def delete (s : PoolState W) (w : W) : Option (PoolState W) :=
  match s.tasks w with
  | .failed c => some ({ s with alive := s.alive.erase c }.goTo w .deleted)
  | _ => none

def notify (s : PoolState W) (w : W) (waiter : Option (Waiter W)) : Option (PoolState W) :=
  match s.tasks w with
  | .expanded => (s.goTo w .arriving).notifyOne waiter
  | .deleted => (s.goTo w .free).notifyOne waiter
  | _ => none

/-- `release`, called back by a guard that holds `c`. -/
def release (s : PoolState W) (c : Conn) : Option (PoolState W) :=
  if c ∈ s.lent then
    let s := { s with lent := s.lent.erase c }
    if c ∈ s.borrowTime then
      let s := { s with
        inUse := s.inUse.filter (· ≠ c)
        borrowTime := s.borrowTime.erase c }
      -- returns without a notify
      if s.stopping then some { s with alive := s.alive.erase c }
      else some { s with
        idle := s.idle ++ [c]
        returnTime := insert c s.returnTime
        releasing := s.releasing + 1 }
    else some s
  else none

def releaseNotify (s : PoolState W) (waiter : Option (Waiter W)) : Option (PoolState W) :=
  if 0 < s.releasing then { s with releasing := s.releasing - 1 }.notifyOne waiter else none

def scanWait (s : PoolState W) : Option (PoolState W) :=
  if s.scanner = .running then
    some { s with scanner := if s.stopping then .left else .blocked }
  else none

def scanWake (s : PoolState W) : Option (PoolState W) :=
  if s.scanner = .blocked then some { s with scanner := .woken } else none

/-- The loop of `scanLoop` over `return_tem_`. -/
def reap (L : Limits) : List Conn → PoolState W → PoolState W
  | [], s => s
  | c :: expired, s =>
      if s.total ≤ L.minConn then s
      else reap L expired { s with
        idle := s.idle.filter (· ≠ c)
        returnTime := s.returnTime.erase c
        total := s.total - 1
        alive := s.alive.erase c }

/-- `scanLoop` behind a wake-up. -/
def scan (L : Limits) (s : PoolState W) (expired : Option (List Conn)) : Option (PoolState W) :=
  if s.scanner = .woken then
    if s.stopping then some { s with scanner := .left }
    else
      match expired with
      | none => some { s with scanner := .blocked }
      | some expired =>
          if expired.Nodup ∧ ∀ c ∈ expired, c ∈ s.returnTime then
            let s := if L.minConn < s.total then s.reap L expired else s
            some { s with scanner := .running }
          else none
  else none

/-- `stopping_ = true`. -/
def stop (s : PoolState W) : Option (PoolState W) :=
  if s.destructor = .notStarted then some { s with stopping := true, destructor := .stopped }
  else none

def notifyAll (s : PoolState W) : Option (PoolState W) :=
  if s.destructor = .stopped then
    some { s with
      tasks := fun w => if s.tasks w = .blocked then .woken else s.tasks w
      scanner := if s.scanner = .blocked then .woken else s.scanner
      destructor := .joining }
  else none

/-- `join` returns when `scanLoop` has, `reset` when no worker has a task. -/
def join (s : PoolState W) : Option (PoolState W) :=
  match s.destructor with
  | .joining => if s.scanner = .left then some { s with destructor := .resetting } else none
  | .resetting =>
      if ∀ w, s.tasks w = .free then some { s with destructor := .arriving } else none
  | _ => none

/-- The last critical section: the idle connections are deleted, or it (again) sleeps. -/
def destroy (s : PoolState W) (late : Bool) : Option (PoolState W) :=
  if s.destructor = .arriving ∧ late = false ∨ s.destructor = .woken then
    if s.inUse = [] ∨ late = true then
      some { s with alive := s.alive \ s.idle.toFinset, idle := [], destructor := .finished }
    else some { s with destructor := .blocked }
  else none

def destructorWake (s : PoolState W) : Option (PoolState W) :=
  if s.destructor = .blocked then some { s with destructor := .woken } else none

/-- One step. -/
def step (L : Limits) (s : PoolState W) : PoolAction W → Option (PoolState W)
  | .begin_ w =>
      if s.tasks w = .free ∧ s.staffed = true then some (s.goTo w .begun) else none
  | .enter w => s.enter L w
  | .open_ w conn => s.open_ w conn
  | .openEnd w => s.openEnd w
  | .take w late => s.take w late
  | .wake w => s.wake w
  | .ping w ok => s.ping w ok
  | .delete w => s.delete w
  | .notify w waiter => s.notify w waiter
  | .release c => s.release c
  | .releaseNotify waiter => s.releaseNotify waiter
  | .scanWait => s.scanWait
  | .scanWake => s.scanWake
  | .scan expired => s.scan L expired
  | .stop => s.stop
  | .notifyAll => s.notifyAll
  | .join => s.join
  | .destroy late => s.destroy late
  | .destructorWake => s.destructorWake

end PoolState

open Library

/-- The pool from its constructor on, which opens any `min_conn` connections. -/
def pool {W : Type} [DecidableEq W] [Fintype W] (L : Limits) :
    TransitionSystem (PoolState W) (PoolAction W) where
  init s := ∃ conns : List Conn,
    conns.Nodup ∧ conns.length = L.minConn.toNat ∧ s = PoolState.start L conns
  step s a t := s.step L a = some t

end ServiceInfra.ConnectionPool
