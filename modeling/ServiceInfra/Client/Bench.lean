import ServiceInfra.Library.Population
import ServiceInfra.Library.TransitionSystem
import ServiceInfra.ByteOrder
import ServiceInfra.Net.Submitted

/-!
# The benchmark client

`bench_client.cpp`: it opens some connections, keeps up to `depth` numbered messages in
flight on each, takes every message that comes back for the echo of the one with its
number, and ends with a verdict. One turn of the event loop is a row of steps, so that the
server may run between any two calls of `send` and `recv`. The phase that connects is left
out: the runs start where all connections are open.

## Numbers

`per_conn` is an `int`, and so the counts of one connection stay below `2 ^ 31`: they are
natural numbers here. The number in a message is the `uint64_t` of the source.
-/

namespace ServiceInfra.Client

open Library
open Net

/-! ## Messages -/

/-- The eight bytes that `memcpy` stores for a number, on a little-endian host. -/
def idBytes (id : UInt64) : List UInt8 := (writeU64Be id).reverse

/-- The number that `memcpy` reads back. -/
def readId (m : List UInt8) : UInt64 := readU64Be (m.take 8).reverse

/-- The byte at place `i` of a message. -/
def patternByte (id : UInt64) (i : Nat) : UInt8 :=
  ((id * 2654435761 + UInt64.ofNat i * 40503) >>> 13).toUInt8

/-- `make_msg`. -/
def makeMsg (id : UInt64) (size : Nat) : List UInt8 :=
  idBytes id ++ (List.range' 8 (size - 8)).map (patternByte id)

/-- `check_msg`; its second test, `m.compare(8, 0, "")`, compares nothing with nothing. -/
def checkMsg (id : UInt64) (m : List UInt8) (size : Nat) : Bool :=
  if m.length ≠ size then false
  else (List.range' 8 (size - 8)).all fun i => m.getD i 0 = patternByte id i

/-! ## One connection -/

/-- What `main` lets through of its arguments. -/
structure Args where
  perConn : Nat
  size : Nat
  depth : Nat
  check : Bool
  perConn_pos : 0 < perConn
  perConn_lt : perConn < 2 ^ 31
  depth_pos : 0 < depth
  le_size : 8 ≤ size
  size_le : size ≤ 65535

/-- `struct Conn`; `pending` without the times. -/
structure Conn where
  evCur : Events := {}
  nextId : Nat := 0
  doneCnt : Nat := 0
  inflight : Nat := 0
  outbuf : List UInt8 := []
  dec : MessageDecode := {}
  pending : Finset UInt64 := ∅
  deriving DecidableEq

/-- The counters of `main` that the messages change. -/
structure Tally where
  received : Nat := 0
  extra : Nat := 0
  tampered : Nat := 0
  deriving DecidableEq, Repr

namespace Conn

/-- `set_events`. -/
def setEvents (c : Conn) (want : Events) : Conn := { c with evCur := want }

/-- `flush_out`: the connection, the bytes the kernel took and the value returned. -/
def flushOut (c : Conn) : List SendOutcome → Option (Conn × List UInt8 × Bool)
  | [] => if c.outbuf = [] then some (c, [], true) else none
  | o :: script =>
      if c.outbuf = [] then some (c, [], true)
      else
        match o with
        | .accepted n =>
            -- a `send` that takes nothing returns 0
            if n = 0 then some (c, [], false)
            else
              (flushOut { c with outbuf := c.outbuf.drop n } script).map fun (c', taken, ok) =>
                (c', c.outbuf.take n ++ taken, ok)
        | .intr => flushOut c script
        | .again => some (c, [], true)
        | .error => some (c, [], false)

/-- What is registered behind a flush. -/
def want (c : Conn) : Events := { epollin := true, epollout := decide (c.outbuf ≠ []) }

/-- A flush and, where it went well, the events that it leaves to wait for. -/
def flush (c : Conn) (script : List SendOutcome) : Option (Conn × List UInt8 × Bool) :=
  (c.flushOut script).map fun (c, taken, ok) =>
    (if ok then c.setEvents c.want else c, taken, ok)

variable (A : Args)

/-- A turn of the loop of `pump_send`. -/
def pumpOne (c : Conn) : Conn :=
  let id := UInt64.ofNat c.nextId
  { c with
    nextId := c.nextId + 1
    pending := insert id c.pending
    outbuf := c.outbuf ++ encode (makeMsg id A.size)
    inflight := c.inflight + 1 }

/-- The loop of `pump_send`; it has no more turns than there are messages to send. -/
def pumpLoop : Nat → Conn → Conn
  | 0, c => c
  | turns + 1, c =>
      if c.nextId < A.perConn ∧ c.inflight < A.depth then pumpLoop turns (c.pumpOne A) else c

/-- `pump_send`. -/
def pumpSend (c : Conn) (script : List SendOutcome) : Option (Conn × List UInt8 × Bool) :=
  (c.pumpLoop A (A.perConn - c.nextId)).flush script

/-- A message that came back answers the message with its number. -/
def Answers (c : Conn) (msg : List UInt8) : Prop := 8 ≤ msg.length ∧ readId msg ∈ c.pending

instance (c : Conn) (msg : List UInt8) : Decidable (c.Answers msg) :=
  inferInstanceAs (Decidable (_ ∧ _))

/-- One turn of that loop: a message that came back. -/
def onMessage (c : Conn) (k : Tally) (msg : List UInt8) : Conn × Tally :=
  if c.Answers msg then
    ({ c with
        pending := c.pending.erase (readId msg)
        inflight := c.inflight - 1
        doneCnt := c.doneCnt + 1 },
      { k with
        received := k.received + 1
        tampered :=
          if A.check && !checkMsg (readId msg) msg A.size then k.tampered + 1 else k.tampered })
  else (c, { k with extra := k.extra + 1 })

/-- The loop over the messages of a chunk. -/
def onMessages (c : Conn) (k : Tally) (got : List (List UInt8)) : Conn × Tally :=
  got.foldl (fun (c, k) msg => c.onMessage A k msg) (c, k)

/-- How the loop over `recv` goes on. -/
inductive RecvNext where
  | again
  /-- The loop is left, with `fail` or without. -/
  | leave (fail : Bool)
  deriving DecidableEq, Repr

/-- A turn of the loop over `recv`; an interrupted call is made once more. -/
def onRecv (c : Conn) (k : Tally) : RecvOutcome → Conn × Tally × RecvNext
  | .data bytes =>
      let dec := c.dec.feed bytes
      if dec.brokenmessage then ({ c with dec }, k, .leave true)
      else
        let (got, dec) := dec.take
        let (c, k) := onMessages A { c with dec } k got
        (c, k, if A.perConn ≤ c.doneCnt then .leave false else .again)
  | .eof => (c, k, .leave (decide (c.doneCnt < A.perConn)))
  | .again => (c, k, .leave false)
  | .error => (c, k, .leave true)

end Conn

/-! ## The event loop -/

/-- Where `main` stands. -/
inductive Control (W : Type) where
  /-- In the loop that calls `pump_send` once for each connection. -/
  | sending (rest : List W)
  /-- At the top of the loop over the events. -/
  | waiting
  /-- At the test of `EPOLLOUT` of an event. -/
  | writable (w : W) (e : Events)
  /-- At the test of `EPOLLIN`. -/
  | readable (w : W) (e : Events)
  /-- In the loop over `recv`. -/
  | receiving (w : W)
  /-- At the test in front of `pump_send`. -/
  | pumping (w : W)
  /-- At the test of `fail` and what follows it. -/
  | ending (w : W) (fail : Bool)
  /-- `main` has returned; `true` is `PASS`. -/
  | exited (ok : Bool)
  deriving DecidableEq

/-- What has happened on a connection. -/
structure Traffic where
  /-- The bytes the kernel took. -/
  sent : List UInt8 := []
  /-- The bytes read. -/
  fed : List UInt8 := []
  deriving DecidableEq

/-- The client with one connection for every `W`. -/
structure Bench (W : Type) where
  control : Control W
  /-- The connections that are open. -/
  cs : W → Option Conn := fun _ => some {}
  tally : Tally := {}
  errors : Nat := 0
  alive : Nat
  traffic : W → Traffic := fun _ => {}

/-- The labels of the steps. -/
inductive BenchAction (W : Type) where
  /-- The `pump_send` of the next connection, in front of the event loop. -/
  | start (script : List SendOutcome)
  /-- That loop is through. -/
  | loop
  /-- `epoll_wait` reports an event. -/
  | event (w : W) (e : Events)
  | write (script : List SendOutcome)
  | read
  | recv (o : RecvOutcome)
  | pump (script : List SendOutcome)
  | finish
  /-- The event loop is left: at the deadline, at an error of `epoll_wait`, or at its end. -/
  | exit
  deriving DecidableEq, Repr

namespace Bench

variable {W : Type} [DecidableEq W]

/-- A connection as it is now, with what the kernel took and what was read. -/
def put (s : Bench W) (w : W) (c : Option Conn) (taken fed : List UInt8) : Bench W :=
  { s with
    cs := Function.update s.cs w c
    traffic := Function.update s.traffic w
      { sent := (s.traffic w).sent ++ taken, fed := (s.traffic w).fed ++ fed } }

@[simp] theorem put_cs_self (s : Bench W) (w : W) (c : Option Conn) (taken fed : List UInt8) :
    (s.put w c taken fed).cs w = c :=
  Function.update_self ..

@[simp] theorem put_cs_of_ne (s : Bench W) {v w : W} (hvw : v ≠ w) (c : Option Conn)
    (taken fed : List UInt8) : (s.put w c taken fed).cs v = s.cs v :=
  Function.update_of_ne hvw ..

@[simp] theorem put_traffic_self (s : Bench W) (w : W) (c : Option Conn)
    (taken fed : List UInt8) :
    (s.put w c taken fed).traffic w =
      { sent := (s.traffic w).sent ++ taken, fed := (s.traffic w).fed ++ fed } :=
  Function.update_self ..

@[simp] theorem put_traffic_of_ne (s : Bench W) {v w : W} (hvw : v ≠ w) (c : Option Conn)
    (taken fed : List UInt8) : (s.put w c taken fed).traffic v = s.traffic v :=
  Function.update_of_ne hvw ..

variable (A : Args)

/-- One turn of the loop in front of the event loop. -/
def start (s : Bench W) (script : List SendOutcome) : Option (Bench W) :=
  match s.control with
  | .sending (w :: rest) =>
      (s.cs w).bind fun c =>
        (c.pumpSend A script).map fun (c, taken, ok) =>
          { s with control := if ok then .sending rest else .exited false }.put w (some c) taken []
  | _ => none

def loop (s : Bench W) : Option (Bench W) :=
  match s.control with
  | .sending [] => some { s with control := .waiting }
  | _ => none

/-- The event loop up to the test of `EPOLLOUT`; a descriptor without a connection is
passed over. -/
def event (s : Bench W) (w : W) (e : Events) : Option (Bench W) :=
  match s.control with
  | .waiting =>
      if 0 < s.alive then
        match s.cs w with
        | none => some s
        | some _ =>
            if e.epollerr ∨ e.epollhup then some { s with control := .ending w true }
            else some { s with control := .writable w e }
      else none
  | _ => none

def write (s : Bench W) (script : List SendOutcome) : Option (Bench W) :=
  match s.control with
  | .writable w e =>
      if e.epollout then
        (s.cs w).bind fun c =>
          (c.flush script).map fun (c, taken, ok) =>
            { s with control := if ok then .readable w e else .ending w true }.put w (some c)
              taken []
      else some { s with control := .readable w e }
  | _ => none

def read (s : Bench W) : Option (Bench W) :=
  match s.control with
  | .readable w e => some { s with control := if e.epollin then .receiving w else .pumping w }
  | _ => none

/-- A turn of the loop over `recv`. -/
def recv (s : Bench W) (o : RecvOutcome) : Option (Bench W) :=
  match s.control with
  | .receiving w =>
      (s.cs w).map fun c =>
        let (c, tally, next) := c.onRecv A s.tally o
        let control : Control W :=
          match next with
          | .again => .receiving w
          | .leave fail => if fail then .ending w true else .pumping w
        { s with control, tally }.put w (some c) [] o.bytes
  | _ => none

/-- More messages are sent while some are left to be answered. -/
def pump (s : Bench W) (script : List SendOutcome) : Option (Bench W) :=
  match s.control with
  | .pumping w =>
      (s.cs w).bind fun c =>
        if c.doneCnt < A.perConn then
          (c.pumpSend A script).map fun (c, taken, ok) =>
            { s with control := .ending w !ok }.put w (some c) taken []
        else some { s with control := .ending w false }
  | _ => none

/-- A connection that has failed or is through is closed. -/
def finish (s : Bench W) : Option (Bench W) :=
  match s.control with
  | .ending w fail =>
      (s.cs w).map fun c =>
        if fail then
          { s with
            control := .waiting, errors := s.errors + 1, alive := s.alive - 1 }.put w none [] []
        else if A.perConn ≤ c.doneCnt ∧ c.inflight = 0 ∧ c.outbuf = [] then
          { s with control := .waiting, alive := s.alive - 1 }.put w none [] []
        else { s with control := .waiting }
  | _ => none

variable [Fintype W]

/-- `expected`. -/
def expected (W : Type) [Fintype W] (A : Args) : Nat := Fintype.card W * A.perConn

/-- `ok` at the end of `main`. -/
def verdict (s : Bench W) : Bool :=
  s.tally.received == expected W A && s.tally.extra == 0 && s.errors == 0 &&
    s.tally.tampered == 0 && s.alive == 0

def exit (s : Bench W) : Option (Bench W) :=
  match s.control with
  | .waiting => some { s with control := .exited (s.verdict A) }
  | _ => none

/-- One step. -/
def step (s : Bench W) : BenchAction W → Option (Bench W)
  | .start script => s.start A script
  | .loop => s.loop
  | .event w e => s.event w e
  | .write script => s.write script
  | .read => s.read
  | .recv o => s.recv A o
  | .pump script => s.pump A script
  | .finish => s.finish A
  | .exit => s.exit A

/-- Behind the phase that connects; `order` is that of the map. -/
def connected (order : List W) : Bench W where
  control := .sending order
  cs _ := some { evCur := { epollin := true } }
  alive := Fintype.card W

end Bench

/-- The client, from where all connections are open. -/
def bench (W : Type) [DecidableEq W] [Fintype W] (A : Args) :
    TransitionSystem (Bench W) (BenchAction W) where
  init s := ∃ order : List W, order.Nodup ∧ (∀ w, w ∈ order) ∧ s = Bench.connected order
  step s a t := s.step A a = some t

end ServiceInfra.Client
