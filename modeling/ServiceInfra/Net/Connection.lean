import ServiceInfra.Net.Message

/-!
# Connection

`net::Connection`: what the reactor does with one socket. `handreadable` reads and decodes
requests and submits them, `senddata` sends a response or queues what the kernel does not
take, `handwrite` sends from the queue. A call takes the outcomes of its `recv` or `send`
calls in order; it has no result where they run out before it returns, or where the
source runs into undefined behaviour.

## Numbers

`idx` and the result of `senddata`'s `send` are of type `int`: `toInt` is the conversion to
it, so what happens to a length of `2 ^ 31` or more is as in the source.
-/

namespace ServiceInfra.Net

/-! ## The socket -/

/-- Event flags, as registered with epoll or reported by it. -/
structure Events where
  epollin : Bool := false
  epollout : Bool := false
  epollerr : Bool := false
  epollhup : Bool := false
  epollrdhup : Bool := false
  deriving DecidableEq, Repr

/-- What one `send` does. -/
inductive SendOutcome where
  /-- The kernel takes `n` bytes, all when there are fewer. -/
  | accepted (n : Nat)
  /-- `EAGAIN` or `EWOULDBLOCK`. -/
  | again
  /-- `EINTR`. -/
  | intr
  /-- Any other error. -/
  | error
  deriving DecidableEq, Repr

/-- What one `recv` does. -/
inductive RecvOutcome where
  /-- Bytes arrive. -/
  | data (bytes : List UInt8)
  /-- The peer closed its side: 0 is returned. -/
  | eof
  /-- `EAGAIN` or `EINTR`. -/
  | again
  /-- Any other error. -/
  | error
  deriving DecidableEq, Repr

/-- The conversion to `int`. -/
def toInt (n : Int) : Int := Int.bmod n (2 ^ 32)

/-- The bytes the kernel takes from `data`. -/
def SendOutcome.taken (data : List UInt8) : SendOutcome → List UInt8
  | .accepted n => data.take n
  | _ => []

/-- The value `send` returns, as an `ssize_t`. -/
def SendOutcome.result (data : List UInt8) : SendOutcome → Int
  | .accepted n => (data.take n).length
  | _ => -1

/-! ## Conversion to `int` -/

theorem toInt_of_lt {n : Int} (hlow : -2 ^ 31 ≤ n) (hhigh : n < 2 ^ 31) : toInt n = n := by
  unfold toInt
  rw [Int.bmod_eq_of_le (by omega) (by omega)]

theorem toInt_le_of_nonneg {n : Int} (hn : 0 ≤ n) : toInt n ≤ n := by
  rw [toInt, Int.bmod_def]
  split <;> omega

theorem toInt_lt (n : Int) : toInt n < 2 ^ 31 := by
  have hlt := Int.bmod_lt (x := n) (m := 2 ^ 32) (by norm_num)
  unfold toInt
  omega

theorem toInt_neg_one : toInt (-1) = -1 := toInt_of_lt (by norm_num) (by norm_num)

/-! ## The connection -/

/-- `net::Connection` with its `fd_status`. -/
structure Connection where
  /-- `conn_id`, a 64-bit counter that no run makes wrap. -/
  connId : Nat
  outbuffer : List UInt8 := []
  idx : Int := 0
  decoder : MessageDecode := {}
  peerClose : Bool := false
  /-- An `int`: it holds the count of fewer than `2 ^ 31` requests. -/
  inflight : Int := 0
  closed : Bool := false
  /-- The events registered for the socket. -/
  events : Events := { epollin := true, epollrdhup := true }
  deriving DecidableEq, Repr

namespace Connection

/-- `set_event`. -/
def setEvent (c : Connection) (events : Events) : Connection := { c with events }

/-- `Outbuffer.insert(end, …)` and `set_event(EPOLLIN|EPOLLOUT)`. -/
def queue (c : Connection) (data : List UInt8) : Connection :=
  { c with outbuffer := c.outbuffer ++ data }.setEvent { epollin := true, epollout := true }

/-- `senddata`: the connection, the bytes the kernel took and the value returned. -/
def senddata (c : Connection) (accept : List UInt8) (script : List SendOutcome) :
    Option (Connection × List UInt8 × Bool) :=
  let data := encode accept
  if c.outbuffer ≠ [] then some (c.queue data, [], true)
  else
    match script with
    | [] => none
    | o :: script =>
        let achieve := toInt (o.result data)
        if achieve = toInt data.length then some (c, o.taken data, true)
        else if achieve = -1 then
          match o with
          | .again => some (c.queue data, [], true)
          | .intr => c.senddata accept script
          | .error => some ({ c with closed := true }, [], false)
          -- the kernel took bytes, and `errno` is left from an earlier call
          | .accepted _ => none
        -- `data.begin()+achieve` before the start
        else if achieve < 0 then none
        else some (c.queue (data.drop achieve.toNat), o.taken data, true)

/-- The end of `handwrite` once the buffer is sent. -/
def sentAll (c : Connection) : Connection × Bool :=
  let c := { c with idx := 0, outbuffer := [] }
  if c.peerClose ∧ c.inflight = 0 then (c, false)
  else if c.peerClose then (c.setEvent {}, true)
  else (c.setEvent { epollin := true }, true)

/-- The loop of `handwrite`. -/
def writeLoop (c : Connection) : List SendOutcome → Option (Connection × List UInt8 × Bool)
  | [] => none
  | o :: script =>
      -- past the loop the function ends without a return
      if c.idx < 0 ∨ c.outbuffer.length ≤ c.idx then none
      else
        let pending := c.outbuffer.drop c.idx.toNat
        match o with
        | .accepted _ =>
            if o.result pending = pending.length then
              let (c, ok) := c.sentAll
              some (c, pending, ok)
            else
              (writeLoop { c with idx := toInt (c.idx + o.result pending) } script).map
                fun (c, taken, ok) => (c, o.taken pending ++ taken, ok)
        | .again => some (c, [], true)
        | .intr => some (c, [], true)
        | .error => some (c, [], false)

/-- `handwrite`: the connection, the bytes the kernel took and the value returned. -/
def handwrite (c : Connection) (script : List SendOutcome) :
    Option (Connection × List UInt8 × Bool) :=
  if c.outbuffer = [] then some (c, [], !(c.peerClose && c.inflight == 0))
  else c.writeLoop script

/-! ## Reading -/

/-- How a turn of the loop of `handreadable` goes on once its requests are submitted. -/
inductive ReadNext where
  /-- `continue`. -/
  | again
  /-- The end of the stream was read. -/
  | eof
  /-- `return ok`. -/
  | ret (ok : Bool)
  deriving DecidableEq, Repr

/-- A turn of the loop of `handreadable` up to the requests it submits. -/
def receive (c : Connection) : RecvOutcome → Connection × List (List UInt8) × ReadNext
  | .data bytes =>
      let decoder := c.decoder.feed bytes
      if decoder.brokenmessage then ({ c with decoder }, [], .ret false)
      else
        let (msgs, decoder) := decoder.take
        ({ c with decoder }, msgs, .again)
  | .eof =>
      let c := { c with peerClose := true }
      if c.decoder.brokenmessage then (c, [], .eof)
      else
        let (msgs, decoder) := c.decoder.take
        ({ c with decoder }, msgs, .eof)
  | .again => (c, [], .ret true)
  | .error => (c, [], .ret false)

/-- `inflight++`, before each `pool->submit`. -/
def submitted (c : Connection) : Connection := { c with inflight := c.inflight + 1 }

/-- The end of `handreadable` at the end of the stream. -/
def eofReturn (c : Connection) : Connection × Bool :=
  if c.outbuffer = [] ∧ c.inflight = 0 then (c, false)
  else if c.outbuffer = [] then (c.setEvent {}, true)
  else (c.setEvent { epollout := true }, true)

/-- `handreadable`: the connection, the requests submitted and the value returned. -/
def handreadable (c : Connection) : List RecvOutcome → Option (Connection × List (List UInt8) × Bool)
  | [] => none
  | o :: script =>
      let (c, msgs, next) := c.receive o
      let c := msgs.foldl (fun c _ => c.submitted) c
      match next with
      | .again => (handreadable c script).map fun (c, msgs', ok) => (c, msgs ++ msgs', ok)
      | .eof =>
          let (c, ok) := c.eofReturn
          some (c, msgs, ok)
      | .ret ok => some (c, msgs, ok)

/-! ## How the calls end -/

/-- A count that the conversion keeps apart from the length leaves bytes behind it. -/
theorem drop_toInt_ne_nil {data : List UInt8} {n : Nat} (hn : n ≤ data.length)
    (hne : toInt n ≠ toInt data.length) : data.drop (toInt n).toNat ≠ [] := by
  have hle := toInt_le_of_nonneg (Int.natCast_nonneg n)
  intro hnil
  have hlong := List.drop_eq_nil_iff.mp hnil
  -- nothing left would mean that all bytes were counted
  have hall : n = data.length := by omega
  exact hne (by rw [hall])

theorem encode_ne_nil (msg : List UInt8) : encode msg ≠ [] := by
  apply List.ne_nil_of_length_pos
  rw [length_encode]
  omega

/-- `senddata` sends everything, or queues what it did not send, or reports an error. -/
theorem senddata_cases {c c' : Connection} {accept taken : List UInt8}
    {script : List SendOutcome} {ok : Bool} (h : c.senddata accept script = some (c', taken, ok)) :
    (c' = c ∧ ok = true) ∨ (∃ data, data ≠ [] ∧ c' = c.queue data ∧ ok = true) ∨
      (c' = { c with closed := true } ∧ ok = false ∧ .error ∈ script) := by
  -- every branch but the interrupted one ends the call
  induction script with
  | nil =>
    rw [senddata.eq_def] at h
    dsimp only at h
    split at h
    · cases h
      exact .inr (.inl ⟨_, encode_ne_nil accept, rfl, rfl⟩)
    · cases h
  | cons o script ih =>
    rw [senddata.eq_def] at h
    dsimp only at h
    split at h
    · cases h
      exact .inr (.inl ⟨_, encode_ne_nil accept, rfl, rfl⟩)
    · split at h
      · cases h
        exact .inl ⟨rfl, rfl⟩
      · rename_i hne
        split at h
        · cases o with
          | again =>
            cases h
            exact .inr (.inl ⟨_, encode_ne_nil accept, rfl, rfl⟩)
          | intr =>
            rcases ih h with hsent | hqueued | ⟨hc, hok, hmem⟩
            · exact .inl hsent
            · exact .inr (.inl hqueued)
            · exact .inr (.inr ⟨hc, hok, List.mem_cons_of_mem _ hmem⟩)
          | error =>
            cases h
            exact .inr (.inr ⟨rfl, rfl, List.mem_cons_self⟩)
          | accepted n => cases h
        · rename_i hfailed
          split at h
          · cases h
          · cases h
            refine .inr (.inl ⟨_, ?_, rfl, rfl⟩)
            -- the result is a count, since -1 is a branch of its own
            cases o with
            | accepted n =>
              refine drop_toInt_ne_nil ?_ hne
              rw [List.length_take]
              exact Nat.min_le_right _ _
            | again => exact absurd toInt_neg_one hfailed
            | intr => exact absurd toInt_neg_one hfailed
            | error => exact absurd toInt_neg_one hfailed

/-- The loop of `handwrite` runs with bytes queued. It stops with the cursor somewhere, in an
error or to be called again, or at the end of the buffer. -/
theorem writeLoop_cases {c c' : Connection} {taken : List UInt8} {script : List SendOutcome}
    {ok : Bool} (h : c.writeLoop script = some (c', taken, ok)) :
    c.outbuffer ≠ [] ∧
      ((∃ idx, c' = { c with idx } ∧ (ok = false → .error ∈ script)) ∨ c.sentAll = (c', ok)) := by
  induction script generalizing c taken with
  | nil => cases h
  | cons o script ih =>
    rw [writeLoop] at h
    split at h
    · cases h
    · rename_i hrange
      have hne : c.outbuffer ≠ [] := by
        intro hnil
        rw [hnil, List.length_nil] at hrange
        omega
      refine ⟨hne, ?_⟩
      cases o with
      | accepted n =>
        dsimp only at h
        split at h
        · cases h
          exact .inr rfl
        · -- the cursor moves, and the loop goes on
          obtain ⟨⟨d, taken', ok'⟩, hloop, heq⟩ := Option.map_eq_some_iff.mp h
          cases heq
          rcases (ih hloop).2 with ⟨idx, rfl, herror⟩ | hsent
          · exact .inl ⟨idx, rfl, fun hok => List.mem_cons_of_mem _ (herror hok)⟩
          · exact .inr hsent
      | again =>
        cases h
        exact .inl ⟨_, rfl, fun hok => by cases hok⟩
      | intr =>
        cases h
        exact .inl ⟨_, rfl, fun hok => by cases hok⟩
      | error =>
        cases h
        exact .inl ⟨_, rfl, fun _ => List.mem_cons_self⟩

/-! ## What the calls leave alone -/

/-- The number of the connection and its count of requests in flight are the same. -/
structure Keeps (c c' : Connection) : Prop where
  connId_eq : c'.connId = c.connId
  inflight_eq : c'.inflight = c.inflight

theorem Keeps.rfl {c : Connection} : c.Keeps c := ⟨Eq.refl _, Eq.refl _⟩

theorem queue_keeps (c : Connection) (data : List UInt8) : c.Keeps (c.queue data) :=
  ⟨Eq.refl _, Eq.refl _⟩

theorem senddata_keeps {c c' : Connection} {accept taken : List UInt8}
    {script : List SendOutcome} {ok : Bool} (h : c.senddata accept script = some (c', taken, ok)) :
    c.Keeps c' := by
  rcases senddata_cases h with ⟨rfl, -⟩ | ⟨data, -, rfl, -⟩ | ⟨rfl, -⟩
  · exact .rfl
  · exact c.queue_keeps data
  · exact ⟨Eq.refl _, Eq.refl _⟩

theorem sentAll_keeps (c : Connection) : c.Keeps c.sentAll.1 := by
  unfold sentAll
  dsimp only
  split
  · exact ⟨Eq.refl _, Eq.refl _⟩
  · split <;> exact ⟨Eq.refl _, Eq.refl _⟩

theorem writeLoop_keeps {c c' : Connection} {taken : List UInt8} {script : List SendOutcome}
    {ok : Bool} (h : c.writeLoop script = some (c', taken, ok)) : c.Keeps c' := by
  rcases (writeLoop_cases h).2 with ⟨idx, rfl, -⟩ | hsent
  · exact ⟨Eq.refl _, Eq.refl _⟩
  · have hkeeps := c.sentAll_keeps
    rw [hsent] at hkeeps
    exact hkeeps

theorem handwrite_keeps {c c' : Connection} {taken : List UInt8} {script : List SendOutcome}
    {ok : Bool} (h : c.handwrite script = some (c', taken, ok)) : c.Keeps c' := by
  unfold handwrite at h
  split at h
  · cases h
    exact .rfl
  · exact writeLoop_keeps h

theorem receive_keeps (c : Connection) (o : RecvOutcome) : c.Keeps (c.receive o).1 := by
  cases o with
  | data bytes =>
    unfold receive
    dsimp only
    split <;> exact ⟨Eq.refl _, Eq.refl _⟩
  | eof =>
    unfold receive
    dsimp only
    split <;> exact ⟨Eq.refl _, Eq.refl _⟩
  | again => exact .rfl
  | error => exact .rfl

theorem eofReturn_keeps (c : Connection) : c.Keeps c.eofReturn.1 := by
  unfold eofReturn
  split
  · exact .rfl
  · split <;> exact ⟨Eq.refl _, Eq.refl _⟩

/-- Reading leaves the output alone. -/
theorem receive_output (c : Connection) (o : RecvOutcome) :
    (c.receive o).1.outbuffer = c.outbuffer ∧ (c.receive o).1.idx = c.idx := by
  cases o with
  | data bytes =>
    unfold receive
    dsimp only
    split <;> exact ⟨rfl, rfl⟩
  | eof =>
    unfold receive
    dsimp only
    split <;> exact ⟨rfl, rfl⟩
  | again => exact ⟨rfl, rfl⟩
  | error => exact ⟨rfl, rfl⟩

theorem eofReturn_output (c : Connection) :
    c.eofReturn.1.outbuffer = c.outbuffer ∧ c.eofReturn.1.idx = c.idx := by
  unfold eofReturn
  split
  · exact ⟨rfl, rfl⟩
  · split <;> exact ⟨rfl, rfl⟩

end Connection

end ServiceInfra.Net
