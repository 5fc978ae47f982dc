import ServiceInfra.Net.OutputOrder
import ServiceInfra.Net.Submitted
import ServiceInfra.Reactor.FailingHandler

/-!
# The byte streams of the server

What a client sees of the server is two streams of bytes. The state of the reactor is paired
with them: for each connection, by its number, the bytes that its `recv` calls returned and
those that the kernel took from its `send` calls. `Served` lists what the handlers of `Epoll`
do with one connection, and every step of the server does one of these things to one
connection or nothing to any (`WireEffect`).

Main results:
- `wireEffect_of_step`: what a step does to the connections and their streams
-/

namespace ServiceInfra.Reactor

open Library
open Net

/-! ## The streams -/

/-- The server with what passed over its sockets, by the number of the connection. -/
structure WireState where
  reactor : ReactorState := {}
  received : Nat → List UInt8 := fun _ => []
  sent : Nat → List UInt8 := fun _ => []

namespace ReactorState

/-- `addevent` calls `handwrite` for these flags. -/
def writes (s : ReactorState) (flags : Events) : Bool :=
  flags.epollout && (s.stopping || !(flags.epollerr || flags.epollhup || flags.epollin))

/-- The bytes that `recv` returns in a step, with the connection they come from. -/
def inbound (s : ReactorState) : Action → Option (Nat × List UInt8)
  | .recv o =>
      match s.control with
      | .reading fd => (s.status fd).map fun c => (c.connId, o.bytes)
      | _ => none
  | _ => none

/-- The bytes that the kernel takes from `send` in a step, with the connection they go to. -/
def outbound (s : ReactorState) : Action → Option (Nat × List UInt8)
  | .event fd flags script =>
      match s.control with
      | .idle =>
          (s.status fd).bind fun c =>
            if s.writes flags then (c.handwrite script).map fun r => (c.connId, r.2.1) else none
      | _ => none
  | .deliver script =>
      match s.control with
      | .delivering (item :: _) =>
          (s.status item.fd).bind fun c =>
            if c.connId = item.id then (c.ondone item.resp script).map fun r => (c.connId, r.2.1)
            else none
      | _ => none
  | _ => none

end ReactorState

/-- Bytes pass on one stream. -/
def passed (streams : Nat → List UInt8) : Option (Nat × List UInt8) → Nat → List UInt8
  | some (id, bytes) => Function.update streams id (streams id ++ bytes)
  | none => streams

/-- One step. -/
def WireState.step (handler : List UInt8 → Option (List UInt8)) (w : WireState) (a : Action) :
    Option WireState :=
  (w.reactor.step handler a).map fun reactor =>
    { reactor
      received := passed w.received (w.reactor.inbound a)
      sent := passed w.sent (w.reactor.outbound a) }

/-- No output buffer has come to `2 ^ 31` bytes, where `int` cuts its cursor. -/
def BuffersSmall (s : ReactorState) : Prop :=
  ∀ fd c, s.status fd = some c → c.outbuffer.length < 2 ^ 31

/-- The runs of the server in which the output buffers stay below `2 ^ 31` bytes. -/
def wire (handler : List UInt8 → Option (List UInt8)) : TransitionSystem WireState Action where
  init w := w = {}
  step w a t := w.step handler a = some t ∧ BuffersSmall t.reactor

namespace ReactorState

/-- The requests decoded on a connection, in order. -/
def requests (s : ReactorState) (id : Nat) : List (List UInt8) :=
  (s.decoded.filter (·.id = id)).map Request.msg

/-- The responses passed to `senddata` of a connection, in order. -/
def answers (s : ReactorState) (id : Nat) : List (List UInt8) :=
  (s.responded.filter (·.connId = id)).map Response.resp

end ReactorState

/-! ## What a handler does with one connection -/

/-- The bytes read and written, the requests decoded, the responses passed to `senddata` and
what becomes of the connection. -/
inductive Served (c : Connection) : List UInt8 → List UInt8 → List (List UInt8) →
    List (List UInt8) → Option Connection → Prop where
  /-- `onclose`. -/
  | closed : Served c [] [] [] [] none
  /-- A turn of the loop of `handreadable`. -/
  | received (o : RecvOutcome) : Served c o.bytes [] (c.receive o).2.1 [] (some (c.receive o).1)
  /-- `inflight++`. -/
  | submitted : Served c [] [] [] [] (some c.submitted)
  /-- The end of `handreadable` at the end of the stream. -/
  | eof : Served c [] [] [] [] (if c.eofReturn.2 then some c.eofReturn.1 else none)
  /-- Any other end of it. -/
  | returned (ok : Bool) : Served c [] [] [] [] (if ok then some c else none)
  | written {c' : Connection} {script : List SendOutcome} {taken : List UInt8} {ok : Bool} :
      c.handwrite script = some (c', taken, ok) →
      Served c [] taken [] [] (if ok then some c' else none)
  /-- `ondone`. -/
  | done {c' : Connection} {resp taken : List UInt8} {script : List SendOutcome} {ok : Bool} :
      c.ondone resp script = some (c', taken, ok) →
      Served c [] taken [] [resp] (if ok then some c' else none)

/-- What a step does to the connections and their streams. -/
inductive WireEffect (w : WireState) : WireState → Prop where
  /-- No connection is touched. -/
  | quiet {t : ReactorState} :
      t.status = w.reactor.status → t.connId = w.reactor.connId →
      t.decoded = w.reactor.decoded → t.responded = w.reactor.responded →
      WireEffect w { w with reactor := t }
  | accepted {t : ReactorState} {fd : Nat} :
      t.status = Function.update w.reactor.status fd (some { connId := w.reactor.connId + 1 }) →
      t.connId = w.reactor.connId + 1 → t.decoded = w.reactor.decoded →
      t.responded = w.reactor.responded → WireEffect w { w with reactor := t }
  /-- A handler runs for one connection. -/
  | served {t : ReactorState} {fd : Nat} {c : Connection} {oc : Option Connection}
      {inb outb : List UInt8} {reqs : List Request} {resps : List Response} :
      w.reactor.status fd = some c → t.status = Function.update w.reactor.status fd oc →
      t.connId = w.reactor.connId → t.decoded = w.reactor.decoded ++ reqs →
      (∀ r ∈ reqs, r.id = c.connId) → t.responded = w.reactor.responded ++ resps →
      (∀ x ∈ resps, x.connId = c.connId ∧ x.req ∈ w.reactor.held) →
      Served c inb outb (reqs.map Request.msg) (resps.map Response.resp) oc →
      WireEffect w
        { reactor := t
          received := passed w.received (some (c.connId, inb))
          sent := passed w.sent (some (c.connId, outb)) }

theorem Served.connId_eq {c d : Connection} {oc : Option Connection} {inb outb : List UInt8}
    {reqs resps : List (List UInt8)} (h : Served c inb outb reqs resps oc) (hd : oc = some d) :
    d.connId = c.connId := by
  -- a handler after which the connection stays or is closed
  have hends : ∀ {c' : Connection} (ok : Bool), c'.connId = c.connId →
      (if ok then some c' else none) = some d → d.connId = c.connId := by
    intro c' ok hsame hc'
    cases ok <;> cases hc'
    exact hsame
  cases h with
  | closed => cases hd
  | received o =>
    cases hd
    exact (c.receive_keeps o).connId_eq
  | submitted =>
    cases hd
    rfl
  | eof => exact hends _ c.eofReturn_keeps.connId_eq hd
  | returned ok => exact hends ok rfl hd
  | written hcall => exact hends _ (Connection.handwrite_keeps hcall).connId_eq hd
  | done hcall => exact hends _ (Connection.ondone_connId hcall) hd

theorem number_msg (fd id start : Nat) (msgs : List (List UInt8)) :
    (ReactorState.number fd id start msgs).map Request.msg = msgs := by
  induction msgs generalizing start with
  | nil => rfl
  | cons msg msgs ih => rw [ReactorState.number, List.map_cons, ih]

section Steps

variable {handler : List UInt8 → Option (List UInt8)} {w v : WireState}

@[simp] theorem passed_nil (streams : Nat → List UInt8) (id : Nat) :
    passed streams (some (id, [])) = streams := by
  rw [passed, List.append_nil, Function.update_eq_self]

theorem passed_some (streams : Nat → List UInt8) (id : Nat) (bytes : List UInt8) (id' : Nat) :
    passed streams (some (id, bytes)) id' = streams id' ++ if id' = id then bytes else [] := by
  rw [passed]
  split
  · rename_i heq
    rw [heq, Function.update_self]
  · rename_i hne
    rw [Function.update_of_ne hne, List.append_nil]

@[simp] theorem passed_none (streams : Nat → List UInt8) : passed streams none = streams := rfl

/-- A handler that neither reads nor writes. -/
theorem WireEffect.silent {t : ReactorState} {fd : Nat} {c : Connection} {oc : Option Connection}
    (hstatus : w.reactor.status fd = some c)
    (ht : t.status = Function.update w.reactor.status fd oc) (hid : t.connId = w.reactor.connId)
    (hdecoded : t.decoded = w.reactor.decoded) (hresponded : t.responded = w.reactor.responded)
    (h : Served c [] [] [] [] oc) : WireEffect w { w with reactor := t } := by
  have hreqs : t.decoded = w.reactor.decoded ++ [] := by rw [hdecoded, List.append_nil]
  have hresps : t.responded = w.reactor.responded ++ [] := by rw [hresponded, List.append_nil]
  have heffect : WireEffect w _ :=
    .served hstatus ht hid hreqs (by simp) hresps (by simp) h
  rwa [passed_nil, passed_nil] at heffect

/-- `addevent` calls `handwrite` exactly where the flags say so. Otherwise it closes the
connection, begins to read it, or does nothing. -/
theorem addevent_writes {s t : ReactorState} {fd : Nat} {flags : Events}
    {script : List SendOutcome} (h : s.addevent fd flags script = some t) :
    s.control = .idle ∧
      ((∃ c c' taken ok, s.status fd = some c ∧ s.writes flags = true ∧
          c.handwrite script = some (c', taken, ok) ∧ t = s.after fd (c', ok)) ∨
        ((s.status fd = none ∨ s.writes flags = false) ∧
          (t = s ∨ ∃ c, s.status fd = some c ∧
            (t = s.put fd none ∨ t = { s with control := .reading fd })))) := by
  unfold ReactorState.addevent at h
  split at h
  · -- no connection there: the event is ignored
    rename_i hidle hstatus
    cases h
    exact ⟨hidle, .inr ⟨.inl hstatus, .inl rfl⟩⟩
  · rename_i c hidle hstatus
    refine ⟨hidle, ?_⟩
    split at h
    · rename_i hstopping
      split at h
      · rename_i hout
        obtain ⟨⟨c', taken, ok⟩, hcall, rfl⟩ := Option.map_eq_some_iff.mp h
        exact .inl ⟨c, c', taken, ok, hstatus, by simp [ReactorState.writes, hstopping, hout],
          hcall, rfl⟩
      · rename_i hout
        cases h
        exact .inr ⟨.inr (by simp [ReactorState.writes, hout]), .inl rfl⟩
    · rename_i hstopping
      split at h
      · rename_i hhup
        cases h
        refine .inr ⟨.inr ?_, .inr ⟨c, hstatus, .inl rfl⟩⟩
        rcases hhup with hhup | hhup <;> simp [ReactorState.writes, hstopping, hhup]
      · rename_i hhup
        split at h
        · rename_i hin
          cases h
          exact .inr ⟨.inr (by simp [ReactorState.writes, hstopping, hin]),
            .inr ⟨c, hstatus, .inr rfl⟩⟩
        · rename_i hin
          rw [not_or, Bool.not_eq_true, Bool.not_eq_true] at hhup
          split at h
          · rename_i hout
            obtain ⟨⟨c', taken, ok⟩, hcall, rfl⟩ := Option.map_eq_some_iff.mp h
            exact .inl ⟨c, c', taken, ok, hstatus, by simp [ReactorState.writes, hout, hhup, hin],
              hcall, rfl⟩
          · rename_i hout
            cases h
            exact .inr ⟨.inr (by simp [ReactorState.writes, hout]), .inl rfl⟩
  · cases h

theorem outbound_event_none {s : ReactorState} {fd : Nat} {flags : Events}
    {script : List SendOutcome} (h : s.status fd = none ∨ s.writes flags = false) :
    s.outbound (.event fd flags script) = none := by
  simp only [ReactorState.outbound]
  split
  · rcases h with hnone | hquiet
    · rw [hnone, Option.bind_none]
    · simp [hquiet]
  · rfl

theorem addevent_wire {fd : Nat} {flags : Events} {script : List SendOutcome} {t : ReactorState}
    (h : w.reactor.addevent fd flags script = some t) :
    WireEffect w
      { reactor := t
        received := w.received
        sent := passed w.sent (w.reactor.outbound (.event fd flags script)) } := by
  obtain ⟨hidle, ⟨c, c', taken, ok, hstatus, hwrites, hcall, rfl⟩ | ⟨hnone, hquiet⟩⟩ :=
    addevent_writes h
  · simp only [ReactorState.outbound, hidle, hstatus, Option.bind_some, hwrites, if_true, hcall,
      Option.map_some]
    have heffect : WireEffect w ⟨w.reactor.after fd (c', ok), _, _⟩ :=
      .served hstatus rfl rfl (List.append_nil _).symm (by simp) (List.append_nil _).symm
        (by simp) (.written hcall)
    rwa [passed_nil] at heffect
  · rw [outbound_event_none hnone]
    rcases hquiet with rfl | ⟨c, hstatus, rfl | rfl⟩
    · exact .quiet rfl rfl rfl rfl
    · exact .silent hstatus rfl rfl rfl rfl .closed
    · exact .quiet rfl rfl rfl rfl

theorem endTurn_wire {t : ReactorState} (h : w.reactor.endTurn = some t) :
    WireEffect w { w with reactor := t } := by
  rcases endTurn_cases h with ⟨fd, -, rfl⟩ | ⟨fd, c, -, hstatus, rfl⟩ |
    ⟨fd, ok, c, -, hstatus, rfl⟩ | ⟨-, rfl⟩
  · exact .quiet rfl rfl rfl rfl
  · exact .silent hstatus rfl rfl rfl rfl .eof
  · exact .silent hstatus rfl rfl rfl rfl (.returned ok)
  · exact .quiet rfl rfl rfl rfl

theorem deliver_wire {script : List SendOutcome} {t : ReactorState}
    (h : w.reactor.deliver script = some t) :
    WireEffect w
      { reactor := t
        received := w.received
        sent := passed w.sent (w.reactor.outbound (.deliver script)) } := by
  obtain ⟨item, items, hcontrol, ⟨hother, rfl⟩ | ⟨c, c', taken, ok, hstatus, hid, hturn, rfl⟩⟩ :=
    deliver_cases h
  · -- the connection of the item is closed
    have hnone : w.reactor.outbound (.deliver script) = none := by
      simp only [ReactorState.outbound, hcontrol]
      cases hstatus : w.reactor.status item.fd with
      | none => rfl
      | some c => exact if_neg (hother c hstatus)
    rw [hnone]
    exact .quiet rfl rfl rfl rfl
  · have hsome : w.reactor.outbound (.deliver script) = some (c.connId, taken) := by
      simp only [ReactorState.outbound, hcontrol, hstatus, Option.bind_some, if_pos hid, hturn,
        Option.map_some]
    rw [hsome]
    have hreq : item.req ∈ w.reactor.held :=
      (Conserved.held_delivering hcontrol).mem_iff.mpr List.mem_cons_self
    have heffect : WireEffect w ⟨{ w.reactor with
        control := .delivering items
        responded := w.reactor.responded ++ [Response.mk c.connId item.resp item.req] }.after
          item.fd (c', ok), _, _⟩ :=
      .served hstatus rfl rfl (List.append_nil _).symm (by simp) rfl (by simpa using hreq)
        (.done hturn)
    rwa [passed_nil] at heffect

/-- Every step has one of three effects on the connections and their streams. -/
theorem wireEffect_of_step {a : Action} (h : w.step handler a = some v) : WireEffect w v := by
  obtain ⟨t, hstep, rfl⟩ := Option.map_eq_some_iff.mp h
  cases a with
  | accept fd =>
    simp only [ReactorState.step, ReactorState.onaccept] at hstep
    split at hstep
    · cases hstep
      exact .accepted rfl rfl rfl rfl
    · cases hstep
  | event fd flags script => exact addevent_wire hstep
  | recv o =>
    simp only [ReactorState.step, ReactorState.recv] at hstep
    split at hstep
    · rename_i fd hcontrol
      obtain ⟨c, hstatus, rfl⟩ := Option.map_eq_some_iff.mp hstep
      simp only [ReactorState.inbound, hcontrol, hstatus, Option.map_some]
      let reqs :=
        ReactorState.number fd c.connId w.reactor.decoded.length (c.receive o).2.1
      have hserved : Served c o.bytes [] (reqs.map Request.msg) [] (some (c.receive o).1) := by
        rw [number_msg]
        exact .received o
      have heffect : WireEffect w ⟨{ w.reactor with
          decoded := w.reactor.decoded ++ reqs
          control := .submitting fd reqs (c.receive o).2.2 }.put fd (some (c.receive o).1), _, _⟩ :=
        .served hstatus rfl rfl rfl (fun r hr => (mem_number hr).2) (List.append_nil _).symm
          (by simp) hserved
      rwa [passed_nil] at heffect
    · cases hstep
  | submit =>
    simp only [ReactorState.step, ReactorState.submit] at hstep
    split at hstep
    · obtain ⟨c, hstatus, rfl⟩ := Option.map_eq_some_iff.mp hstep
      exact .silent hstatus rfl rfl rfl rfl .submitted
    · cases hstep
  | endTurn => exact endTurn_wire hstep
  | drain =>
    simp only [ReactorState.step, ReactorState.drain] at hstep
    split at hstep <;> cases hstep
    exact .quiet rfl rfl rfl rfl
  | deliver script => exact deliver_wire hstep
  | take =>
    simp only [ReactorState.step, ReactorState.take] at hstep
    split at hstep
    · cases hstep
    · split at hstep <;> cases hstep
      exact .quiet rfl rfl rfl rfl
  | complete worker =>
    simp only [ReactorState.step, ReactorState.complete] at hstep
    obtain ⟨req, -, rfl⟩ := Option.map_eq_some_iff.mp hstep
    cases handler req.msg <;> exact .quiet rfl rfl rfl rfl
  | stop =>
    cases hstep
    exact .quiet rfl rfl rfl rfl
  | finish fd =>
    simp only [ReactorState.step, ReactorState.finish] at hstep
    split at hstep
    · rename_i c hcontrol hstatus
      split at hstep <;> cases hstep
      exact .silent hstatus rfl rfl rfl rfl .closed
    · cases hstep

end Steps

end ServiceInfra.Reactor
