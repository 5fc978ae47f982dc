import ServiceInfra.Reactor.EventLoop
import ServiceInfra.Reactor.Streams

/-!
# The end of the drain loop

After the signal the loop goes on until no connection has a request in flight, so that every
request gets its response. `inflight` is counted down before the response is sent, and what
the kernel does not take waits in the buffer for `EPOLLOUT`. The drain loop serves that
event, but its test does not ask for it: bytes that are still queued when the last request
is answered are lost with the connection.

What is queued where the loop is left is told by the `send` calls before. A direct send
leaves what the kernel refuses, the events for `EPOLLOUT` that follow make up for it, and in
between every response adds to it (`Sending.owed`).

Main results:
- `step_sending`: what a step does to the outputs of the connections
- `Sending.delivers`, `Outputs.step`: what is owed is what is queued
- `drainedSent_iff`: when a run leaves the drain loop with every response sent
-/

namespace ServiceInfra.Reactor

open Library
open Net

/-! ## What is sent -/

/-- The `send` calls of a step for one connection. -/
inductive Sending where
  /-- Those of `handwrite`. -/
  | write (script : List SendOutcome)
  /-- Those of `senddata`. -/
  | response (resp : List UInt8) (script : List SendOutcome)

namespace Sending

def run (c : Connection) : Sending → Option (Connection × List UInt8 × Bool)
  | .write script => c.handwrite script
  | .response resp script => c.ondone resp script

/-- The responses passed to `senddata`. -/
def resps : Sending → List (List UInt8)
  | .write _ => []
  | .response resp _ => [resp]

/-- No conversion to `int` does harm to the outcomes. -/
def Fits (c : Connection) : Sending → Prop
  | .write script => c.DrainsInTime script
  | .response resp script => c.outbuffer = [] → DirectFits (encode resp).length script

instance (c : Connection) : DecidablePred (Fits c)
  | .write _ => inferInstanceAs (Decidable (c.DrainsInTime _))
  | .response _ _ => inferInstanceAs (Decidable (_ → DirectFits _ _))

/-- How many bytes the kernel has still to take after the calls, where it had still to take
`n` before. -/
def owed (n : Nat) : Sending → Nat
  | .write script => n - (Connection.acceptedCounts script).sum
  -- behind bytes that have still to be taken nothing is sent directly
  | .response resp script =>
      if n = 0 then Connection.refused (encode resp).length script else n + (encode resp).length

end Sending

/-- The connection for which a step calls `send`. -/
def ReactorState.sending (s : ReactorState) : Action → Option (Connection × Sending)
  | .event fd flags script =>
      match s.control with
      | .idle =>
          (s.status fd).bind fun c => if s.writes flags then some (c, .write script) else none
      | _ => none
  | .deliver script =>
      match s.control with
      | .delivering (item :: _) =>
          (s.status item.fd).bind fun c =>
            if c.connId = item.id then some (c, .response item.resp script) else none
      | _ => none
  | _ => none

/-- What the kernel has still to take, by the number of the connection. -/
def owe (owed : Nat → Nat) : Option (Connection × Sending) → Nat → Nat
  | some (c, x) => Function.update owed c.connId (x.owed (owed c.connId))
  | none => owed

/-- The server in `start`, with what its `send` calls have done for each connection. -/
structure DrainState where
  loop : LoopState := {}
  /-- The bytes that the kernel took. -/
  sent : Nat → List UInt8 := fun _ => []
  /-- How many bytes it refused and has not taken since. -/
  owed : Nat → Nat := fun _ => 0

/-- One step. -/
def DrainState.step (handler : List UInt8 → Option (List UInt8)) (s : DrainState)
    (a : LoopAction) : Option DrainState :=
  (s.loop.step handler a).map fun loop =>
    { loop
      sent := passed s.sent ((s.loop.action a).bind s.loop.reactor.outbound)
      owed := owe s.owed ((s.loop.action a).bind s.loop.reactor.sending) }

/-- Where the drain loop was left with nothing in flight, nothing is queued, and every
response passed to a connection is sent. -/
def DrainedSent (s : DrainState) : Prop :=
  s.loop.phase = .left .drained → ∀ fd c, s.loop.reactor.status fd = some c →
    c.outbuffer = [] ∧
      s.sent c.connId = (s.loop.reactor.answers c.connId).flatMap encode

/-- No conversion to `int` does harm to the `send` calls of the step. -/
def SendingFits (s : DrainState) (a : LoopAction) : Prop :=
  match (s.loop.action a).bind s.loop.reactor.sending with
  | some (c, x) => x.Fits c
  | none => True

instance (s : DrainState) : DecidablePred (SendingFits s) := fun a => by
  unfold SendingFits
  split <;> infer_instance

/-- Where a test of the drain loop finds no request in flight, the kernel has taken what it
refused of the responses for the connections. -/
def MadeUp (s : DrainState) : LoopAction → Prop
  | .top _ => s.loop.draining = true →
      (∀ fd c, s.loop.reactor.status fd = some c → c.inflight ≤ 0) →
      ∀ fd c, s.loop.reactor.status fd = some c → s.owed c.connId = 0
  | _ => True

/-! ## One call -/

section Call

variable {sent taken : List UInt8} {resps : List (List UInt8)} {c c' : Connection} {x : Sending}

/-- The counts fit where the response, or the buffer, is not too long. -/
theorem Sending.fits_of_small (hbuffer : c.outbuffer.length ≤ 2 ^ 31)
    (hresps : ∀ resp ∈ x.resps, (encode resp).length < 2 ^ 31) : x.Fits c := by
  cases x with
  | write script => exact Connection.drainsInTime_of_length_le hbuffer
  | response resp script =>
    exact fun _ => directFits_of_length_lt (hresps resp List.mem_cons_self) script

/-- Where the counts fit, the output goes on in order, and what is owed is what is queued. -/
theorem Sending.delivers (h : Delivers sent resps c) (hfits : x.Fits c)
    (hrun : x.run c = some (c', taken, true)) :
    Delivers (sent ++ taken) (resps ++ x.resps) c' ∧
      c'.unsent.length = x.owed c.unsent.length := by
  cases x with
  | write script =>
    rw [Sending.resps, List.append_nil]
    exact ⟨h.handwrite hfits hrun, Connection.handwrite_unsent h.cursor h.idx_lt hfits hrun⟩
  | response resp script =>
    obtain ⟨⟨d, taken', ok⟩, hsend, heq⟩ := Option.map_eq_some_iff.mp hrun
    simp only [Prod.mk.injEq, Bool.and_eq_true] at heq
    obtain ⟨rfl, rfl, rfl, -⟩ := heq
    have hcounted : Delivers sent resps { c with inflight := c.inflight - 1 } :=
      h.of_output rfl rfl
    refine ⟨hcounted.senddata hfits hsend, ?_⟩
    rw [Sending.owed]
    split
    · -- nothing was queued
      rename_i hzero
      have hout := hcounted.outbuffer_nil_iff.mpr hzero
      exact Connection.senddata_unsent hout (hcounted.cursor.idx_eq_zero hout) (hfits hout) hsend
    · rename_i hqueued
      rw [Connection.senddata_queued (mt hcounted.outbuffer_nil_iff.mp hqueued)] at hsend
      cases hsend
      rw [hcounted.cursor.unsent_queue, List.length_append]
      rfl

end Call

/-! ## One step of the server -/

/-- What a step does to the outputs of the connections. -/
inductive SendEffect (s : ReactorState) (b : Action) (t : ReactorState) : Prop where
  /-- One connection sends. -/
  | sent {fd : Nat} {c c' : Connection} {x : Sending} {taken : List UInt8} {ok : Bool} :
      s.sending b = some (c, x) → s.outbound b = some (c.connId, taken) →
      s.status fd = some c → x.run c = some (c', taken, ok) →
      t.status = Function.update s.status fd (if ok then some c' else none) →
      t.connId = s.connId →
      (∀ id, t.answers id = s.answers id ++ if id = c.connId then x.resps else []) →
      SendEffect s b t
  /-- None does, and the outputs stay the same. -/
  | silent :
      s.sending b = none → s.outbound b = none → s.connId ≤ t.connId →
      (∀ id, t.answers id = s.answers id) →
      (∀ fd c', t.status fd = some c' →
        (c' = { connId := s.connId + 1 } ∧ t.connId = s.connId + 1) ∨
          ∃ c, s.status fd = some c ∧ c'.connId = c.connId ∧ c'.outbuffer = c.outbuffer ∧
            c'.idx = c.idx) →
      SendEffect s b t

section StepSending

variable {handler : List UInt8 → Option (List UInt8)} {s t : ReactorState} {b : Action}

/-- A step that leaves the connections alone. -/
theorem SendEffect.of_status (hsending : s.sending b = none) (houtbound : s.outbound b = none)
    (hstatus : t.status = s.status) (hconnId : t.connId = s.connId)
    (hresponded : t.responded = s.responded) : SendEffect s b t := by
  refine .silent hsending houtbound hconnId.ge (fun id => ?_) fun fd c' hc' => ?_
  · rw [ReactorState.answers, hresponded]
    rfl
  · rw [hstatus] at hc'
    exact .inr ⟨c', hc', rfl, rfl, rfl⟩

/-- A step that leaves one connection with the same output, or closes it. -/
theorem SendEffect.of_put {control : Control} {fd : Nat} {c : Connection} {oc : Option Connection}
    {decoded tasks : List Request} (hsending : s.sending b = none)
    (houtbound : s.outbound b = none) (hc : s.status fd = some c)
    (hsame : ∀ d, oc = some d →
      d.connId = c.connId ∧ d.outbuffer = c.outbuffer ∧ d.idx = c.idx) :
    SendEffect s b ({ s with control, decoded, tasks }.put fd oc) := by
  refine .silent hsending houtbound le_rfl (fun id => rfl) fun fd' c' hc' => .inr ?_
  rcases put_open hc' with ⟨rfl, hkept⟩ | ⟨-, hother⟩
  · exact ⟨c, hc, hsame c' hkept⟩
  · exact ⟨c', hother, rfl, rfl, rfl⟩

theorem addevent_sending {fd : Nat} {flags : Events} {script : List SendOutcome}
    (h : s.addevent fd flags script = some t) : SendEffect s (.event fd flags script) t := by
  obtain ⟨hidle, ⟨c, c', taken, ok, hstatus, hwrites, hcall, rfl⟩ | ⟨hnone, hquiet⟩⟩ :=
    addevent_writes h
  · refine @SendEffect.sent _ _ _ fd c c' (.write script) taken ok ?_ ?_ hstatus hcall rfl rfl ?_
    · simp [ReactorState.sending, hidle, hstatus, hwrites]
    · simp [ReactorState.outbound, hidle, hstatus, hwrites, hcall]
    · intro id
      simp [Sending.resps, ReactorState.answers, ReactorState.after, ReactorState.put]
  · have houtbound := @outbound_event_none _ _ _ script hnone
    have hsending : s.sending (.event fd flags script) = none := by
      rcases hnone with hnone | hwrites
      · simp [ReactorState.sending, hidle, hnone]
      · simp [ReactorState.sending, hidle, hwrites]
    rcases hquiet with rfl | ⟨c, hstatus, rfl | rfl⟩
    · exact .of_status hsending houtbound rfl rfl rfl
    · exact .of_put hsending houtbound hstatus (by simp)
    · exact .of_status hsending houtbound rfl rfl rfl

theorem deliver_sending {script : List SendOutcome} (h : s.deliver script = some t) :
    SendEffect s (.deliver script) t := by
  obtain ⟨item, items, hcontrol, ⟨hother, rfl⟩ | ⟨c, c', taken, ok, hstatus, hid, hturn, rfl⟩⟩ :=
    deliver_cases h
  · -- the connection of the item is closed
    have hnone : s.sending (.deliver script) = none ∧ s.outbound (.deliver script) = none := by
      simp only [ReactorState.sending, ReactorState.outbound, hcontrol]
      cases hstatus : s.status item.fd with
      | none => exact ⟨rfl, rfl⟩
      | some c =>
        simp [hother c hstatus]
    exact .of_status hnone.1 hnone.2 rfl rfl rfl
  · refine @SendEffect.sent _ _ _ item.fd c c' (.response item.resp script) taken ok ?_ ?_ hstatus
      hturn rfl rfl ?_
    · simp [ReactorState.sending, hcontrol, hstatus, hid]
    · simp [ReactorState.outbound, hcontrol, hstatus, hid, hturn]
    · intro id
      simp only [ReactorState.answers, ReactorState.after, ReactorState.put, List.filter_append,
        List.map_append, Sending.resps]
      congr 1
      split
      · rename_i hsame
        simp [hsame]
      · rename_i hother
        simp [Ne.symm hother]

/-- In every step one connection sends, or none. -/
theorem step_sending (h : s.step handler b = some t) : SendEffect s b t := by
  cases b with
  | accept fd =>
    simp only [ReactorState.step, ReactorState.onaccept] at h
    split at h
    · cases h
      refine .silent rfl rfl (Nat.le_succ _) (fun id => rfl) fun fd' c' hc' => ?_
      rcases put_open hc' with ⟨rfl, hnew⟩ | ⟨-, hother⟩
      · cases hnew
        exact .inl ⟨rfl, rfl⟩
      · exact .inr ⟨c', hother, rfl, rfl, rfl⟩
    · cases h
  | event fd flags script => exact addevent_sending h
  | recv o =>
    simp only [ReactorState.step, ReactorState.recv] at h
    split at h
    · obtain ⟨c, hstatus, rfl⟩ := Option.map_eq_some_iff.mp h
      refine .of_put rfl rfl hstatus fun d hd => ?_
      cases hd
      exact ⟨(c.receive_keeps o).connId_eq, c.receive_output o⟩
    · cases h
  | submit =>
    simp only [ReactorState.step, ReactorState.submit] at h
    split at h
    · obtain ⟨c, hstatus, rfl⟩ := Option.map_eq_some_iff.mp h
      refine .of_put rfl rfl hstatus fun d hd => ?_
      cases hd
      exact ⟨rfl, rfl, rfl⟩
    · cases h
  | endTurn =>
    rcases endTurn_cases h with ⟨fd, -, rfl⟩ | ⟨fd, c, -, hstatus, rfl⟩ |
      ⟨fd, ok, c, -, hstatus, rfl⟩ | ⟨-, rfl⟩
    · exact .of_status rfl rfl rfl rfl rfl
    · refine .of_put rfl rfl hstatus fun d hd => ?_
      split at hd <;> cases hd
      exact ⟨c.eofReturn_keeps.connId_eq, c.eofReturn_output⟩
    · refine .of_put rfl rfl hstatus fun d hd => ?_
      split at hd <;> cases hd
      exact ⟨rfl, rfl, rfl⟩
    · exact .of_status rfl rfl rfl rfl rfl
  | drain =>
    simp only [ReactorState.step, ReactorState.drain] at h
    split at h <;> cases h
    exact .of_status rfl rfl rfl rfl rfl
  | deliver script => exact deliver_sending h
  | take =>
    simp only [ReactorState.step, ReactorState.take] at h
    split at h
    · cases h
    · split at h <;> cases h
      exact .of_status rfl rfl rfl rfl rfl
  | complete worker =>
    simp only [ReactorState.step, ReactorState.complete] at h
    obtain ⟨req, -, rfl⟩ := Option.map_eq_some_iff.mp h
    cases handler req.msg <;> exact .of_status rfl rfl rfl rfl rfl
  | stop =>
    cases h
    exact .of_status rfl rfl rfl rfl rfl
  | finish fd =>
    simp only [ReactorState.step, ReactorState.finish] at h
    split at h
    · rename_i c hcontrol hstatus
      split at h <;> cases h
      exact .of_put rfl rfl hstatus (by simp)
    · cases h

end StepSending

/-! ## What is owed is queued -/

/-- The output of every open connection is in order, and what is owed to it is queued. -/
structure Outputs (s : ReactorState) (sent : Nat → List UInt8) (owed : Nat → Nat) : Prop where
  delivers : ∀ fd c, s.status fd = some c →
    Delivers (sent c.connId) (s.answers c.connId) c ∧ owed c.connId = c.unsent.length
  /-- Nothing was sent on connections with numbers that were not given yet. -/
  unused : ∀ id, s.connId < id → sent id = [] ∧ s.answers id = [] ∧ owed id = 0

section Owed

variable {handler : List UInt8 → Option (List UInt8)} {s t : ReactorState} {b : Action}
  {sent : Nat → List UInt8} {owed : Nat → Nat}

theorem Outputs.outbuffer_nil_iff (h : Outputs s sent owed) {fd : Nat} {c : Connection}
    (hc : s.status fd = some c) : c.outbuffer = [] ↔ owed c.connId = 0 := by
  obtain ⟨hdelivers, howed⟩ := h.delivers fd c hc
  rw [howed]
  exact hdelivers.outbuffer_nil_iff

theorem Outputs.step (h : Outputs s sent owed) (htracked : Tracked handler s)
    (hfits : ∀ c x, s.sending b = some (c, x) → x.Fits c) (hstep : s.step handler b = some t) :
    Outputs t (passed sent (s.outbound b)) (owe owed (s.sending b)) := by
  cases step_sending hstep with
  | @sent fd c c' x taken ok hsending houtbound hstatus hrun ht hconnId hanswers =>
    obtain ⟨hdelivers, howed⟩ := h.delivers fd c hstatus
    rw [hsending, houtbound]
    refine ⟨fun fd' d hd => ?_, fun id hid => ?_⟩
    · rw [ht] at hd
      rw [passed_some, hanswers, owe]
      by_cases hfd : fd' = fd
      · -- the connection that sent
        rw [hfd, Function.update_self] at hd
        cases ok <;> cases hd
        have hsame : c'.connId = c.connId := by
          cases x with
          | write script => exact (Connection.handwrite_keeps hrun).connId_eq
          | response resp script => exact Connection.ondone_connId hrun
        rw [hsame, if_pos rfl, if_pos rfl, Function.update_self, howed]
        obtain ⟨hnext, hqueued⟩ := Sending.delivers hdelivers (hfits c x hsending) hrun
        exact ⟨hnext, hqueued.symm⟩
      · rw [Function.update_of_ne hfd] at hd
        have hother := (htracked.ids.connId_ne hstatus hd hfd).symm
        rw [if_neg hother, if_neg hother, List.append_nil, List.append_nil,
          Function.update_of_ne hother]
        exact h.delivers fd' d hd
    · -- the number of an open connection was given
      have hgiven := htracked.ids.conn_le fd c hstatus
      rw [hconnId] at hid
      have hother : id ≠ c.connId := by omega
      rw [passed_some, hanswers, owe, if_neg hother, if_neg hother, List.append_nil,
        List.append_nil, Function.update_of_ne hother]
      exact h.unused id hid
  | silent hsending houtbound hconnId hanswers hopen =>
    rw [hsending, houtbound]
    refine ⟨fun fd d hd => ?_, fun id hid => ?_⟩
    · rw [hanswers, passed_none, owe]
      rcases hopen fd d hd with ⟨rfl, -⟩ | ⟨c, hc, hsame, hout, hidx⟩
      · obtain ⟨hsent, hnone, hzero⟩ := h.unused _ (Nat.lt_succ_self _)
        rw [hsent, hnone, hzero]
        exact ⟨.fresh _, rfl⟩
      · obtain ⟨hdelivers, howed⟩ := h.delivers fd c hc
        rw [hsame, howed, Connection.unsent, Connection.unsent, hout, hidx]
        exact ⟨hdelivers.of_output hout hidx, rfl⟩
    · rw [hanswers]
      exact h.unused id (hconnId.trans_lt hid)

end Owed

/-! ## Steps and runs of the loop -/

/-- The invariants of the loop that its end rests on. -/
structure LoopInv (s : LoopState) : Prop where
  resting : Resting s
  listed : Listed s

/-- The invariants with the outputs. -/
structure DrainInv (handler : List UInt8 → Option (List UInt8)) (s : DrainState) : Prop where
  loop : LoopInv s.loop
  tracked : Tracked handler s.loop.reactor
  outputs : Outputs s.loop.reactor s.sent s.owed

section Runs

variable {handler : List UInt8 → Option (List UInt8)} {s t : DrainState} {a : LoopAction}

theorem LoopInv.step {s t : LoopState} (h : LoopInv s) (hstep : s.step handler a = some t) :
    LoopInv t where
  resting := resting_step h.resting hstep
  listed := listed_step h.listed hstep

theorem LoopInv.start : LoopInv {} where
  resting _ := rfl
  listed fd c hc := by cases hc

theorem DrainInv.start : DrainInv handler {} where
  loop := .start
  tracked := .start
  outputs := ⟨fun fd c hc => (by cases hc), fun _ _ => ⟨rfl, rfl, rfl⟩⟩

theorem DrainInv.step (h : DrainInv handler s) (hfits : SendingFits s a)
    (hstep : s.step handler a = some t) : DrainInv handler t := by
  obtain ⟨loop, hloop, rfl⟩ := Option.map_eq_some_iff.mp hstep
  refine ⟨h.loop.step hloop, reactor_keeps (fun _ _ _ hr hs => hr.step hs) hloop h.tracked, ?_⟩
  cases hb : s.loop.action a with
  | none =>
    simp only [Option.bind_none, passed_none, owe]
    rw [action_none hloop hb]
    exact h.outputs
  | some b =>
    simp only [Option.bind_some]
    refine h.outputs.step h.tracked (fun c x hsending => ?_) (action_step hloop hb)
    rw [SendingFits, hb, Option.bind_some, hsending] at hfits
    exact hfits

/-- Leaving the drain loop is the only step that can lose what is queued. -/
theorem drainedSent_step (h : DrainInv handler s) (hs : DrainedSent s) (hfits : SendingFits s a)
    (hstep : s.step handler a = some t) : DrainedSent t ↔ MadeUp s a := by
  have hnext := h.step hfits hstep
  -- an empty buffer says that everything is sent
  have hsent : ∀ {fd c}, t.loop.reactor.status fd = some c → c.outbuffer = [] →
      c.outbuffer = [] ∧ t.sent c.connId = (t.loop.reactor.answers c.connId).flatMap encode :=
    fun hc hout => ⟨hout, ((hnext.outputs.delivers _ _ hc).1.sent_eq hout)⟩
  obtain ⟨loop, hloop, rfl⟩ := Option.map_eq_some_iff.mp hstep
  cases step_loop hloop with
  | turned htop _ _ hleft =>
    constructor
    · intro hdrained hdraining hzero fd c hc
      have hpass := (allPass_iff h.loop.listed).mpr hzero
      exact (h.outputs.outbuffer_nil_iff hc).mp (hdrained (hleft.mpr ⟨hdraining, hpass⟩) fd c hc).1
    · intro hmade hphase fd c hc
      obtain ⟨hdraining, hpass⟩ := hleft.mp hphase
      have howed := hmade hdraining ((allPass_iff h.loop.listed).mp hpass) fd c hc
      exact hsent hc ((h.outputs.outbuffer_nil_iff hc).mpr howed)
  | reported => exact iff_of_true (fun hphase => by cases hphase) trivial
  | unreported _ hphase =>
    refine iff_of_true (fun hleft => ?_) trivial
    rcases hphase with rfl | rfl <;> cases hleft
  | batchEnd => exact iff_of_true (fun hphase => by cases hphase) trivial
  | listening => exact iff_of_true (fun hphase => by cases hphase) trivial
  | drained => exact iff_of_true (fun hphase => by cases hphase) trivial
  | dispatched => exact iff_of_true (fun hphase => by cases hphase) trivial
  | accepted haccepting =>
    refine iff_of_true (fun hphase => ?_) trivial
    have hleft : s.loop.phase = .left .drained := hphase
    rw [haccepting] at hleft
    cases hleft
  | refused => exact iff_of_true (fun hphase => by cases hphase) trivial
  | beside hbeside hr =>
    -- afterwards nothing is sent any more, connections are only closed
    refine iff_of_true (fun hphase fd c hc => ?_) trivial
    have hleft : s.loop.phase = .left .drained := hphase
    have hidle : s.loop.reactor.control = .idle := h.loop.resting (by simp [hleft])
    exact hsent hc (hs hleft fd c ((inner_idle hbeside hidle hr).2 fd c hc)).1

end Runs

/-- Whatever the handler does, and however `send` and `epoll_wait` behave, where no conversion
to `int` does harm to a `send`: every run that leaves the drain loop for want of requests in
flight leaves it with all responses sent, exactly when at each of its tests that finds no
request in flight the events before have made up for every `send` that was refused bytes. -/
theorem drainedSent_iff {handler : List UInt8 → Option (List UInt8)} {as : List LoopAction}
    (hfits : Guarded (DrainState.step handler) SendingFits {} as) :
    Always (DrainState.step handler) DrainedSent {} as ↔
      Guarded (DrainState.step handler) MadeUp {} as := by
  refine hfits.always_iff_of_inv
    (fun s (hs : DrainInv handler s ∧ DrainedSent s) => hs.2) ?_
    ⟨.start, fun hphase => by cases hphase⟩
  rintro s a t ⟨hinv, hsent⟩ hfit hstep
  have hiff := drainedSent_step hinv hsent hfit hstep
  exact ⟨hiff.mp, fun hmade => ⟨hinv.step hfit hstep, hiff.mpr hmade⟩⟩

/-- Two clients send a request each, and the signal comes. The kernel takes three bytes of the
first response, and the other two while the second request is still in flight. -/
def madeUpRun : List LoopAction :=
  [.top false, .wait (.events [.listen]), .next [], .accept (some 5), .accept (some 6),
    .accept none, .next [], .top false,
    .wait (.events [.conn 5 { epollin := true } 1, .conn 6 { epollin := true } 2]),
    .next [], .inner (.recv (.data [0, 0, 0, 1, 7])), .inner .submit, .inner .endTurn,
    .inner (.recv .again), .inner .endTurn,
    .next [], .inner (.recv (.data [0, 0, 0, 1, 9])), .inner .submit, .inner .endTurn,
    .inner (.recv .again), .inner .endTurn, .next [],
    .inner .take, .inner .take, .inner (.complete 0), .top false, .inner .stop,
    .wait (.events [.done]), .next [], .inner (.deliver [.accepted 3]), .inner .endTurn,
    .next [], .top false, .top false,
    .wait (.events [.conn 5 { epollout := true } 1]), .next [.accepted 2], .next [],
    .inner (.complete 0), .top false, .wait (.events [.done]), .next [],
    .inner (.deliver [.accepted 5]), .inner .endTurn, .next [], .top false]

/-- The drain loop is left with both responses sent. -/
theorem drainedSent_iff_madeUp :
    (Always (DrainState.step some) DrainedSent {} madeUpRun ↔
      Guarded (DrainState.step some) MadeUp {} madeUpRun) ∧
      (madeUpRun.foldlM (DrainState.step some) {}).map
          (fun s => (s.loop.phase, s.sent 1, s.sent 2)) =
        some (.left .drained, [0, 0, 0, 1, 7], [0, 0, 0, 1, 9]) :=
  ⟨drainedSent_iff (by decide +kernel), by decide +kernel⟩

/-- A client sends one request, the signal comes, and the kernel takes three bytes of the
response. -/
def shortSendRun : List LoopAction :=
  [.top false, .wait (.events [.listen]), .next [], .accept (some 5), .accept none, .next [],
    .top false, .wait (.events [.conn 5 { epollin := true } 1]), .next [],
    .inner (.recv (.data [0, 0, 0, 1, 7])), .inner .submit, .inner .endTurn,
    .inner (.recv .again), .inner .endTurn, .next [], .inner .take, .inner (.complete 0),
    .top false, .inner .stop, .wait (.events [.done]), .next [], .inner (.deliver [.accepted 3]),
    .inner .endTurn, .next [], .top false, .top false]

/-- The drain loop is left at once, with two bytes of the response queued. -/
theorem shortSendRun_loses :
    Guarded (DrainState.step some) SendingFits {} shortSendRun ∧
      ¬ Always (DrainState.step some) DrainedSent {} shortSendRun ∧
      ∃ s c, shortSendRun.foldlM (DrainState.step some) {} = some s ∧
        s.loop.phase = .left .drained ∧ s.loop.reactor.status 5 = some c ∧
        c.outbuffer = [1, 7] ∧ s.sent 1 = [0, 0, 0] := by
  have hrun : (shortSendRun.foldlM (DrainState.step some) {}).any (fun s =>
      s.loop.phase = .left .drained ∧
        (s.loop.reactor.status 5).map Connection.outbuffer = some [1, 7] ∧
        s.sent 1 = [0, 0, 0]) = true := by
    decide +kernel
  obtain ⟨s, hlast, hend⟩ := (Option.any_eq_true _ _).mp hrun
  obtain ⟨hphase, hconn, hsent⟩ := of_decide_eq_true hend
  obtain ⟨c, hstatus, hqueued⟩ := Option.map_eq_some_iff.mp hconn
  refine ⟨by decide +kernel, fun h => ?_, s, c, hlast, hphase, hstatus, hqueued, hsent⟩
  have hempty := (h.last hlast hphase 5 c hstatus).1
  rw [hqueued] at hempty
  cases hempty

end ServiceInfra.Reactor
