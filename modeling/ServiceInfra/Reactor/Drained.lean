import ServiceInfra.Reactor.EndToEnd
import ServiceInfra.Reactor.GracefulExit

/-!
# Nothing unanswered after a graceful stop

The drain loop is left when no connection has a request in flight. What a task that throws
leaves behind keeps the count of its connection up, so a connection that is still open then
had each of its requests answered, and none of them has thrown.

A task that throws is taken here for one that runs for ever. The server with such tasks has
the same steps, and requests are conserved in it.

Main results:
- `loopSimulation`: the loop of `start` refines the server
- `withLost_step`: the invariants of the server with the tasks that have thrown
- `drained_answered`: the requests of the connections that a graceful stop finds open
-/

namespace ServiceInfra.Reactor

open Library
open Net

/-! ## The loop as a system -/

/-- The server in `start`, from its start on. -/
def loop (handler : List UInt8 → Option (List UInt8)) :
    TransitionSystem LoopState LoopAction where
  init s := s = {}
  step s a t := s.step handler a = some t

/-- The loop takes the steps of the server in an order of its own. -/
theorem loopSimulation (handler : List UInt8 → Option (List UInt8)) :
    TransitionSystem.Simulation (loop handler) (reactor handler) fun s r => s.reactor = r where
  init s hs := ⟨{}, rfl, by rw [hs]⟩
  step s a t r hstep hr := by
    subst hr
    rcases step_reactor hstep with hsame | ⟨b, hb⟩
    · exact .inl hsame
    · exact .inr ⟨b, t.reactor, hb, rfl⟩

/-! ## Tasks that have thrown -/

/-- The server in which the tasks that have thrown still run. -/
def ReactorState.withLost (s : ReactorState) (lost : List Request) : ReactorState :=
  { s with running := s.running ++ lost }

/-- The invariants of the server, where a task that throws is taken to run for ever. -/
def LostInv (handler : List UInt8 → Option (List UInt8)) (s : ReactorState) : Prop :=
  ∃ lost, Inv handler (s.withLost lost) ∧ ∀ r ∈ lost, handler r.msg = none

section Lost

variable {handler : List UInt8 → Option (List UInt8)} {s t : ReactorState}

theorem held_withLost (s : ReactorState) (lost : List Request) :
    (s.withLost lost).held.Perm (s.held ++ lost) := by
  apply List.perm_iff_count.mpr
  intro r
  simp only [ReactorState.withLost, ReactorState.held, ReactorState.items, List.count_append]
  omega

/-- Beside tasks that run for ever the server goes on as it does without them. -/
theorem Effect.withLost (e : Effect handler s t) (lost : List Request) :
    Effect handler (s.withLost lost) (t.withLost lost) := by
  cases e with
  | @moved stopping tasks running queue control hpending hcontrol hheld hitems =>
    refine .moved hpending hcontrol ?_ hitems
    refine List.perm_iff_count.mpr fun r => ?_
    have hbefore := hheld.count_eq r
    have hafter := (held_withLost s lost).count_eq r
    simp only [List.count_append] at hbefore hafter ⊢
    omega
  | conn hstatus hkeeps hold hnew hitems => exact .conn hstatus hkeeps hold hnew hitems
  | accepted hpending hfree => exact .accepted hpending hfree
  | decoded hcontrol hstatus hkeeps => exact .decoded hcontrol hstatus hkeeps
  | submitted hcontrol hstatus => exact .submitted hcontrol hstatus
  | responded hcontrol hstatus hid hsame => exact .responded hcontrol hstatus hid hsame
  | dropped hcontrol hother => exact .dropped hcontrol hother

/-- A task that throws moves to those that run for ever. -/
theorem effect_thrown {worker : Nat} {req : Request} (hreq : s.running[worker]? = some req)
    (lost : List Request) :
    Effect handler (s.withLost lost)
      (({ s with running := s.running.eraseIdx worker } : ReactorState).withLost
        (lost ++ [req])) := by
  refine .moved rfl (.inl rfl) ?_ fun i hi => .inl hi
  apply List.perm_iff_count.mpr
  intro r
  have hcount := (running_perm hreq).count_eq r
  simp only [ReactorState.withLost, ReactorState.held, ReactorState.items, List.count_append,
    List.count_cons, List.count_nil] at hcount ⊢
  omega

theorem Inv.effect (h : Inv handler s) (e : Effect handler s t) : Inv handler t where
  conserved := h.conserved.effect e
  delivered := h.delivered.effect e
  ids := h.ids.effect h.conserved.known h.delivered e
  counted := h.counted.effect h.ids h.conserved.known h.delivered e

theorem withLost_step (h : LostInv handler s) {a : Action} (hstep : s.step handler a = some t) :
    LostInv handler t := by
  obtain ⟨lost, hinv, hlost⟩ := h
  by_cases hthrows : Throws handler s a
  · obtain ⟨worker, req, rfl, hreq, rfl⟩ := step_throws hthrows hstep
    refine ⟨lost ++ [req], hinv.effect (effect_thrown hreq lost), ?_⟩
    obtain ⟨req', hreq', hnone⟩ := hthrows
    rw [hreq] at hreq'
    cases hreq'
    exact List.forall_mem_append.mpr ⟨hlost, by simpa using hnone⟩
  · exact ⟨lost, hinv.effect ((step_effect hthrows hstep).withLost lost), hlost⟩

theorem lostInv_reachable (h : (reactor handler).Reachable s) : LostInv handler s := by
  refine h.invariant ?_ ?_
  · rintro s rfl
    exact ⟨[], .start, by simp⟩
  · intro s a t hs hstep
    exact withLost_step hs hstep

/-- What the handler made of the requests answered on a connection is its responses. -/
theorem map_answered (h : Delivered handler s) (id : Nat) :
    ((s.responded.map Response.req).filter (·.id = id)).map (handler ∘ Request.msg) =
      (s.answers id).map some := by
  -- a response counts for the connection of its request
  have hsame : s.responded.filter ((fun r : Request => decide (r.id = id)) ∘ Response.req) =
      s.responded.filter (·.connId = id) := by
    refine List.filter_congr fun x hx => ?_
    rw [Function.comp_apply, (h.responded_ok x hx).1]
  rw [List.filter_map, List.map_map, ReactorState.answers, List.map_map, hsame]
  refine List.map_congr_left fun x hx => ?_
  exact (h.responded_ok x (List.mem_of_mem_filter hx)).2

/-- Where a connection has nothing in flight, nothing of it is held, and no task of it runs
for ever. -/
theorem outstanding_of_inflight {lost : List Request} (h : Inv handler (s.withLost lost))
    {fd : Nat} {c : Connection} (hc : s.status fd = some c) (hinflight : c.inflight ≤ 0) :
    s.outstanding c.connId = 0 ∧ lost.filter (·.id = c.connId) = [] := by
  have hcounted := h.counted fd c hc
  have hnone : (s.withLost lost).outstanding c.connId = 0 := by omega
  rw [ReactorState.outstanding, (held_withLost s lost).countP_eq, List.countP_append] at hnone
  obtain ⟨hheld, hlost⟩ := Nat.add_eq_zero_iff.mp hnone
  refine ⟨hheld, ?_⟩
  rwa [← List.length_eq_zero_iff, ← List.countP_eq_length_filter]

/-- Where moreover nothing of it is about to be submitted, each of its requests has its
answer. -/
theorem answered_of_inflight (h : LostInv handler s) (hpending : s.pending = []) {fd : Nat}
    {c : Connection} (hc : s.status fd = some c) (hinflight : c.inflight ≤ 0) :
    s.outstanding c.connId = 0 ∧
      ((s.requests c.connId).map handler).Perm ((s.answers c.connId).map some) := by
  obtain ⟨lost, hinv, -⟩ := h
  obtain ⟨houtstanding, hlost⟩ := outstanding_of_inflight hinv hc hinflight
  refine ⟨houtstanding, ?_⟩
  have hheld : (s.withLost lost).held.filter (·.id = c.connId) = [] := by
    rw [ReactorState.outstanding, List.countP_eq_length_filter, List.length_eq_zero_iff]
      at houtstanding
    refine (((held_withLost s lost).filter _).trans (.of_eq ?_)).eq_nil
    rw [List.filter_append, houtstanding, hlost]
    rfl
  have hdropped : s.dropped.filter (·.id = c.connId) = [] := by
    refine List.filter_eq_nil_iff.mpr fun r hr hid => ?_
    exact hinv.ids.dropped_closed r hr fd c hc (of_decide_eq_true hid).symm
  -- the requests of the connection are those of its responses
  have hplaces : s.decoded.Perm
      (s.pending ++ (s.withLost lost).held ++ s.responded.map Response.req ++ s.dropped) :=
    hinv.conserved.places
  have hanswered := hplaces.filter (·.id = c.connId)
  rw [hpending, List.nil_append, List.filter_append, List.filter_append, hheld, hdropped,
    List.nil_append, List.append_nil] at hanswered
  have hmade : ((s.responded.map Response.req).filter (·.id = c.connId)).map
      (handler ∘ Request.msg) = (s.answers c.connId).map some :=
    map_answered hinv.delivered c.connId
  rw [ReactorState.requests, List.map_map, ← hmade]
  exact hanswered.map _

end Lost

/-! ## The end of the drain loop -/

/-- Where the drain loop was left with nothing in flight, no connection counts a request. -/
def Quiet (s : LoopState) : Prop :=
  s.phase = .left .drained → ∀ fd c, s.reactor.status fd = some c → c.inflight ≤ 0

section Exit

variable {handler : List UInt8 → Option (List UInt8)} {s t : LoopState}

theorem quiet_step (h : LoopInv s) (hs : Quiet s) {a : LoopAction}
    (hstep : s.step handler a = some t) : Quiet t := by
  cases step_loop hstep with
  | turned _ _ _ hleft => exact fun hphase => (allPass_iff h.listed).mp (hleft.mp hphase).2
  | reported => exact fun hphase => by cases hphase
  | unreported _ hphase =>
    intro hleft
    rcases hphase with rfl | rfl <;> cases hleft
  | batchEnd => exact fun hphase => by cases hphase
  | listening => exact fun hphase => by cases hphase
  | drained => exact fun hphase => by cases hphase
  | dispatched => exact fun hphase => by cases hphase
  | accepted haccepting =>
    intro hphase
    have hleft : s.phase = .left .drained := hphase
    rw [haccepting] at hleft
    cases hleft
  | refused => exact fun hphase => by cases hphase
  | beside hbeside hr =>
    intro hphase fd c hc
    have hleft : s.phase = .left .drained := hphase
    have hidle : s.reactor.control = .idle := h.resting (by simp [hleft])
    exact hs hleft fd c ((inner_idle hbeside hidle hr).2 fd c hc)

theorem quiet_reachable (h : (loop handler).Reachable s) : LoopInv s ∧ Quiet s := by
  refine @TransitionSystem.Reachable.invariant _ _ (loop handler)
    (fun s => LoopInv s ∧ Quiet s) ?_ ?_ s h
  · rintro s rfl
    exact ⟨.start, fun hphase => by cases hphase⟩
  · rintro s a t ⟨hinv, hquiet⟩ hstep
    exact ⟨hinv.step hstep, quiet_step hinv hquiet hstep⟩

/-- Whatever the handler does, and in whatever order the clients, the workers and the signal
come: where the drain loop was left with nothing in flight, the server holds no request of a
connection that is open, and what the handler made of the requests of that connection is its
responses, one for each request. -/
theorem drained_answered (h : (loop handler).Reachable s) (hleft : s.phase = .left .drained)
    {fd : Nat} {c : Connection} (hc : s.reactor.status fd = some c) :
    s.reactor.outstanding c.connId = 0 ∧
      ((s.reactor.requests c.connId).map handler).Perm
        ((s.reactor.answers c.connId).map some) := by
  obtain ⟨hinv, hquiet⟩ := quiet_reachable h
  obtain ⟨r, hreach, rfl⟩ := (loopSimulation handler).reachable h
  have hidle : s.reactor.control = .idle := hinv.resting (by simp [hleft])
  refine answered_of_inflight (lostInv_reachable hreach) ?_ hc (hquiet hleft fd c hc)
  rw [ReactorState.pending, hidle]
  rfl

end Exit

/-- Two connections. The task of the second one throws, and its client resets the connection;
the first one has its answer when the signal comes. -/
def resetRun : List LoopAction :=
  [.top false, .wait (.events [.listen]), .next [], .accept (some 5), .accept (some 6),
    .accept none, .next [], .top false,
    .wait (.events [.conn 5 { epollin := true } 1, .conn 6 { epollin := true } 2]),
    .next [], .inner (.recv (.data [0, 0, 0, 1, 7])), .inner .submit, .inner .endTurn,
    .inner (.recv .again), .inner .endTurn,
    .next [], .inner (.recv (.data [0, 0, 0, 1, 9])), .inner .submit, .inner .endTurn,
    .inner (.recv .again), .inner .endTurn, .next [],
    .inner .take, .inner .take, .inner (.complete 1), .inner (.complete 0), .top false,
    .wait (.events [.done, .conn 6 { epollerr := true } 2]), .next [],
    .inner (.deliver [.accepted 5]), .inner .endTurn, .next [], .next [], .top false,
    .inner .stop, .wait .intr, .top false, .top false]

/-- Two requests were decoded, and that of the connection still open has its answer. -/
theorem drained_answered_reset :
    let handler : List UInt8 → Option (List UInt8) :=
      fun msg => if msg = [9] then none else some msg
    ∃ s c, (loop handler).Reachable s ∧ s.phase = .left .drained ∧
      s.reactor.status 5 = some c ∧ s.reactor.requests c.connId = [[7]] ∧
      s.reactor.decoded.length = 2 ∧ s.reactor.outstanding c.connId = 0 ∧
      ((s.reactor.requests c.connId).map handler).Perm
        ((s.reactor.answers c.connId).map some) := by
  intro handler
  have hrun : (resetRun.foldlM (LoopState.step handler) {}).any (fun s =>
      s.phase = .left .drained ∧ (s.reactor.status 5).map Connection.connId = some 1 ∧
      s.reactor.requests 1 = [[7]] ∧ s.reactor.decoded.length = 2) = true := by
    decide +kernel
  obtain ⟨s, hlast, hend⟩ := (Option.any_eq_true _ _).mp hrun
  obtain ⟨hleft, hconn, hrequests, hdecoded⟩ := of_decide_eq_true hend
  obtain ⟨c, hc, hid⟩ := Option.map_eq_some_iff.mp hconn
  have hreach : (loop handler).Reachable s :=
    TransitionSystem.Reachable.foldlM (fun _ _ _ hstep => hstep) (.of_init rfl) hlast
  refine ⟨s, c, hreach, hleft, hc, ?_, hdecoded, drained_answered hreach hleft hc⟩
  rw [hid, hrequests]

end ServiceInfra.Reactor
