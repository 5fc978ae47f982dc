import ServiceInfra.Library.PartialRun
import ServiceInfra.Reactor.Turns

/-!
# Handlers that throw

`inflight` goes up when a request is submitted and down when its item comes back through the
done queue. `workerLoop` catches what the handler throws, and no item comes back then: the
connection counts the request for as long as it is open, a half-closed one is not closed
after its last response, and the shutdown waits for its deadline.

The requests that are still on their way are conserved all the same (`Tracked`), so the count
goes wrong only at that point, and only for a connection that is open.

Main results:
- `counted_step`: when a step keeps the count
- `inflightAccounts_iff`: when a whole run does
-/

namespace ServiceInfra.Reactor

open Library
open Net

/-! ## Definitions -/

/-- `inflight` counts what is on its way, and connections end when nothing is. -/
structure InflightAccounts (s : ReactorState) : Prop where
  counted : Counted s
  /-- No connection keeps the drain loop of `start` waiting. -/
  inflight_zero : s.control = .idle → s.held = [] →
    ∀ fd c, s.status fd = some c → c.inflight = 0
  /-- A half-closed connection is only open to send what is queued. -/
  half_closed : s.control = .idle → s.held = [] →
    ∀ fd c, s.status fd = some c → c.peerClose = true → c.outbuffer ≠ []

/-- Where the task of a worker throws, the connection of its request is closed. -/
def ThrowsOnClosed (handler : List UInt8 → Option (List UInt8)) (s : ReactorState) :
    Action → Prop
  | .complete worker => ∀ req, s.running[worker]? = some req → handler req.msg = none →
      ∀ fd c, s.status fd = some c → c.connId ≠ req.id
  | _ => True

/-! ## What holds whether tasks throw or not -/

namespace Known

variable {handler : List UInt8 → Option (List UInt8)} {s t : ReactorState}

theorem effect (h : Known s) (e : Effect handler s t) : Known t := by
  -- what leaves one place was decoded when it was there
  cases e with
  | moved hpending _ hheld _ =>
    refine ⟨?_, fun r hr => h.held r (hheld.mem_iff.mp hr), h.dropped⟩
    intro r hr
    apply h.pending r
    rw [ReactorState.pending, ← hpending]
    exact hr
  | @conn fd c oc control _ _ _ hnew hitems =>
    refine ⟨?_, ?_, h.dropped⟩
    · intro r hr
      rw [ReactorState.pending] at hr
      change r ∈ control.pending at hr
      rw [hnew] at hr
      cases hr
    · intro r hr
      apply h.held r
      simpa only [ReactorState.held, ReactorState.items, ReactorState.put, hitems] using hr
  | accepted => exact ⟨h.pending, h.held, h.dropped⟩
  | decoded hcontrol _ _ =>
    refine ⟨fun r hr => List.mem_append_right _ hr, fun r hr => ?_, fun r hr => ?_⟩
    · apply List.mem_append_left
      apply h.held r
      simpa only [ReactorState.held, ReactorState.items, ReactorState.put, hcontrol,
        Control.items] using hr
    · exact List.mem_append_left _ (h.dropped r hr)
  | @submitted fd c req reqs next hcontrol _ =>
    have hpending : s.pending = req :: reqs := by rw [ReactorState.pending, hcontrol]; rfl
    refine ⟨fun r hr => ?_, fun r hr => ?_, h.dropped⟩
    · apply h.pending r
      rw [hpending]
      exact List.mem_cons_of_mem _ hr
    · -- the new task was pending
      have hplaces : r ∈ s.held ∨ r = req := by
        simp only [ReactorState.held, ReactorState.items, ReactorState.put, hcontrol,
          Control.items, List.mem_append, List.mem_singleton] at hr ⊢
        tauto
      rcases hplaces with hold | rfl
      · exact h.held r hold
      · apply h.pending r
        rw [hpending]
        exact List.mem_cons_self
  | responded hcontrol _ _ _ =>
    have hheld := Conserved.held_delivering hcontrol
    refine ⟨fun r hr => ?_, fun r hr => h.held r ?_, h.dropped⟩
    · cases hr
    · exact hheld.mem_iff.mpr (List.mem_cons_of_mem _ hr)
  | dropped hcontrol _ =>
    have hheld := Conserved.held_delivering hcontrol
    refine ⟨fun r hr => ?_, fun r hr => h.held r ?_, fun r hr => ?_⟩
    · cases hr
    · exact hheld.mem_iff.mpr (List.mem_cons_of_mem _ hr)
    · rcases List.mem_append.mp hr with hold | hnew
      · exact h.dropped r hold
      · rw [List.mem_singleton.mp hnew]
        exact h.held _ (hheld.mem_iff.mpr List.mem_cons_self)

end Known

/-- The invariants of the server that do not need its handler to return. -/
structure Tracked (handler : List UInt8 → Option (List UInt8)) (s : ReactorState) : Prop where
  known : Known s
  delivered : Delivered handler s
  ids : Ids s

section Throwing

variable {handler : List UInt8 → Option (List UInt8)} {s t : ReactorState}

/-- What the request of a task that throws was among the requests held. -/
theorem held_throws {worker : Nat} {req : Request} (h : s.running[worker]? = some req) :
    s.held.Perm
      (req :: ({ s with running := s.running.eraseIdx worker } : ReactorState).held) := by
  apply List.perm_iff_count.mpr
  intro r
  have hcount := (running_perm h).count_eq r
  simp only [ReactorState.held, ReactorState.items, List.count_append,
    List.count_cons] at hcount ⊢
  omega

theorem Tracked.step (h : Tracked handler s) {a : Action} (hstep : s.step handler a = some t) :
    Tracked handler t := by
  by_cases hthrows : Throws handler s a
  · obtain ⟨worker, req, -, hreq, rfl⟩ := step_throws hthrows hstep
    have hheld := held_throws hreq
    constructor
    · refine ⟨h.known.pending, fun r hr => ?_, h.known.dropped⟩
      exact h.known.held r (hheld.mem_iff.mpr (List.mem_cons_of_mem _ hr))
    · exact ⟨h.delivered.items_ok, h.delivered.responded_ok⟩
    · exact ⟨h.ids.conn_le, h.ids.conn_inj, h.ids.req_le, h.ids.req_fd, h.ids.pending_id,
        h.ids.dropped_closed⟩
  · have heffect := step_effect hthrows hstep
    constructor
    · exact h.known.effect heffect
    · exact h.delivered.effect heffect
    · exact h.ids.effect h.known h.delivered heffect

theorem Tracked.start : Tracked handler {} := by
  have hinv : Inv handler {} := .start
  exact ⟨hinv.conserved.known, hinv.delivered, hinv.ids⟩

/-- The count goes wrong exactly where the request of an open connection is lost. -/
theorem counted_step (h : Tracked handler s) (hcounted : Counted s) {a : Action}
    (hstep : s.step handler a = some t) : Counted t ↔ ThrowsOnClosed handler s a := by
  by_cases hthrows : Throws handler s a
  · obtain ⟨worker, req, rfl, hreq, rfl⟩ := step_throws hthrows hstep
    have hnone : handler req.msg = none := by
      obtain ⟨req', hreq', hnone⟩ := hthrows
      rw [hreq] at hreq'
      cases hreq'
      exact hnone
    have hcount : ∀ connId, s.outstanding connId =
        ({ s with running := s.running.eraseIdx worker } : ReactorState).outstanding connId +
          if req.id = connId then 1 else 0 := by
      intro connId
      rw [ReactorState.outstanding, (held_throws hreq).countP_eq, List.countP_cons]
      simp [ReactorState.outstanding]
    constructor
    · intro hafter req' hreq' _ fd c hc hid
      rw [hreq] at hreq'
      cases hreq'
      -- the connection of the request counted it, and counts it still
      have hbefore := hcounted fd c hc
      rw [hcount, if_pos hid.symm, hafter fd c hc] at hbefore
      push_cast at hbefore
      omega
    · intro hclosed fd c hc
      have hother : req.id ≠ c.connId := fun hid => hclosed req hreq hnone fd c hc hid.symm
      have hbefore := hcounted fd c hc
      rw [hcount, if_neg hother, Nat.add_zero] at hbefore
      exact hbefore
  · refine iff_of_true (hcounted.effect h.ids h.known h.delivered (step_effect hthrows hstep)) ?_
    cases a with
    | complete worker => exact fun req hreq hnone => absurd ⟨req, hreq, hnone⟩ hthrows
    | _ => trivial

end Throwing

/-! ## Runs -/

/-- What holds in every state of a run that keeps the count. -/
structure Accounted (handler : List UInt8 → Option (List UInt8)) (s : ReactorState) : Prop where
  tracked : Tracked handler s
  counted : Counted s
  unfinished : AllUnfinished s

section Runs

variable {handler : List UInt8 → Option (List UInt8)} {s t : ReactorState}

theorem Accounted.inflightAccounts (h : Accounted handler s) : InflightAccounts s := by
  -- with nothing on its way, nothing is counted
  have hzero : s.held = [] → ∀ fd c, s.status fd = some c → c.inflight = 0 := by
    intro hheld fd c hc
    rw [h.counted fd c hc, ReactorState.outstanding, hheld]
    rfl
  refine ⟨h.counted, fun _ => hzero, fun hidle hheld fd c hc hpeer hsent => ?_⟩
  refine h.unfinished fd c hc ?_ ⟨hpeer, hsent, hzero hheld fd c hc⟩
  rw [hidle]
  exact id

theorem Accounted.step (h : Accounted handler s) {a : Action}
    (hstep : s.step handler a = some t) (hguard : ThrowsOnClosed handler s a) :
    Accounted handler t where
  tracked := h.tracked.step hstep
  counted := (counted_step h.tracked h.counted hstep).mpr hguard
  unfinished := by
    refine unfinished_step h.unfinished (fun fd c hc => ?_) hstep
    rw [h.counted fd c hc]
    exact Int.natCast_nonneg _

theorem Accounted.start : Accounted handler {} where
  tracked := .start
  counted := by simp [Counted]
  unfinished fd c hc := by cases hc

end Runs

/-- Whatever the handler throws on, in every run: `inflight` counts the requests that are on
their way, no connection keeps the drain loop waiting once there are none, and half-closed
connections are closed then, exactly when no task throws for a connection that is open. -/
theorem inflightAccounts_iff (handler : List UInt8 → Option (List UInt8)) (as : List Action) :
    Always (ReactorState.step handler) InflightAccounts {} as ↔
      Guarded (ReactorState.step handler) (ThrowsOnClosed handler) {} as := by
  refine always_iff_guarded_of_inv
    (fun s (hs : Accounted handler s) => hs.inflightAccounts) ?_ .start
  intro s a t hs hstep
  exact ⟨fun ht => (counted_step hs.tracked hs.counted hstep).mp ht.counted, hs.step hstep⟩

/-- One request on descriptor 5, the end of the stream, and a worker that runs the request. -/
def failingRun : List Action :=
  [.accept 5, .event 5 { epollin := true } [], .recv (.data [0, 0, 0, 1, 7]), .submit, .endTurn,
    .recv .eof, .endTurn, .take, .complete 0]

/-- The handler throws: no request is on its way any more, and the half-closed connection
stays open with one in flight. -/
theorem failingRun_leaks :
    ¬ Always (ReactorState.step fun _ => none) InflightAccounts {} failingRun ∧
      ∃ s c, failingRun.foldlM (ReactorState.step fun _ => none) {} = some s ∧
        s.control = .idle ∧ s.held = [] ∧ s.status 5 = some c ∧ c.inflight = 1 ∧
        c.peerClose = true ∧ c.outbuffer = [] := by
  have hrun : ∃ s c, failingRun.foldlM (ReactorState.step fun _ => none) {} = some s ∧
      s.control = .idle ∧ s.held = [] ∧ s.status 5 = some c ∧ c.inflight = 1 ∧
      c.peerClose = true ∧ c.outbuffer = [] :=
    ⟨_, _, rfl, rfl, rfl, rfl, rfl, rfl, rfl⟩
  refine ⟨fun h => ?_, hrun⟩
  obtain ⟨s, c, hlast, hidle, hheld, hstatus, hinflight, -, -⟩ := hrun
  have hzero := (h.last hlast).inflight_zero hidle hheld 5 c hstatus
  rw [hinflight] at hzero
  cases hzero

end ServiceInfra.Reactor
