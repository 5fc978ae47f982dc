import ServiceInfra.Client.ClosedLoop

/-!
# The client gets through

Between two events the client has on every open connection as many messages in flight as it
may, or has sent them all, and it waits for the socket to take more exactly where something
is left to send (`Settled`). So where the two sides and the sockets between them are at
rest, no connection of the client is open any more.

Main results:
- `Settling.step`, `settling_reachable`: how the connections are left between two events
- `closedLoop_completes`: at rest, every connection has been finished
-/

namespace ServiceInfra.Client

open Library
open Net
open Reactor

/-! ## Between two events -/

/-- What `main` is doing, or has still to do, with a connection. -/
def Control.AtHand {W : Type} (w : W) : Control W → Prop
  | .sending rest => w ∈ rest
  | .writable v _ | .readable v _ | .receiving v | .pumping v | .ending v _ => w = v
  | .waiting => False
  | .exited ok => ok = false

/-- All messages are sent, or as many as may be are in flight. -/
def Conn.Pumped (A : Args) (c : Conn) : Prop := c.nextId = A.perConn ∨ A.depth ≤ c.inflight

/-- As the connection is left between two events. -/
structure Conn.Settled (A : Args) (c : Conn) : Prop where
  pumped : c.Pumped A
  notThrough : ¬(A.perConn ≤ c.doneCnt ∧ c.inflight = 0 ∧ c.outbuf = [])

/-- How the connections are left. -/
structure Settling {W : Type} (A : Args) (control : Control W) (cs : W → Option Conn) : Prop where
  /-- `EPOLLOUT` is registered where something is left to send. -/
  registered : ∀ w c, cs w = some c →
    control = .ending w true ∨ control = .exited false ∨ c.evCur = c.want
  settled : ∀ w c, cs w = some c → control.AtHand w ∨ c.Settled A
  pumped : ∀ w c, cs w = some c → control = .ending w false → c.Pumped A
  fresh : ∀ rest, control = .sending rest →
    rest.Nodup ∧ ∀ w ∈ rest, cs w = some { evCur := { epollin := true } }

section Pump

variable {A : Args} {c c' : Conn}

/-- The loop of `pump_send` ends where no more may be sent. -/
theorem pumpLoop_pumped {turns : Nat} (hturns : A.perConn - c.nextId ≤ turns)
    (hle : c.nextId ≤ A.perConn) : (c.pumpLoop A turns).Pumped A := by
  induction turns generalizing c with
  | zero =>
    left
    show c.nextId = A.perConn
    omega
  | succ turns ih =>
    rw [Conn.pumpLoop]
    split
    · rename_i hmore
      refine ih ?_ hmore.1
      show A.perConn - (c.nextId + 1) ≤ turns
      omega
    · rename_i hmore
      rcases Nat.lt_or_ge c.nextId A.perConn with hlt | hge
      · exact .inr (Nat.le_of_not_lt fun hdepth => hmore ⟨hlt, hdepth⟩)
      · exact .inl (Nat.le_antisymm hle hge)

theorem pumpSend_pumped {script : List SendOutcome} {taken : List UInt8} {ok : Bool}
    (hle : c.nextId ≤ A.perConn) (hcall : c.pumpSend A script = some (c', taken, ok)) :
    c'.Pumped A ∧ (ok = true → c'.evCur = c'.want) := by
  obtain ⟨⟨evCur, hsame⟩, -, hwant⟩ := flush_spec hcall
  refine ⟨?_, hwant⟩
  have hpumped := pumpLoop_pumped (A := A) le_rfl hle
  rw [hsame]
  exact hpumped

/-- In front of the event loop every connection has sent a message. -/
theorem pumpSend_start {events : Events} {script : List SendOutcome} {taken : List UInt8}
    {ok : Bool} (hcall : Conn.pumpSend A { evCur := events } script = some (c', taken, ok)) :
    c'.Settled A := by
  have hpumped := (pumpSend_pumped (Nat.zero_le _) hcall).1
  refine ⟨hpumped, fun hthrough => ?_⟩
  -- nothing has come back yet
  have hfresh : Held A {} [] [] { evCur := events } := ⟨.fresh, rfl, [], .fresh, .refl _⟩
  have hbalance := (hfresh.pumpSend hcall).ledger.balance
  have hone := A.perConn_pos
  have hdepth := A.depth_pos
  rcases hpumped with hnext | hmore
  · rw [hthrough.2.1, List.length_nil] at hbalance
    omega
  · omega

end Pump

/-- The connection of which an event is handled. -/
def Control.current {W : Type} : Control W → Option W
  | .writable w _ | .readable w _ | .receiving w | .pumping w | .ending w _ => some w
  | .sending _ | .waiting | .exited _ => none

/-- `main` is in the event loop, and handles no other connection. -/
def Control.Serves {W : Type} (control : Control W) (w : W) : Prop :=
  control = .waiting ∨ control.current = some w

section Settling

variable {W : Type} {A : Args} {control control' : Control W} {w : W} {cs : W → Option Conn}

theorem Control.Serves.atHand (h : control.Serves w) : control = .waiting ∨ control.AtHand w := by
  refine h.imp_right fun hcurrent => ?_
  cases control with
  | sending | waiting | exited => cases hcurrent
  | _ => exact (Option.some.inj hcurrent).symm

/-- The other connections are left alone. -/
theorem Control.Serves.others (h : control.Serves w) {v : W} (hvw : v ≠ w) :
    ¬control.AtHand v ∧ ∀ fail, control ≠ .ending v fail := by
  rcases h with rfl | hcurrent
  · exact ⟨id, nofun⟩
  · cases control with
    | sending | waiting | exited => cases hcurrent
    | ending u fail =>
      cases hcurrent
      exact ⟨hvw, fun fail' hsame => hvw (Control.ending.inj hsame).1.symm⟩
    | _ =>
      cases hcurrent
      exact ⟨hvw, nofun⟩

theorem Control.Serves.runs (h : control.Serves w) :
    control ≠ .exited false ∧ ∀ rest, control ≠ .sending rest := by
  rcases h with rfl | hcurrent
  · exact ⟨nofun, nofun⟩
  · cases control with
    | sending | waiting | exited => cases hcurrent
    | _ => exact ⟨nofun, nofun⟩

variable [DecidableEq W]

/-- One connection is at hand, and stays at hand or is settled. -/
theorem Settling.update (h : Settling A control cs) (hfrom : control.Serves w)
    (hto : control'.Serves w) {oc : Option Conn}
    (hregistered : ∀ d, oc = some d → control' = .ending w true ∨ d.evCur = d.want)
    (hsettled : ∀ d, oc = some d → control' = .waiting → d.Settled A)
    (hpumped : ∀ d, oc = some d → control' = .ending w false → d.Pumped A) :
    Settling A control' (Function.update cs w oc) where
  registered v d hd := by
    by_cases hvw : v = w
    · rw [hvw, Function.update_self] at hd
      rw [hvw]
      exact (hregistered d hd).imp_right .inr
    · rw [Function.update_of_ne hvw] at hd
      rcases h.registered v d hd with hending | hexited | hwant
      · exact absurd hending ((hfrom.others hvw).2 true)
      · exact absurd hexited hfrom.runs.1
      · exact .inr (.inr hwant)
  settled v d hd := by
    by_cases hvw : v = w
    · rw [hvw, Function.update_self] at hd
      rw [hvw]
      exact hto.atHand.symm.imp_right (hsettled d hd)
    · rw [Function.update_of_ne hvw] at hd
      exact .inr ((h.settled v d hd).resolve_left (hfrom.others hvw).1)
  pumped v d hd hending := by
    by_cases hvw : v = w
    · rw [hvw] at hd hending
      rw [Function.update_self] at hd
      exact hpumped d hd hending
    · exact absurd hending ((hto.others hvw).2 false)
  fresh rest hrest := absurd hrest (hto.runs.2 rest)

/-- The connection at hand stays as it is. -/
theorem Settling.moved (h : Settling A control cs) (hfrom : control.Serves w)
    (hto : control'.Serves w) (hending : control = .ending w true → control' = .ending w true)
    (hsettled : ∀ d, cs w = some d → control' = .waiting → d.Settled A)
    (hpumped : ∀ d, cs w = some d → control' = .ending w false → d.Pumped A) :
    Settling A control' cs := by
  have hupdate : Settling A control' (Function.update cs w (cs w)) :=
    h.update hfrom hto ?_ hsettled hpumped
  · rwa [Function.update_eq_self] at hupdate
  · intro d hd
    rcases h.registered w d hd with hend | hexited | hwant
    · exact .inl (hending hend)
    · exact absurd hexited hfrom.runs.1
    · exact .inr hwant

/-- `main` goes on with the connection, and there is nothing more to it. -/
theorem Settling.goesOn (h : Settling A control cs) (hfrom : control.Serves w)
    (hto : control'.current = some w)
    (hending : ∀ fail, control ≠ .ending w fail ∧ control' ≠ .ending w false) :
    Settling A control' cs := by
  refine h.moved hfrom (.inr hto) (fun hend => absurd hend (hending true).1) ?_ ?_
  · rintro d hd rfl
    cases hto
  · exact fun d hd hend => absurd hend (hending true).2

end Settling

section Steps

variable {W : Type} [DecidableEq W] {A : Args} {s t : Bench W}

/-- The next connection is taken out of the loop in front of the event loop. -/
theorem Settling.start (h : Settling A s.control s.cs) {script : List SendOutcome}
    (hstep : s.start A script = some t) : Settling A t.control t.cs := by
  rw [Bench.start] at hstep
  split at hstep
  · rename_i w rest hcontrol
    obtain ⟨c, hc, hstep⟩ := Option.bind_eq_some_iff.mp hstep
    obtain ⟨⟨c', taken, ok⟩, hcall, rfl⟩ := Option.map_eq_some_iff.mp hstep
    obtain ⟨hnodup, hfresh⟩ := h.fresh _ hcontrol
    obtain ⟨hw, hnodup⟩ := List.nodup_cons.mp hnodup
    have hfirst := hfresh w List.mem_cons_self
    rw [hc, Option.some.injEq] at hfirst
    subst hfirst
    have hwant := (pumpSend_pumped (Nat.zero_le _) hcall).2
    constructor
    · intro v d hd
      by_cases hvw : v = w
      · rw [hvw, Bench.put_cs_self, Option.some.injEq] at hd
        subst hd
        cases ok with
        | true => exact .inr (.inr (hwant rfl))
        | false => exact .inr (.inl rfl)
      · rw [Bench.put_cs_of_ne _ hvw] at hd
        rcases h.registered v d hd with hending | hexited | hwant
        · cases hcontrol.symm.trans hending
        · cases hcontrol.symm.trans hexited
        · exact .inr (.inr hwant)
    · intro v d hd
      by_cases hvw : v = w
      · rw [hvw, Bench.put_cs_self, Option.some.injEq] at hd
        exact .inr (hd ▸ pumpSend_start hcall)
      · rw [Bench.put_cs_of_ne _ hvw] at hd
        refine (h.settled v d hd).imp_left fun hat => ?_
        rw [hcontrol] at hat
        cases ok with
        | true => exact (List.mem_cons.mp hat).resolve_left hvw
        | false => exact rfl
    · intro v d _ hending
      cases ok <;> cases hending
    · intro rest' hrest
      cases ok with
      | true =>
        cases hrest
        refine ⟨hnodup, fun v hv => ?_⟩
        rw [Bench.put_cs_of_ne _ (ne_of_mem_of_not_mem hv hw)]
        exact hfresh v (List.mem_cons_of_mem _ hv)
      | false => cases hrest
  · cases hstep

/-- The loop over `recv` does not touch what is left to send, nor what is registered. -/
theorem onRecv_fields (c : Conn) (k : Tally) (o : RecvOutcome) :
    (c.onRecv A k o).1.evCur = c.evCur ∧ (c.onRecv A k o).1.outbuf = c.outbuf := by
  cases o with
  | data bytes =>
    rw [Conn.onRecv]
    dsimp only
    split
    · exact ⟨rfl, rfl⟩
    · obtain ⟨-, hout, -, hev⟩ := onMessages_fields (A := A)
        { c with dec := (c.dec.feed bytes).take.2 } k (c.dec.feed bytes).take.1
      exact ⟨hev, hout⟩
  | eof | again | error => exact ⟨rfl, rfl⟩

/-- The test of `EPOLLOUT`. -/
theorem Settling.write (h : Settling A s.control s.cs) {script : List SendOutcome}
    (hstep : s.write script = some t) : Settling A t.control t.cs := by
  rw [Bench.write] at hstep
  split at hstep
  · rename_i w e hcontrol
    rw [hcontrol] at h
    split at hstep
    · obtain ⟨c, -, hstep⟩ := Option.bind_eq_some_iff.mp hstep
      obtain ⟨⟨c', taken, ok⟩, hcall, rfl⟩ := Option.map_eq_some_iff.mp hstep
      obtain ⟨-, -, hwant⟩ := flush_spec hcall
      cases ok with
      | true =>
        refine h.update (.inr rfl) (.inr rfl) ?_ (by rintro _ _ ⟨⟩) (by rintro _ _ ⟨⟩)
        rintro d ⟨⟩
        exact .inr (hwant rfl)
      | false =>
        exact h.update (.inr rfl) (.inr rfl) (fun d _ => .inl rfl) (by rintro _ _ ⟨⟩)
          (by rintro _ _ ⟨⟩)
    · cases hstep
      exact h.goesOn (.inr rfl) rfl (by simp)
  · cases hstep

/-- A turn of the loop over `recv`. -/
theorem Settling.recv (h : Settling A s.control s.cs) {o : RecvOutcome}
    (hstep : s.recv A o = some t) : Settling A t.control t.cs := by
  simp only [Bench.recv] at hstep
  split at hstep
  · rename_i w hcontrol
    obtain ⟨c, hc, rfl⟩ := Option.map_eq_some_iff.mp hstep
    obtain ⟨hev, hout⟩ := onRecv_fields (A := A) c s.tally o
    rw [hcontrol] at h
    have hwant : ∀ d, some (c.onRecv A s.tally o).1 = some d → d.evCur = d.want := by
      rintro d ⟨⟩
      rcases h.registered w c hc with hending | hexited | hwant
      · cases hending
      · cases hexited
      · rw [hev, hwant, Conn.want, Conn.want, hout]
    split
    · exact h.update (.inr rfl) (.inr rfl) (fun d hd => .inr (hwant d hd)) (by rintro _ _ ⟨⟩)
        (by rintro _ _ ⟨⟩)
    · split
      all_goals
        exact h.update (.inr rfl) (.inr rfl) (fun d hd => .inr (hwant d hd)) (by rintro _ _ ⟨⟩)
          (by rintro _ _ ⟨⟩)
  · cases hstep

variable {accepted rejected : W → List (List UInt8)}

/-- The `pump_send` behind an event. -/
theorem Settling.pump [Fintype W] (h : Settling A s.control s.cs) (hinv : Inv A s accepted rejected)
    {script : List SendOutcome} (hstep : s.pump A script = some t) :
    Settling A t.control t.cs := by
  rw [Bench.pump] at hstep
  split at hstep
  · rename_i w hcontrol
    rw [hcontrol] at h
    obtain ⟨c, hc, hstep⟩ := Option.bind_eq_some_iff.mp hstep
    have hledger := (hinv.held hc).ledger
    split at hstep
    · obtain ⟨⟨c', taken, ok⟩, hcall, rfl⟩ := Option.map_eq_some_iff.mp hstep
      obtain ⟨hpumped, hwant⟩ := pumpSend_pumped hledger.next_le hcall
      refine h.update (.inr rfl) (.inr rfl) ?_ (by rintro _ _ ⟨⟩) ?_
      · rintro d ⟨⟩
        cases ok with
        | true => exact .inr (hwant rfl)
        | false => exact .inl rfl
      · rintro d ⟨⟩ -
        exact hpumped
    · rename_i hdone
      cases hstep
      refine h.moved (.inr rfl) (.inr rfl) (by rintro ⟨⟩) (by rintro _ _ ⟨⟩) ?_
      -- all messages are answered, and so all were sent
      intro d hd _
      rw [hc, Option.some.injEq] at hd
      subst hd
      have hbalance := hledger.balance
      have hnext := hledger.next_le
      have hall := hledger.done_eq
      left
      omega
  · cases hstep

/-- The end of an event. -/
theorem Settling.finish (h : Settling A s.control s.cs) (hstep : s.finish A = some t) :
    Settling A t.control t.cs := by
  rw [Bench.finish] at hstep
  split at hstep
  · rename_i w fail hcontrol
    obtain ⟨c, hc, rfl⟩ := Option.map_eq_some_iff.mp hstep
    rw [hcontrol] at h
    have hclosed : Settling A .waiting (Function.update s.cs w none) :=
      h.update (.inr rfl) (.inl rfl) (by rintro _ ⟨⟩) (by rintro _ ⟨⟩) (by rintro _ ⟨⟩)
    split
    · exact hclosed
    · rename_i hfail
      rw [Bool.not_eq_true] at hfail
      subst hfail
      split
      · exact hclosed
      · rename_i hthrough
        refine h.moved (.inr rfl) (.inl rfl) (by rintro ⟨⟩) (fun d hd _ => ?_) (by rintro _ _ ⟨⟩)
        rw [hc, Option.some.injEq] at hd
        subst hd
        exact ⟨h.pumped w c hc rfl, hthrough⟩
  · cases hstep

variable [Fintype W]

theorem Settling.step (h : Settling A s.control s.cs) (hinv : Inv A s accepted rejected)
    {a : BenchAction W} (hstep : s.step A a = some t) : Settling A t.control t.cs := by
  cases a with
  | start script => exact h.start hstep
  | loop =>
    simp only [Bench.step, Bench.loop] at hstep
    split at hstep
    · rename_i hcontrol
      cases hstep
      rw [hcontrol] at h
      refine ⟨fun w c hc => ?_, fun w c hc => ?_, by simp, by simp⟩
      · simpa using h.registered w c hc
      · exact .inr ((h.settled w c hc).resolve_left List.not_mem_nil)
    · cases hstep
  | event w e =>
    simp only [Bench.step, Bench.event] at hstep
    split at hstep
    · rename_i hcontrol
      split at hstep
      · split at hstep
        · cases hstep
          exact h
        · rw [hcontrol] at h
          split at hstep
          all_goals
            cases hstep
            exact h.goesOn (.inl rfl) rfl (by simp)
      · cases hstep
    · cases hstep
  | write script => exact h.write hstep
  | read =>
    simp only [Bench.step, Bench.read] at hstep
    split at hstep
    · rename_i w e hcontrol
      rw [hcontrol] at h
      cases hstep
      split
      all_goals exact h.goesOn (.inr rfl) rfl (by simp)
    · cases hstep
  | recv o => exact h.recv hstep
  | pump script => exact h.pump hinv hstep
  | finish => exact h.finish hstep
  | exit =>
    simp only [Bench.step, Bench.exit] at hstep
    split at hstep
    · rename_i hcontrol
      cases hstep
      rw [hcontrol] at h
      refine ⟨fun w c hc => ?_, fun w c hc => ?_, by simp, by simp⟩
      · rcases h.registered w c hc with hending | hexited | hwant
        · cases hending
        · cases hexited
        · exact .inr (.inr hwant)
      · exact .inr ((h.settled w c hc).resolve_left id)
    · cases hstep

theorem settling_reachable (h : (bench W A).Reachable s) : Settling A s.control s.cs := by
  have hinit : ∀ s, (bench W A).init s →
      (∃ accepted rejected, Inv A s accepted rejected) ∧ Settling A s.control s.cs := by
    rintro s ⟨order, hnodup, hall, rfl⟩
    refine ⟨⟨_, _, .connected A order⟩, ?_, fun w _ _ => .inl (hall w), nofun, ?_⟩
    · rintro w c ⟨⟩
      exact .inr (.inr rfl)
    · rintro rest ⟨⟩
      exact ⟨hnodup, fun _ _ => rfl⟩
  refine (h.invariant hinit ?_).2
  rintro s a t ⟨⟨accepted, rejected, hinv⟩, hsettling⟩ hstep
  exact ⟨hinv.step (benchEffect_of_step hstep), hsettling.step hinv hstep⟩

end Steps

/-! ## At rest -/

section Rest

variable {W : Type} [DecidableEq W] [Fintype W] {A : Args} {number : W → Nat} {s : LoopState W}

/-- The two sides have nothing left to do, and the sockets between them are empty. -/
structure LoopState.AtRest (number : W → Nat) (s : LoopState W) : Prop where
  waiting : s.client.control = .waiting
  stuck : s.server.pool.Stuck
  queue : s.server.wire.reactor.queue = []
  idle : s.server.wire.reactor.control = .idle
  toServer : ∀ w, s.server.wire.received (number w) = (s.client.traffic w).sent
  toClient : ∀ w, (s.client.traffic w).fed = s.server.wire.sent (number w)
  /-- No connection of the client waits for its socket to take more. -/
  written : ∀ w c, s.client.cs w = some c → c.evCur.epollout = false
  /-- The server has every connection that the client has, and nothing left to write. -/
  served : ∀ w c, s.client.cs w = some c → ∃ fd d, s.server.wire.reactor.status fd = some d ∧
    d.connId = number w ∧ d.outbuffer = []

/-- Where both sides are at rest, the client has closed the connection. -/
theorem closed_of_atRest (h : LoopInv number A s) (hrest : s.AtRest number) (w : W) :
    s.client.cs w = none := by
  obtain ⟨accepted, rejected, hinv⟩ := inv_reachable h.client
  obtain ⟨hregistered, hsettled, -, -⟩ := settling_reachable h.client
  rw [hrest.waiting] at hregistered hsettled
  cases hc : s.client.cs w with
  | none => rfl
  | some c =>
    exfalso
    have hheld := hinv.held hc
    obtain ⟨hpumped, hnot⟩ := (hsettled w c hc).resolve_left id
    -- everything is sent
    have hwant := ((hregistered w c hc).resolve_left nofun).resolve_left nofun
    have hout : c.outbuf = [] := by
      have hquiet := hrest.written w c hc
      rw [hwant] at hquiet
      simpa [Conn.want] using hquiet
    have hsent := hheld.sent_eq
    rw [hout, List.append_nil] at hsent
    have hparse : framing.parse (s.server.wire.received (number w)) =
        ⟨messages A c.nextId, false, []⟩ := by
      rw [hrest.toServer, hsent]
      refine parse_encoded fun m hm => ?_
      rw [length_of_mem_messages hm]
      exact A.size_le.trans (by norm_num)
    -- everything has come back
    obtain ⟨fd, d, hopen, hid, hdout⟩ := hrest.served w c hc
    obtain ⟨hwire, hpending, hnone⟩ := resting echo_fits h.server hrest.stuck hrest.queue
      hrest.idle
    rw [← hid] at hparse
    have hback := (sent_perm hwire hopen hpending hnone hdout (congrArg _ hparse)).2
    simp only [WireState.withPool] at hback
    rw [hparse, List.filterMap_some, hid, ← hrest.toClient] at hback
    obtain ⟨msgs, hsubmits, hperm⟩ := hheld.submits
    have hextra := h.extra
    rw [hinv.tally] at hextra
    have hrejected : rejected w = [] := List.length_eq_zero_iff.mp (eq_zero_of_total hextra w)
    rw [hrejected, List.append_nil, hsubmits.submitted_eq (h.fine w c hc)] at hperm
    have hanswered : (accepted w).length = c.nextId :=
      calc
        _ = _ := hperm.symm.length_eq
        _ = _ := hback.length_eq
        _ = c.nextId := by simp [messages]
    -- so none is in flight, and none is left to send
    have hbalance := hheld.ledger.balance
    have hdone := hheld.ledger.done_eq
    have hdepth := A.depth_pos
    rcases hpumped with hall | hmore
    · exact hnot ⟨by omega, by omega, hout⟩
    · omega

/-- Where both sides are at rest, the client has got all its messages back: it has closed
every connection, and if it lost none of them its verdict is `PASS`. -/
theorem closedLoop_completes (h : (closedLoop number A).Reachable s) (hrest : s.AtRest number) :
    (∀ w, s.client.cs w = none) ∧ s.client.alive = 0 ∧
      (s.client.errors = 0 → s.client.verdict A = true) := by
  have hloop := loopInv_reachable h
  obtain ⟨accepted, rejected, hinv⟩ := inv_reachable hloop.client
  have hclosed := closed_of_atRest hloop hrest
  have halive : s.client.alive = 0 :=
    hinv.alive.trans (total_of_zero fun w => congrArg openCount (hclosed w))
  refine ⟨hclosed, halive, fun herrors => ?_⟩
  simp [Bench.verdict, hinv.received_eq herrors halive, hloop.extra, hloop.tampered, herrors,
    halive]

/-- Two messages on one connection, one at a time; the second comes back in two pieces. -/
theorem closedLoop_completes_two :
    let A : Args := ⟨2, 9, 1, true, by decide, by decide, by decide, by decide, by decide⟩
    ∃ s, (closedLoop (fun _ : Unit => 1) A).Reachable s ∧ s.client.tally.received = 2 ∧
      s.client.verdict A = true := by
  intro A
  let echo : List UInt8 → List (LoopAction Unit) := fun msg =>
    [.server (.reactor (.event 5 { epollin := true } [])),
      .server (.reactor (.recv (.data msg))), .server .submit, .server (.notify (some 2)),
      .server (.reactor .endTurn), .server (.look 2), .server (.reactor (.recv .again)),
      .server (.reactor .endTurn), .server (.finish 2), .server (.look 2),
      .server (.reactor .drain), .server (.reactor (.deliver [.accepted 100])),
      .server (.reactor .endTurn), .client (.event () { epollin := true }), .client (.write []),
      .client .read]
  let first := encode (makeMsg 0 9)
  let second := encode (makeMsg 1 9)
  let as : List (LoopAction Unit) := [.client (.start [.accepted 100]), .client .loop,
    .server (.look 0), .server (.look 1), .server (.look 2), .server (.look 3),
    .server (.reactor (.accept 5))] ++ echo first ++
    [.client (.recv (.data first)), .client (.recv .again), .client (.pump [.accepted 100]),
      .client .finish] ++ echo second ++
    [.client (.recv (.data (second.take 6))), .client (.recv (.data (second.drop 6))),
      .client (.pump []), .client .finish]
  let u : LoopState Unit := ⟨{}, Bench.connected [()]⟩
  have hu : (closedLoop (fun _ => 1) A).Reachable u :=
    .of_init ⟨rfl, [()], by simp, fun _ => List.mem_singleton_self _, rfl⟩
  have hrun : (as.foldlM (LoopState.carriedStep (fun _ => 1) A) u).any (fun s =>
      s.server.wire.reactor.answeredBytes < 2 ^ 31 ∧ s.client.control = .waiting ∧
      (∀ w, s.server.pool.threads w = .blocked ∨ s.server.pool.threads w = .left) ∧
      s.server.pool.notifies = 0 ∧ s.server.pool.destructor = .notStarted ∧
      s.server.wire.reactor.queue = [] ∧ s.server.wire.reactor.control = .idle ∧
      s.server.wire.received 1 = (s.client.traffic ()).sent ∧
      (s.client.traffic ()).fed = s.server.wire.sent 1 ∧ s.client.cs () = none ∧
      s.client.errors = 0 ∧ s.client.tally.received = 2) = true := by
    decide +kernel
  obtain ⟨s, hlast, hend⟩ := (Option.any_eq_true _ _).mp hrun
  obtain ⟨hshort, hwaiting, hplaces, hnotifies, hd, hqueue, hidle, htoServer, htoClient, hclosed,
    herrors, hreceived⟩ := of_decide_eq_true hend
  have hreach := closedLoop_of_run hu rfl hlast hshort
  have hrest : s.AtRest (fun _ => 1) := {
    waiting := hwaiting
    stuck := .of_asleep hplaces hnotifies (.inl hd)
    queue := hqueue
    idle := hidle
    toServer _ := htoServer
    toClient _ := htoClient
    written _ _ hc := by cases hclosed.symm.trans hc
    served _ _ hc := by cases hclosed.symm.trans hc }
  exact ⟨s, hreach, hreceived, (closedLoop_completes hreach hrest).2.2 herrors⟩

end Rest

end ServiceInfra.Client
