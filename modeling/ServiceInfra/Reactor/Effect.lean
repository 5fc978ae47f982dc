import ServiceInfra.Net.HalfClose
import ServiceInfra.Reactor.Epoll

/-!
# What a step of the server can do

`Effect` says once what a step can do to the connections and to the requests on their way
through the pool, the workers and the done queue. What holds along the runs of the server
is proved from it, one case an effect.

Main results:
- `addevent_cases`, `endTurn_cases`, `deliver_cases`: the branches of a function
- `step_effect`: every step has one of seven effects, unless a task throws
- `step_throws`: what is left of a task that throws
-/

namespace ServiceInfra.Reactor

open Library
open Net

/-! ## What the functions that branch can do -/

section Cases

variable {s t : ReactorState}

/-- `addevent` closes the connection, begins to read it or has it written, or does nothing. -/
theorem addevent_cases {fd : Nat} {flags : Events} {script : List SendOutcome}
    (h : s.addevent fd flags script = some t) :
    t = s ∨ ∃ c, s.control = .idle ∧ s.status fd = some c ∧
      (t = s.put fd none ∨ t = { s with control := .reading fd } ∨
        ∃ c' taken ok, c.handwrite script = some (c', taken, ok) ∧ t = s.after fd (c', ok)) := by
  unfold ReactorState.addevent at h
  split at h
  · -- no connection there: the event is ignored
    cases h
    exact .inl rfl
  · rename_i c hidle hstatus
    have hwrite : ∀ {t}, (c.handwrite script).map (fun x => s.after fd (x.1, x.2.2)) = some t →
        ∃ c' taken ok, c.handwrite script = some (c', taken, ok) ∧ t = s.after fd (c', ok) := by
      intro t ht
      obtain ⟨⟨c', taken, ok⟩, hcall, rfl⟩ := Option.map_eq_some_iff.mp ht
      exact ⟨c', taken, ok, hcall, rfl⟩
    split at h
    · split at h
      · exact .inr ⟨c, hidle, hstatus, .inr (.inr (hwrite h))⟩
      · cases h
        exact .inl rfl
    · split at h
      · cases h
        exact .inr ⟨c, hidle, hstatus, .inl rfl⟩
      · split at h
        · cases h
          exact .inr ⟨c, hidle, hstatus, .inr (.inl rfl)⟩
        · split at h
          · exact .inr ⟨c, hidle, hstatus, .inr (.inr (hwrite h))⟩
          · cases h
            exact .inl rfl
  · cases h

/-- A turn of `handreadable` goes on, or its end keeps or closes the connection; or the loop
of `ondone` is over. -/
theorem endTurn_cases (h : s.endTurn = some t) :
    (∃ fd, s.control = .submitting fd [] .again ∧ t = { s with control := .reading fd }) ∨
      (∃ fd c, s.control = .submitting fd [] .eof ∧ s.status fd = some c ∧
        t = { s with control := .idle }.after fd c.eofReturn) ∨
      (∃ fd ok c, s.control = .submitting fd [] (.ret ok) ∧ s.status fd = some c ∧
        t = { s with control := .idle }.after fd (c, ok)) ∨
      (s.control = .delivering [] ∧ t = { s with control := .idle }) := by
  unfold ReactorState.endTurn at h
  split at h
  · rename_i fd hcontrol
    cases h
    exact .inl ⟨fd, hcontrol, rfl⟩
  · rename_i fd hcontrol
    obtain ⟨c, hstatus, rfl⟩ := Option.map_eq_some_iff.mp h
    exact .inr (.inl ⟨fd, c, hcontrol, hstatus, rfl⟩)
  · rename_i fd ok hcontrol
    obtain ⟨c, hstatus, rfl⟩ := Option.map_eq_some_iff.mp h
    exact .inr (.inr (.inl ⟨fd, ok, c, hcontrol, hstatus, rfl⟩))
  · rename_i hcontrol
    cases h
    exact .inr (.inr (.inr ⟨hcontrol, rfl⟩))
  · cases h

/-- `deliver` drops an item of which the connection is closed. Otherwise it is the turn of
`ondone` on the connection. -/
theorem deliver_cases {script : List SendOutcome} (h : s.deliver script = some t) :
    ∃ item items, s.control = .delivering (item :: items) ∧
      (((∀ c, s.status item.fd = some c → c.connId ≠ item.id) ∧
          t = { s with control := .delivering items, dropped := s.dropped ++ [item.req] }) ∨
        ∃ c c' taken ok, s.status item.fd = some c ∧ c.connId = item.id ∧
          c.ondone item.resp script = some (c', taken, ok) ∧
          t = { s with
            control := .delivering items
            responded := s.responded ++ [Response.mk c.connId item.resp item.req] }.after
              item.fd (c', ok)) := by
  unfold ReactorState.deliver at h
  split at h
  · rename_i item items hcontrol
    refine ⟨item, items, hcontrol, ?_⟩
    dsimp only at h
    split at h
    · -- the descriptor is free
      rename_i hstatus
      cases h
      exact .inl ⟨by simp [hstatus], rfl⟩
    · rename_i c hstatus
      split at h
      · -- the descriptor belongs to another connection by now
        rename_i hother
        cases h
        refine .inl ⟨fun c' hc' => ?_, rfl⟩
        rw [hstatus] at hc'
        cases hc'
        exact hother
      · rename_i hsame
        obtain ⟨⟨c', taken, ok⟩, hcall, rfl⟩ := Option.map_eq_some_iff.mp h
        have hturn : c.ondone item.resp script = some (c', taken,
            ok && !decide (c'.peerClose ∧ c'.outbuffer = [] ∧ c'.inflight = 0)) :=
          Option.map_eq_some_iff.mpr ⟨_, hcall, rfl⟩
        exact .inr ⟨c, c', taken, _, hstatus, not_not.mp hsame, hturn, rfl⟩
  · cases h

end Cases

/-! ## Where the requests are -/

namespace ReactorState

/-- The finished items not yet delivered: those in the done queue and those drained. -/
def items (s : ReactorState) : List DoitItem := s.queue ++ s.control.items

/-- The requests waiting in the pool, running, or finished and not yet delivered. -/
def held (s : ReactorState) : List Request :=
  s.tasks ++ s.running ++ s.items.map DoitItem.req

/-- The requests decoded and not yet submitted. -/
def pending (s : ReactorState) : List Request := s.control.pending

end ReactorState

/-- An item carries the response to its request, and the connection the request came from. -/
structure ItemOk (handler : List UInt8 → Option (List UInt8)) (item : DoitItem) : Prop where
  fd_eq : item.fd = item.req.fd
  id_eq : item.id = item.req.id
  resp_eq : handler item.req.msg = some item.resp

/-! ## What a step can do -/

/-- The effect of a step on the connections and the requests. -/
inductive Effect (handler : List UInt8 → Option (List UInt8)) (s : ReactorState) :
    ReactorState → Prop where
  /-- Requests move between the pool, the workers and the items, or nothing moves. -/
  | moved {stopping : Bool} {tasks running : List Request} {queue : List DoitItem}
      {control : Control} :
      control.pending = s.control.pending → (control = s.control ∨ control.pending = []) →
      (tasks ++ running ++ (queue ++ control.items).map DoitItem.req).Perm s.held →
      (∀ i ∈ queue ++ control.items, i ∈ s.items ∨ ItemOk handler i) →
      Effect handler s { s with stopping, tasks, running, queue, control }
  /-- A handler changes or closes one connection. -/
  | conn {fd : Nat} {c : Connection} {oc : Option Connection} {control : Control} :
      s.status fd = some c → (∀ c', oc = some c' → c.Keeps c') →
      s.control.pending = [] → control.pending = [] → control.items = s.control.items →
      Effect handler s ({ s with control }.put fd oc)
  /-- A connection is accepted. -/
  | accepted {fd : Nat} :
      s.control.pending = [] → s.status fd = none →
      Effect handler s ({ s with connId := s.connId + 1 }.put fd (some { connId := s.connId + 1 }))
  /-- Requests are decoded on a connection. -/
  | decoded {fd : Nat} {c c' : Connection} {msgs : List (List UInt8)}
      {next : Connection.ReadNext} :
      s.control = .reading fd → s.status fd = some c → c.Keeps c' →
      Effect handler s
        ({ s with
            decoded := s.decoded ++ ReactorState.number fd c.connId s.decoded.length msgs
            control := .submitting fd
              (ReactorState.number fd c.connId s.decoded.length msgs) next }.put fd (some c'))
  /-- A request is submitted, and counted. -/
  | submitted {fd : Nat} {c : Connection} {req : Request} {reqs : List Request}
      {next : Connection.ReadNext} :
      s.control = .submitting fd (req :: reqs) next → s.status fd = some c →
      Effect handler s
        ({ s with tasks := s.tasks ++ [req], control := .submitting fd reqs next }.put fd
          (some c.submitted))
  /-- A response is passed to the connection of its item, which is counted down. -/
  | responded {item : DoitItem} {items : List DoitItem} {c : Connection}
      {oc : Option Connection} :
      s.control = .delivering (item :: items) → s.status item.fd = some c →
      c.connId = item.id →
      (∀ c', oc = some c' → c'.connId = c.connId ∧ c'.inflight = c.inflight - 1) →
      Effect handler s
        ({ s with
            responded := s.responded ++ [Response.mk c.connId item.resp item.req]
            control := .delivering items }.put item.fd oc)
  /-- The connection of an item is closed. -/
  | dropped {item : DoitItem} {items : List DoitItem} :
      s.control = .delivering (item :: items) →
      (∀ c, s.status item.fd = some c → c.connId ≠ item.id) →
      Effect handler s
        { s with dropped := s.dropped ++ [item.req], control := .delivering items }

section StepEffect

variable {handler : List UInt8 → Option (List UInt8)} {s t : ReactorState}

/-- A step that moves nothing. -/
theorem effect_refl {stopping : Bool} {control : Control}
    (hpending : control.pending = s.control.pending)
    (hcontrol : control = s.control ∨ control.pending = [])
    (hitems : control.items = s.control.items) :
    Effect handler s { s with stopping, control } := by
  refine .moved hpending hcontrol ?_ ?_
  · rw [hitems]
    rfl
  · intro i hi
    rw [hitems] at hi
    exact .inl hi

/-- What `after` leaves of a connection that a call has kept. -/
theorem after_keeps {c c' : Connection} (h : c.Keeps c') (ok : Bool) :
    ∀ d, (if ok then some c' else none) = some d → c.Keeps d := by
  intro d hd
  cases ok with
  | false => cases hd
  | true =>
    cases hd
    exact h

theorem addevent_effect {fd : Nat} {flags : Events} {script : List SendOutcome}
    (h : s.addevent fd flags script = some t) : Effect handler s t := by
  rcases addevent_cases h with rfl | ⟨c, hidle, hstatus, hbranch⟩
  · exact effect_refl rfl (.inl rfl) rfl
  · have hpending : s.control.pending = [] := by rw [hidle]; rfl
    rcases hbranch with rfl | rfl | ⟨c', taken, ok, hcall, rfl⟩
    · exact .conn hstatus (by simp) hpending hpending rfl
    · apply effect_refl
      · rw [hpending]
        rfl
      · exact .inr rfl
      · rw [hidle]
        rfl
    · exact .conn hstatus (after_keeps (Connection.handwrite_keeps hcall) ok) hpending hpending rfl

theorem endTurn_effect (h : s.endTurn = some t) : Effect handler s t := by
  -- nothing is pending at the end of a turn, and no item is in hand but for `ondone`
  rcases endTurn_cases h with ⟨fd, hcontrol, rfl⟩ | ⟨fd, c, hcontrol, hstatus, rfl⟩ |
    ⟨fd, ok, c, hcontrol, hstatus, rfl⟩ | ⟨hcontrol, rfl⟩
  · apply effect_refl
    · rw [hcontrol]
      rfl
    · exact .inr rfl
    · rw [hcontrol]
      rfl
  · apply Effect.conn hstatus (after_keeps c.eofReturn_keeps c.eofReturn.2)
    · rw [hcontrol]
      rfl
    · rfl
    · rw [hcontrol]
      rfl
  · apply Effect.conn hstatus (after_keeps .rfl ok)
    · rw [hcontrol]
      rfl
    · rfl
    · rw [hcontrol]
      rfl
  · apply effect_refl
    · rw [hcontrol]
      rfl
    · exact .inr rfl
    · rw [hcontrol]
      rfl

theorem deliver_effect {script : List SendOutcome} (h : s.deliver script = some t) :
    Effect handler s t := by
  obtain ⟨item, items, hcontrol, ⟨hother, rfl⟩ | ⟨c, c', taken, ok, hstatus, hid, hturn, rfl⟩⟩ :=
    deliver_cases h
  · exact .dropped hcontrol hother
  · -- `ondone` keeps the number, and counts the response
    apply Effect.responded hcontrol hstatus hid
    intro d hd
    cases ok with
    | false => cases hd
    | true =>
      cases hd
      exact ⟨Connection.ondone_connId hturn, Connection.ondone_inflight hturn⟩

/-- A task that runs is one of the running ones, before it is taken off. -/
theorem running_perm {worker : Nat} {req : Request} (h : s.running[worker]? = some req) :
    s.running.Perm (req :: s.running.eraseIdx worker) := by
  obtain ⟨hlt, rfl⟩ := List.getElem?_eq_some_iff.mp h
  exact (List.getElem_cons_eraseIdx_perm hlt).symm

/-- A worker whose task returns hands the request back with an item. -/
theorem complete_effect {worker : Nat} {req : Request} {resp : List UInt8}
    (hreq : s.running[worker]? = some req) (hresp : handler req.msg = some resp) :
    Effect handler s { s with
      running := s.running.eraseIdx worker
      queue := s.queue ++ [⟨req.fd, req.id, resp, req⟩] } := by
  refine .moved rfl (.inl rfl) ?_ ?_
  · -- the request leaves the running ones and comes back with an item
    apply List.perm_iff_count.mpr
    intro r
    have hcount := (running_perm hreq).count_eq r
    simp only [ReactorState.held, ReactorState.items, List.map_append, List.map_cons,
      List.map_nil, List.count_append, List.count_cons, List.count_nil] at hcount ⊢
    omega
  · intro i hi
    rcases List.mem_append.mp hi with hqueue | hhand
    · rcases List.mem_append.mp hqueue with hold | hnew
      · exact .inl (List.mem_append_left _ hold)
      · rw [List.mem_singleton.mp hnew]
        exact .inr ⟨rfl, rfl, hresp⟩
    · exact .inl (List.mem_append_right _ hhand)

/-- The step is the end of a task that throws. -/
def Throws (handler : List UInt8 → Option (List UInt8)) (s : ReactorState) : Action → Prop
  | .complete worker => ∃ req, s.running[worker]? = some req ∧ handler req.msg = none
  | _ => False

theorem not_throws (hreturns : ∀ msg, (handler msg).isSome) (a : Action) :
    ¬ Throws handler s a := by
  cases a with
  | complete worker =>
    rintro ⟨req, -, hnone⟩
    have hsome := hreturns req.msg
    rw [hnone] at hsome
    cases hsome
  | _ => exact id

/-- Nothing comes back for the request of a task that throws. -/
theorem step_throws {a : Action} (hthrows : Throws handler s a)
    (h : s.step handler a = some t) :
    ∃ worker req, a = .complete worker ∧ s.running[worker]? = some req ∧
      t = { s with running := s.running.eraseIdx worker } := by
  cases a with
  | complete worker =>
    obtain ⟨req, hreq, hnone⟩ := hthrows
    refine ⟨worker, req, rfl, hreq, ?_⟩
    simp only [ReactorState.step, ReactorState.complete, hreq, Option.map_some, hnone] at h
    cases h
    rfl
  | _ => exact hthrows.elim

/-- Every other step has one of the seven effects. -/
theorem step_effect {a : Action} (hreturns : ¬ Throws handler s a)
    (h : s.step handler a = some t) : Effect handler s t := by
  cases a with
  | complete worker =>
    simp only [ReactorState.step, ReactorState.complete] at h
    obtain ⟨req, hreq, ht⟩ := Option.map_eq_some_iff.mp h
    cases hresp : handler req.msg with
    | none => exact absurd ⟨req, hreq, hresp⟩ hreturns
    | some resp =>
      rw [hresp] at ht
      cases ht
      exact complete_effect hreq hresp
  | accept fd =>
    simp only [ReactorState.step, ReactorState.onaccept] at h
    split at h
    · rename_i hcontrol hstatus
      cases h
      -- a new descriptor, and a new number
      exact .accepted (by rw [hcontrol]; rfl) hstatus
    · cases h
  | event fd flags script => exact addevent_effect h
  | recv o =>
    simp only [ReactorState.step, ReactorState.recv] at h
    split at h
    · rename_i fd hcontrol
      obtain ⟨c, hstatus, rfl⟩ := Option.map_eq_some_iff.mp h
      -- `receive` changes the decoder, and the requests are numbered
      exact .decoded hcontrol hstatus (c.receive_keeps o)
    · cases h
  | submit =>
    simp only [ReactorState.step, ReactorState.submit] at h
    split at h
    · rename_i fd req reqs next hcontrol
      obtain ⟨c, hstatus, rfl⟩ := Option.map_eq_some_iff.mp h
      exact .submitted hcontrol hstatus
    · cases h
  | endTurn => exact endTurn_effect h
  | drain =>
    -- the items change hands
    simp only [ReactorState.step, ReactorState.drain] at h
    split at h
    · rename_i hcontrol
      cases h
      apply Effect.moved
      · rw [hcontrol]
        rfl
      · exact .inr rfl
      · simp [ReactorState.held, ReactorState.items, hcontrol, Control.items]
      · intro i hi
        exact .inl (List.mem_append_left _ hi)
    · cases h
  | deliver script => exact deliver_effect h
  | take =>
    simp only [ReactorState.step, ReactorState.take] at h
    split at h
    · cases h
    · rename_i req tasks htasks
      split at h
      · cases h
        refine .moved rfl (.inl rfl) ?_ fun i hi => .inl hi
        -- the first task is the last of the running ones
        apply List.Perm.append_right
        rw [htasks, List.cons_append, ← List.append_assoc]
        exact List.perm_append_singleton req _
      · cases h
  | stop =>
    cases h
    exact effect_refl rfl (.inl rfl) rfl
  | finish fd =>
    simp only [ReactorState.step, ReactorState.finish] at h
    split at h
    · rename_i c hcontrol hstatus
      split at h
      · cases h
        exact .conn hstatus (by simp) (by rw [hcontrol]; rfl) (by rw [hcontrol]; rfl) rfl
      · cases h
    · cases h

end StepEffect

end ServiceInfra.Reactor
