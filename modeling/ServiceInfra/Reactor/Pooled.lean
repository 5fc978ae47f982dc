import ServiceInfra.Reactor.EndToEnd
import ServiceInfra.ThreadPool.Progress

/-!
# The server on its thread pool

`ReactorState` has the pool as two lists, the tasks that wait and those that run. Here the
server runs on the pool itself, with its four workers, its condition variable and its
notifies. A step of the pool is matched by one of the two lists or by none, so what holds
of the server holds of the server on its pool; and where the pool is at rest, nothing of
the server is left to do but to deliver what it has.

Main results:
- `pooledSimulation`: the two lists are what the pool amounts to
- `pooled_served_perm`: at rest, every message on an open connection has been answered
-/

namespace ServiceInfra.Reactor

open Library ThreadPool

/-! ## Definitions -/

instance : NeZero epollPoll := ⟨by decide⟩

/-- The server with its pool in the place of `tasks` and `running`. -/
structure PooledState where
  wire : WireState := {}
  /-- `epoll_poll`. -/
  pool : PoolState (Fin epollPoll) Request := {}

/-- The labels of the steps. -/
inductive PooledAction where
  /-- A step of the reactor that is none of the pool. -/
  | reactor (a : Action)
  /-- `inflight++` and `pool->submit` up to its notify. -/
  | submit
  | notify (worker : Option (Fin epollPoll))
  | look (w : Fin epollPoll)
  | wake (w : Fin epollPoll)
  /-- The end of a task: the response is pushed, or the handler has thrown. -/
  | finish (w : Fin epollPoll)
  deriving DecidableEq, Repr

/-- A step that reads or writes `tasks` and `running`. -/
def Action.usesPool : Action → Bool
  | .submit | .take | .complete _ => true
  | _ => false

/-- The end of a task, as far as the done queue goes. -/
def ReactorState.pushed (s : ReactorState) (req : Request) : Option (List UInt8) → ReactorState
  | some resp => { s with queue := s.queue ++ [⟨req.fd, req.id, resp, req⟩] }
  | none => s

namespace PooledState

/-- `submit` of the request in turn. -/
def submit (s : PooledState) : Option PooledState :=
  match s.wire.reactor.control with
  | .submitting _ (req :: _) _ =>
      s.wire.reactor.submit.bind fun reactor =>
        (s.pool.submit req).map fun pool =>
          { wire := { s.wire with reactor := { reactor with tasks := s.wire.reactor.tasks } }
            pool }
  | _ => none

/-- The end of the task that the worker runs. -/
def finish (handler : List UInt8 → Option (List UInt8)) (s : PooledState)
    (w : Fin epollPoll) : Option PooledState :=
  match s.pool.threads w with
  | .running req =>
      (s.pool.finish w (handler req.msg).isNone).map fun pool =>
        { wire := { s.wire with reactor := s.wire.reactor.pushed req (handler req.msg) }, pool }
  | _ => none

/-- One step. -/
def step (handler : List UInt8 → Option (List UInt8)) (s : PooledState) :
    PooledAction → Option PooledState
  | .reactor a =>
      if a.usesPool then none else (s.wire.step handler a).map fun wire => { s with wire }
  | .submit => s.submit
  | .notify worker => (s.pool.notify worker).map fun pool => { s with pool }
  | .look w => (s.pool.look w).map fun pool => { s with pool }
  | .wake w => (s.pool.wake w).map fun pool => { s with pool }
  | .finish w => s.finish handler w

end PooledState

/-- The runs of the server on its pool in which the output buffers stay below `2 ^ 31`
bytes. -/
def pooled (handler : List UInt8 → Option (List UInt8)) :
    TransitionSystem PooledState PooledAction where
  init s := s = {}
  step s a t := s.step handler a = some t ∧ BuffersSmall t.wire.reactor

/-- The server with these tasks and running tasks. -/
def WireState.withPool (w : WireState) (tasks running : List Request) : WireState :=
  { w with reactor := { w.reactor with tasks, running } }

/-- The two lists of `v` are what the pool of `s` amounts to. -/
structure Implements (s : PooledState) (v : WireState) : Prop where
  stopping : s.pool.stopping = false
  running : (v.reactor.running : Multiset Request) = total Worker.held s.pool.threads
  wire : v = s.wire.withPool s.pool.tasks v.reactor.running

/-! ## The simulation -/

section Steps

variable {handler : List UInt8 → Option (List UInt8)} {w v : WireState}
  {tasks running : List Request}

variable (handler tasks running) in
/-- The other steps neither read nor write the two lists. -/
theorem reactorStep_withPool (s : ReactorState) {a : Action} (ha : a.usesPool = false) :
    ReactorState.step handler { s with tasks, running } a =
      (s.step handler a).map fun t => { t with tasks, running } := by
  cases a with
  | submit | take | complete => cases ha
  | accept fd =>
    simp only [ReactorState.step, ReactorState.onaccept]
    split <;> rfl
  | event fd flags script =>
    simp only [ReactorState.step, ReactorState.addevent]
    split
    · rfl
    · split_ifs <;> first | rfl | (rw [Option.map_map]; rfl)
    · rfl
  | recv o =>
    simp only [ReactorState.step, ReactorState.recv]
    split
    · rw [Option.map_map]
      rfl
    · rfl
  | endTurn =>
    simp only [ReactorState.step, ReactorState.endTurn]
    split <;> first | rfl | (rw [Option.map_map]; rfl)
  | drain =>
    simp only [ReactorState.step, ReactorState.drain]
    split <;> rfl
  | deliver script =>
    simp only [ReactorState.step, ReactorState.deliver]
    split
    · split
      · rfl
      · split_ifs
        · rfl
        · rw [Option.map_map]
          rfl
    · rfl
  | stop => rfl
  | finish fd =>
    simp only [ReactorState.step, ReactorState.finish]
    split
    · split_ifs <;> rfl
    · rfl

theorem step_withPool {a : Action} (ha : a.usesPool = false) :
    (w.withPool tasks running).step handler a =
      (w.step handler a).map fun v => v.withPool tasks running := by
  have hin : (w.withPool tasks running).reactor.inbound a = w.reactor.inbound a := by
    cases a <;> rfl
  have hout : (w.withPool tasks running).reactor.outbound a = w.reactor.outbound a := by
    cases a <;> rfl
  rw [WireState.step, WireState.step, hin, hout, Option.map_map]
  have hreactor := reactorStep_withPool handler tasks running w.reactor ha
  rw [show (w.withPool tasks running).reactor = { w.reactor with tasks, running } from rfl,
    hreactor, Option.map_map]
  rfl

/-- `submit` puts the request in turn behind the others. -/
theorem submit_withPool {r : ReactorState} {fd : Nat} {req : Request} {reqs : List Request}
    {next : Net.Connection.ReadNext}
    (hcontrol : w.reactor.control = .submitting fd (req :: reqs) next)
    (h : w.reactor.submit = some r) :
    (w.withPool tasks running).step handler .submit =
      some ({ w with reactor := r }.withPool (tasks ++ [req]) running) := by
  simp only [ReactorState.submit, hcontrol] at h
  obtain ⟨c, hstatus, rfl⟩ := Option.map_eq_some_iff.mp h
  simp only [WireState.step, ReactorState.step, ReactorState.submit, WireState.withPool, hcontrol,
    hstatus, Option.map_some]
  rfl

theorem take_withPool {req : Request} (hlen : running.length < epollPoll) :
    (w.withPool (req :: tasks) running).step handler .take =
      some (w.withPool tasks (running ++ [req])) := by
  have htake : ReactorState.take { w.reactor with tasks := req :: tasks, running } =
      some { w.reactor with tasks, running := running ++ [req] } := if_pos hlen
  rw [WireState.step, ReactorState.step]
  exact congrArg (Option.map _) htake

theorem complete_withPool {i : Nat} {req : Request} (hi : running[i]? = some req) :
    (w.withPool tasks running).step handler (.complete i) =
      some ({ w with reactor := w.reactor.pushed req (handler req.msg) }.withPool tasks
        (running.eraseIdx i)) := by
  simp only [WireState.step, ReactorState.step, ReactorState.complete, WireState.withPool, hi,
    Option.map_some]
  cases handler req.msg <;> rfl

end Steps

section Simulation

variable {handler : List UInt8 → Option (List UInt8)} {s t : PooledState} {v : WireState}

/-- Only the places of the workers change. -/
theorem Implements.of_pool (h : Implements s v) {pool : PoolState (Fin epollPoll) Request}
    (hstopping : pool.stopping = s.pool.stopping) (htasks : pool.tasks = s.pool.tasks)
    (hheld : total Worker.held pool.threads = total Worker.held s.pool.threads) :
    Implements { s with pool } v where
  stopping := hstopping.trans h.stopping
  running := h.running.trans hheld.symm
  wire := by
    rw [show ({ s with pool } : PooledState).pool.tasks = s.pool.tasks from htasks]
    exact h.wire

/-- A worker goes from one place to another and has no task at either. -/
theorem held_goTo_eq {pool : PoolState (Fin epollPoll) Request} {w : Fin epollPoll}
    {place : Worker Request} (hw : (pool.threads w).held = 0) (hplace : place.held = 0) :
    total Worker.held (pool.goTo w place).threads = total Worker.held pool.threads := by
  have hheld := held_goTo pool w place
  rwa [hw, hplace, add_zero, add_zero] at hheld

/-- While a worker has no task, fewer tasks run than there are workers. -/
theorem held_card_lt {pool : PoolState (Fin epollPoll) Request} {w : Fin epollPoll}
    (hw : (pool.threads w).held = 0) (req : Request) :
    (total Worker.held pool.threads).card < epollPoll := by
  -- give the worker a task: there is still one for every worker at most
  have hheld := held_goTo pool w (.running req)
  rw [hw, add_zero] at hheld
  have hone : ∀ place : Worker Request, place.held.card ≤ 1 := fun place => by
    cases place <;> simp [Worker.held]
  have hle : (total Worker.held (pool.goTo w (.running req)).threads).card ≤ _ :=
    (map_sum Multiset.cardHom _ _).trans_le
      (total_le_card fun v => hone ((pool.goTo w (.running req)).threads v))
  rw [hheld, Fintype.card_fin, Multiset.card_add] at hle
  have hrun : (Worker.running req).held.card = 1 := rfl
  omega

variable (handler) in
/-- A critical section of a worker. -/
theorem Implements.look (h : Implements s v) {w : Fin epollPoll}
    {pool : PoolState (Fin epollPoll) Request}
    (heffect : ThreadPool.Effect s.pool (.look w) pool) :
    Implements { s with pool } v ∨
      ∃ u, v.step handler .take = some u ∧ Implements { s with pool } u := by
  cases heffect with
  | left hw hstopping =>
    rw [h.stopping] at hstopping
    cases hstopping
  | slept hw =>
    exact .inl (h.of_pool rfl rfl (held_goTo_eq (Worker.held_of_looking hw) rfl))
  | @took _ req tasks hw _ htasks =>
    right
    have hnone := Worker.held_of_looking hw
    have hlen : v.reactor.running.length < epollPoll := by
      have hlt := held_card_lt hnone req
      rwa [← h.running, Multiset.coe_card] at hlt
    have hheld := held_goTo s.pool w (.running req)
    rw [hnone, add_zero, ← h.running] at hheld
    have hstep : v.step handler .take =
        some (s.wire.withPool tasks (v.reactor.running ++ [req])) := by
      rw [h.wire, htasks]
      exact take_withPool hlen
    exact ⟨_, hstep, h.stopping, hheld.symm, rfl⟩

/-- The end of a task. -/
theorem Implements.finish (h : Implements s v) {w : Fin epollPoll}
    (hstep : s.finish handler w = some t) :
    ∃ i u, v.step handler (.complete i) = some u ∧ Implements t u := by
  rw [PooledState.finish] at hstep
  split at hstep
  · rename_i req hw
    obtain ⟨pool, hpool, rfl⟩ := Option.map_eq_some_iff.mp hstep
    simp only [PoolState.finish, hw, Option.some.injEq] at hpool
    subst hpool
    have hheld := held_goTo s.pool w .free
    rw [hw, ← h.running] at hheld
    -- the task is somewhere in the list
    have hmem : req ∈ v.reactor.running := by
      rw [← Multiset.mem_coe, ← add_zero (v.reactor.running : Multiset Request)]
      refine hheld ▸ ?_
      exact Multiset.mem_add.mpr (.inr (Multiset.mem_singleton_self req))
    obtain ⟨i, hlt, hget⟩ := List.getElem_of_mem hmem
    have hi : v.reactor.running[i]? = some req := List.getElem?_eq_some_iff.mpr ⟨hlt, hget⟩
    have hstep : v.step handler (.complete i) =
        some ({ s.wire with reactor := s.wire.reactor.pushed req (handler req.msg) }.withPool
          s.pool.tasks (v.reactor.running.eraseIdx i)) := by
      conv_lhs => rw [h.wire]
      exact complete_withPool hi
    refine ⟨i, _, hstep, h.stopping, ?_, rfl⟩
    have hperm := List.getElem_cons_eraseIdx_perm hlt
    rw [hget] at hperm
    have hrest : total Worker.held (s.pool.goTo w .free).threads + {req} =
        (v.reactor.running.eraseIdx i : Multiset Request) + {req} :=
      calc
        _ = (v.reactor.running : Multiset Request) + 0 := hheld
        _ = v.reactor.running := add_zero _
        _ = (req :: v.reactor.running.eraseIdx i : List Request) :=
          (Multiset.coe_eq_coe.mpr hperm).symm
        _ = _ := by rw [← Multiset.cons_coe, ← Multiset.singleton_add, add_comm]
    exact (add_right_cancel hrest).symm
  · cases hstep

/-- What the server on its pool does in one step, the server does or it does nothing. -/
theorem implements_step (h : Implements s v) {a : PooledAction}
    (hstep : s.step handler a = some t) :
    Implements t v ∨ ∃ b u, v.step handler b = some u ∧ Implements t u := by
  cases a with
  | reactor a =>
    simp only [PooledState.step] at hstep
    split at hstep
    · cases hstep
    · rename_i ha
      obtain ⟨w, hw, rfl⟩ := Option.map_eq_some_iff.mp hstep
      have hframe : v.step handler a = some (w.withPool s.pool.tasks v.reactor.running) := by
        conv_lhs => rw [h.wire]
        rw [step_withPool (Bool.not_eq_true _ ▸ ha), hw]
        rfl
      exact .inr ⟨a, _, hframe, h.stopping, h.running, rfl⟩
  | submit =>
    simp only [PooledState.step, PooledState.submit] at hstep
    split at hstep
    · rename_i fd req reqs next hcontrol
      obtain ⟨r, hr, hstep⟩ := Option.bind_eq_some_iff.mp hstep
      obtain ⟨pool, hpool, rfl⟩ := Option.map_eq_some_iff.mp hstep
      cases effect_of_step (a := .submit req) hpool with
      | refused hstopping =>
        rw [h.stopping] at hstopping
        cases hstopping
      | submitted =>
        have hsubmit : v.step handler .submit = some ({ s.wire with reactor := r }.withPool
            (s.pool.tasks ++ [req]) v.reactor.running) := by
          conv_lhs => rw [h.wire]
          exact submit_withPool hcontrol hr
        exact .inr ⟨.submit, _, hsubmit, h.stopping, h.running, rfl⟩
    · cases hstep
  | notify worker =>
    obtain ⟨pool, hpool, rfl⟩ := Option.map_eq_some_iff.mp hstep
    left
    cases effect_of_notify hpool with
    | unheard => exact h.of_pool rfl rfl rfl
    | heard _ hw => exact h.of_pool rfl rfl (held_goTo_eq (congrArg _ hw) rfl)
  | look w =>
    obtain ⟨pool, hpool, rfl⟩ := Option.map_eq_some_iff.mp hstep
    rcases h.look handler (effect_of_look hpool) with hsame | ⟨u, hu, himpl⟩
    · exact .inl hsame
    · exact .inr ⟨.take, u, hu, himpl⟩
  | wake w =>
    obtain ⟨pool, hpool, rfl⟩ := Option.map_eq_some_iff.mp hstep
    left
    cases effect_of_step (a := .wake w) hpool with
    | woke hw => exact h.of_pool rfl rfl (held_goTo_eq (congrArg _ hw) rfl)
  | finish w =>
    obtain ⟨i, u, hu, himpl⟩ := h.finish hstep
    exact .inr ⟨.complete i, u, hu, himpl⟩

/-- The output buffers are those of the server. -/
theorem Implements.small_iff (h : Implements s v) :
    BuffersSmall v.reactor ↔ BuffersSmall s.wire.reactor := by
  rw [h.wire]
  rfl

/-- The server on its pool does what the server does. -/
theorem pooledSimulation :
    TransitionSystem.Simulation (pooled handler) (wire handler) Implements where
  init s hs := by
    subst hs
    exact ⟨{}, rfl, rfl, (total_of_zero fun _ => rfl).symm, rfl⟩
  step s a t v hstep himpl := by
    obtain ⟨hstep, hsmall⟩ := hstep
    rcases implements_step himpl hstep with hsame | ⟨b, u, hu, hnext⟩
    · exact .inl hsame
    · exact .inr ⟨b, u, ⟨hu, hnext.small_iff.mpr hsmall⟩, hnext⟩

/-- The pool of the server is a pool from its constructor on. -/
theorem poolSimulation :
    TransitionSystem.Simulation (pooled handler) (threadPool (Fin epollPoll) Request)
      fun s pool => s.pool = pool where
  init s hs := ⟨{}, rfl, congrArg PooledState.pool hs⟩
  step s a t pool hstep hpool := by
    subst hpool
    obtain ⟨hstep, -⟩ := hstep
    cases a with
    | reactor a =>
      simp only [PooledState.step] at hstep
      split at hstep
      · cases hstep
      · obtain ⟨w, -, rfl⟩ := Option.map_eq_some_iff.mp hstep
        exact .inl rfl
    | submit =>
      simp only [PooledState.step, PooledState.submit] at hstep
      split at hstep
      · rename_i req _ _ _
        obtain ⟨r, -, hstep⟩ := Option.bind_eq_some_iff.mp hstep
        obtain ⟨pool, hpool, rfl⟩ := Option.map_eq_some_iff.mp hstep
        exact .inr ⟨.submit req, pool, hpool, rfl⟩
      · cases hstep
    | notify worker =>
      obtain ⟨pool, hpool, rfl⟩ := Option.map_eq_some_iff.mp hstep
      exact .inr ⟨.notify worker, pool, hpool, rfl⟩
    | look w =>
      obtain ⟨pool, hpool, rfl⟩ := Option.map_eq_some_iff.mp hstep
      exact .inr ⟨.look w, pool, hpool, rfl⟩
    | wake w =>
      obtain ⟨pool, hpool, rfl⟩ := Option.map_eq_some_iff.mp hstep
      exact .inr ⟨.wake w, pool, hpool, rfl⟩
    | finish w =>
      simp only [PooledState.step, PooledState.finish] at hstep
      split at hstep
      · rename_i req _
        obtain ⟨pool, hpool, rfl⟩ := Option.map_eq_some_iff.mp hstep
        exact .inr ⟨.finish w (handler req.msg).isNone, pool, hpool, rfl⟩
      · cases hstep

/-- Where no worker can do a step, the done queue is empty and the reactor is idle, the
server holds no request. -/
theorem resting (hfit : AnswersFit handler) (h : (pooled handler).Reachable s)
    (hstuck : s.pool.Stuck) (hqueue : s.wire.reactor.queue = [])
    (hidle : s.wire.reactor.control = .idle) :
    WireInv handler (s.wire.withPool [] []) ∧ (s.wire.withPool [] []).reactor.pending = [] ∧
      (s.wire.withPool [] []).reactor.held = [] := by
  obtain ⟨v, hv, himpl⟩ := pooledSimulation.reachable h
  obtain ⟨pool, hpool, rfl⟩ := poolSimulation.reachable h
  -- the pool has no task, neither waiting nor running
  obtain ⟨htasks, hblocked⟩ := hstuck.idle (phases_reachable hpool) (attended_reachable hpool)
    himpl.stopping
  have hrunning : v.reactor.running = [] := by
    have hnone := himpl.running
    rwa [total_of_zero fun w => congrArg Worker.held (hblocked w), Multiset.coe_eq_zero] at hnone
  have hwire := himpl.wire
  rw [htasks, hrunning] at hwire
  refine ⟨hwire ▸ wireInv_reachable hfit hv, ?_, ?_⟩
  · simp [WireState.withPool, ReactorState.pending, hidle, Control.pending]
  · simp [WireState.withPool, ReactorState.held, ReactorState.items, hqueue, hidle, Control.items]

/-- At rest, the server has nothing left to do but to write its buffers: the output of an
open connection of which the buffer is empty and the input not broken is the responses to
all messages on its input, in some order, and none for those on which the handler threw. -/
theorem pooled_served_perm (hfit : AnswersFit handler) (h : (pooled handler).Reachable s)
    (hstuck : s.pool.Stuck) (hqueue : s.wire.reactor.queue = [])
    (hidle : s.wire.reactor.control = .idle) {fd : Nat} {c : Net.Connection}
    (hopen : s.wire.reactor.status fd = some c) (hout : c.outbuffer = [])
    (hinput : (Net.framing.parse (s.wire.received c.connId)).broken = false) :
    (Net.framing.parse (s.wire.sent c.connId)).rest = [] ∧
      (Net.framing.parse (s.wire.sent c.connId)).items.Perm
        ((Net.framing.parse (s.wire.received c.connId)).items.filterMap handler) := by
  obtain ⟨hinv, hpending, hheld⟩ := resting hfit h hstuck hqueue hidle
  exact sent_perm hinv hopen hpending hheld hout hinput

/-- No output buffer holds more than the responses so far. -/
def ShortOutput (s : PooledState) : Prop := QueuedLe s.wire.reactor ∧ ∃ v, Implements s v

theorem ShortOutput.start : ShortOutput {} :=
  ⟨fun _ _ hc => (by cases hc), {}, rfl, (total_of_zero fun _ => rfl).symm, rfl⟩

theorem shortOutput_step (h : ShortOutput s) {a : PooledAction}
    (hstep : s.step handler a = some t) :
    ShortOutput t ∧ s.wire.reactor.answeredBytes ≤ t.wire.reactor.answeredBytes := by
  obtain ⟨hqueued, v, himpl⟩ := h
  have hv : QueuedLe v.reactor := by
    rw [himpl.wire]
    exact hqueued
  have hsbytes : v.reactor.answeredBytes = s.wire.reactor.answeredBytes := by
    rw [himpl.wire]
    rfl
  -- what is read off the server is read off the server on its pool
  have hends : ∀ {u}, Implements t u → QueuedLe u.reactor →
      v.reactor.answeredBytes ≤ u.reactor.answeredBytes →
      ShortOutput t ∧ s.wire.reactor.answeredBytes ≤ t.wire.reactor.answeredBytes := by
    intro u hu hqueued' hle
    rw [hsbytes, hu.wire] at hle
    rw [hu.wire] at hqueued'
    exact ⟨⟨hqueued', u, hu⟩, hle⟩
  rcases implements_step himpl hstep with hsame | ⟨b, u, hu, hnext⟩
  · exact hends hsame hv le_rfl
  · obtain ⟨hqueued', hle⟩ := queuedLe_step hv hu
    exact hends hnext hqueued' hle

/-- Where all responses together stay below `2 ^ 31` bytes, so did every output buffer. -/
theorem pooled_of_run {as : List PooledAction}
    (hrun : as.foldlM (PooledState.step handler) {} = some s)
    (hshort : s.wire.reactor.answeredBytes < 2 ^ 31) : (pooled handler).Reachable s := by
  have hgrows : ∀ (s : PooledState) (a : PooledAction) (t : PooledState), ShortOutput s →
      s.step handler a = some t →
      ShortOutput t ∧ s.wire.reactor.answeredBytes ≤ t.wire.reactor.answeredBytes :=
    fun _ _ _ hs hstep => shortOutput_step hs hstep
  exact TransitionSystem.Reachable.foldlM_lt (T := pooled handler) hgrows
    (fun s a t hstep hinv hlt => ⟨hstep, hinv.1.small hlt⟩) (.of_init rfl) .start hrun hshort

/-- Two requests in one chunk: on one the handler throws, and of the sleeping workers that
are notified one finds the queue empty. -/
theorem pooled_served_perm_throws :
    let handler : List UInt8 → Option (List UInt8) :=
      fun msg => if msg = [9] then none else some msg
    ∃ s : PooledState, s.wire.received 1 = [[9], [7]].flatMap Net.encode ∧
      s.wire.sent 1 = Net.encode [7] ∧
      (Net.framing.parse (s.wire.sent 1)).items.Perm
        ((Net.framing.parse (s.wire.received 1)).items.filterMap handler) := by
  intro handler
  let as : List PooledAction := [.look 0, .look 1, .look 2, .look 3, .reactor (.accept 5),
    .reactor (.event 5 { epollin := true } []),
    .reactor (.recv (.data [0, 0, 0, 1, 9, 0, 0, 0, 1, 7])), .submit, .submit,
    .notify (some 2), .look 2, .finish 2, .look 2, .notify (some 1), .look 1,
    .reactor .endTurn, .reactor (.recv .again), .reactor .endTurn, .finish 2, .look 2,
    .reactor .drain, .reactor (.deliver [.accepted 5]), .reactor .endTurn]
  have hrun : (as.foldlM (PooledState.step handler) {}).any (fun s =>
      s.wire.reactor.answeredBytes < 2 ^ 31 ∧ (∀ w, s.pool.threads w = .blocked ∨
        s.pool.threads w = .left) ∧ s.pool.notifies = 0 ∧ s.pool.destructor = .notStarted ∧
      s.wire.reactor.queue = [] ∧ s.wire.reactor.control = .idle ∧
      (s.wire.reactor.status 5).any (fun c => c.connId = 1 ∧ c.outbuffer = []) ∧
      s.wire.received 1 = [[9], [7]].flatMap Net.encode ∧ s.wire.sent 1 = Net.encode [7]) =
      true := by
    decide +kernel
  obtain ⟨s, hlast, hend⟩ := (Option.any_eq_true _ _).mp hrun
  obtain ⟨hshort, hplaces, hnotifies, hd, hqueue, hidle, hconn, hreceived, hsent⟩ :=
    of_decide_eq_true hend
  obtain ⟨c, hopen, hc⟩ := (Option.any_eq_true _ _).mp hconn
  obtain ⟨hid, hout⟩ := of_decide_eq_true hc
  have hfit : AnswersFit handler := by
    intro msg resp hlen heq
    simp only [handler, Option.ite_none_left_eq_some, Option.some.injEq] at heq
    rw [← heq.2]
    exact hlen
  have hin : Net.framing.parse _ = ⟨[[9], [7]], false, []⟩ := parse_encoded (by decide)
  rw [← hreceived] at hin
  have hperm := (pooled_served_perm hfit (pooled_of_run hlast hshort)
    (.of_asleep hplaces hnotifies (.inl hd)) hqueue hidle hopen hout (by rw [hid, hin])).2
  rw [hid] at hperm
  exact ⟨s, hreceived, hsent, hperm⟩

end Simulation

end ServiceInfra.Reactor
