import ServiceInfra.Reactor.EventLoop
import ServiceInfra.Reactor.FailingHandler

/-!
# Events for a connection that is gone

A batch is dispatched event by event, and what runs for one event can close the connection
that a later one is about: then the descriptor is free, `accept` may return it for a new
client, and the later event finds the new connection under the old descriptor. A finished
item says which connection it is for, and `ondone` compares; an event does not.

Main results:
- `noStaleEvent_step`: which step makes an event stale
- `Stale.run`: a stale event is dispatched
- `ownDispatch_iff`: both for whole runs
-/

namespace ServiceInfra.Reactor

open Library
open Net

/-! ## Definitions -/

/-- The event that is dispatched next is for the connection that has its descriptor, unless
the descriptor is free. -/
def OwnDispatch (s : LoopState) : Prop :=
  ∀ {fd flags id batch}, s.reactor.control = .idle →
    s.phase = .events (.conn fd flags id :: batch) →
      ∀ c, s.reactor.status fd = some c → c.connId = id

/-- Every event still to be dispatched is for the connection that has its descriptor, unless
the descriptor is free. -/
def NoStaleEvent (s : LoopState) : Prop :=
  ∀ fd flags id, .conn fd flags id ∈ s.phase.batch →
    ∀ c, s.reactor.status fd = some c → c.connId = id

/-- `accept` returns no descriptor that an event still to be dispatched was reported for. -/
def AcceptsUnreported (s : LoopState) : LoopAction → Prop
  | .accept (some fd) => ∀ flags id, .conn fd flags id ∉ s.phase.batch
  | _ => True

/-! ## Steps and runs -/

/-- What holds of the events of a batch: they are for connections numbered before, and for one
source each. -/
structure BatchInv (handler : List UInt8 → Option (List UInt8)) (s : LoopState) : Prop where
  tracked : Tracked handler s.reactor
  id_le : ∀ fd flags id, .conn fd flags id ∈ s.phase.batch → id ≤ s.reactor.connId
  nodup : (s.phase.batch.map Event.source).Nodup

section Runs

variable {handler : List UInt8 → Option (List UInt8)} {s t : LoopState}

/-- An event is reported for a connection that is open. -/
theorem reports_conn {fd id : Nat} {flags : Events} (h : s.reports (.conn fd flags id) = true) :
    ∃ c, s.reactor.status fd = some c ∧ c.connId = id := by
  obtain ⟨c, hc, hreport⟩ := (Option.any_eq_true _ _).mp h
  exact ⟨c, hc, beq_iff_eq.mp (Bool.and_eq_true_iff.mp hreport).1⟩

theorem NoStaleEvent.become {b : Action} {r : ReactorState} {phase : Phase} (h : NoStaleEvent s)
    (hr : s.reactor.step handler b = some r) (hnot : ∀ fd, b ≠ .accept fd)
    (hbatch : ∀ e ∈ phase.batch, e ∈ s.phase.batch) : NoStaleEvent (s.become r phase) := by
  intro fd flags id hmem c hc
  rcases step_opens hr hc with ⟨haccept, -⟩ | ⟨d, hd, hid⟩
  · exact absurd haccept (hnot fd)
  · rw [hid]
    exact h fd flags id (hbatch _ hmem) d hd

theorem connId_le {r r' : ReactorState} {b : Action} (h : r.step handler b = some r') :
    r.connId ≤ r'.connId := by
  by_cases hthrows : Throws handler r b
  · obtain ⟨worker, req, -, -, rfl⟩ := step_throws hthrows h
    exact le_rfl
  · cases step_effect hthrows h with
    | accepted => exact Nat.le_succ _
    | _ => exact le_rfl

theorem BatchInv.start : BatchInv handler {} where
  tracked := .start
  id_le fd flags id hmem := by cases hmem
  nodup := .nil

theorem BatchInv.step (h : BatchInv handler s) {a : LoopAction}
    (hstep : s.step handler a = some t) : BatchInv handler t := by
  have htracked : Tracked handler t.reactor :=
    reactor_keeps (fun _ _ _ hr hb => hr.step hb) hstep h.tracked
  -- the numbers given only go up, and the events left were there before
  have hkept : s.reactor.connId ≤ t.reactor.connId → t.phase.batch.Sublist s.phase.batch →
      BatchInv handler t := fun hle hbatch =>
    ⟨htracked, fun fd flags id hmem => (h.id_le fd flags id (hbatch.subset hmem)).trans hle,
      h.nodup.sublist (hbatch.map _)⟩
  cases step_loop hstep with
  | turned _ hnil =>
    refine hkept le_rfl ?_
    rw [hnil]
    exact List.nil_sublist _
  | reported _ hreports hnodup =>
    refine ⟨htracked, fun fd flags id hmem => ?_, hnodup⟩
    obtain ⟨c, hc, rfl⟩ := reports_conn (hreports _ hmem)
    exact h.tracked.ids.conn_le fd c hc
  | unreported _ hphase =>
    refine hkept le_rfl ?_
    rcases hphase with rfl | rfl <;> exact List.nil_sublist _
  | batchEnd => exact hkept le_rfl (List.nil_sublist _)
  | listening _ hphase =>
    refine hkept le_rfl ?_
    rw [hphase]
    exact List.sublist_cons_self _ _
  | drained hphase hr =>
    refine hkept (connId_le hr) ?_
    rw [hphase]
    exact List.sublist_cons_self _ _
  | dispatched _ hphase hr =>
    refine hkept (connId_le hr) ?_
    rw [hphase]
    exact List.sublist_cons_self _ _
  | accepted _ hr => exact hkept (connId_le hr) (List.Sublist.refl _)
  | refused hphase =>
    refine hkept le_rfl ?_
    rw [hphase]
    exact List.Sublist.refl _
  | beside _ hr => exact hkept (connId_le hr) (List.Sublist.refl _)

/-- An event becomes stale where `accept` returns its descriptor. -/
theorem noStaleEvent_step (h : NoStaleEvent s) (hinv : BatchInv handler s) {a : LoopAction}
    (hstep : s.step handler a = some t) : NoStaleEvent t ↔ AcceptsUnreported s a := by
  cases step_loop hstep with
  | turned _ hnil =>
    refine iff_of_true (fun fd flags id hmem => ?_) trivial
    rw [hnil] at hmem
    cases hmem
  | reported _ hreports =>
    refine iff_of_true (fun fd flags id hmem c hc => ?_) trivial
    obtain ⟨d, hd, hid⟩ := reports_conn (hreports _ hmem)
    rw [hc] at hd
    cases hd
    exact hid
  | unreported _ hphase =>
    refine iff_of_true (fun fd flags id hmem => ?_) trivial
    rcases hphase with rfl | rfl <;> cases hmem
  | batchEnd => exact iff_of_true (fun fd flags id hmem => by cases hmem) trivial
  | listening _ hphase =>
    refine iff_of_true (fun fd flags id hmem => h fd flags id ?_) trivial
    rw [hphase]
    exact List.mem_cons_of_mem _ hmem
  | drained hphase hr =>
    refine iff_of_true (h.become hr (by simp) fun e he => ?_) trivial
    rw [hphase]
    exact List.mem_cons_of_mem _ he
  | dispatched _ hphase hr =>
    refine iff_of_true (h.become hr (by simp) fun e he => ?_) trivial
    rw [hphase]
    exact List.mem_cons_of_mem _ he
  | @accepted fd batch r hphase hr =>
    constructor
    · intro hafter flags id hmem
      -- the new connection has a number that no event was reported with
      have hopen : ∃ c, r.status fd = some c ∧ c.connId = s.reactor.connId + 1 := by
        simp only [ReactorState.step, ReactorState.onaccept] at hr
        split at hr
        · cases hr
          exact ⟨_, Function.update_self _ _ _, rfl⟩
        · cases hr
      obtain ⟨c, hc, hid⟩ := hopen
      have hsame := hafter fd flags id hmem c hc
      have hle := hinv.id_le fd flags id hmem
      omega
    · intro hnone fd' flags id hmem c hc
      rcases step_opens hr hc with ⟨haccept, -⟩ | ⟨d, hd, hid⟩
      · cases haccept
        exact absurd hmem (hnone flags id)
      · rw [hid]
        exact h fd' flags id hmem d hd
  | refused hphase =>
    refine iff_of_true (fun fd flags id hmem => h fd flags id ?_) trivial
    rw [hphase]
    exact hmem
  | beside hbeside hr =>
    refine iff_of_true (h.become hr (fun fd heq => ?_) fun e he => he) trivial
    rw [heq] at hbeside
    cases hbeside

end Runs

/-! ## A stale event is dispatched -/

/-- The handler that runs is about the connection on `fd`. -/
def Control.busy (fd : Nat) : Control → Prop
  | .reading fd' => fd' = fd
  | .submitting fd' _ _ => fd' = fd
  | _ => False

/-- The connection `c` is open on `fd`, and nothing that runs or is on its way is about it. -/
structure Untouched (r : ReactorState) (fd : Nat) (c : Connection) : Prop where
  status_eq : r.status fd = some c
  not_busy : ¬ r.control.busy fd
  no_request : ∀ req ∈ r.decoded, req.id ≠ c.connId

namespace Untouched

variable {handler : List UInt8 → Option (List UInt8)} {r r' : ReactorState} {fd : Nat}
  {c : Connection}

theorem status_put {fd' : Nat} {oc : Option Connection} (hfd : fd ≠ fd') :
    (r.put fd' oc).status fd = r.status fd := Function.update_of_ne hfd _ _

theorem addevent (h : Untouched r fd c) {fd' : Nat} {flags : Events} {script : List SendOutcome}
    (hfd : fd ≠ fd') (hstep : r.addevent fd' flags script = some r') : Untouched r' fd c := by
  rcases addevent_cases hstep with rfl | ⟨d, -, -, hbranch⟩
  · exact h
  · rcases hbranch with rfl | rfl | ⟨d', taken, ok, -, rfl⟩
    · exact ⟨(status_put hfd).trans h.status_eq, h.not_busy, h.no_request⟩
    · exact ⟨h.status_eq, fun hbusy => hfd hbusy.symm, h.no_request⟩
    · exact ⟨(status_put hfd).trans h.status_eq, h.not_busy, h.no_request⟩

theorem deliver (h : Untouched r fd c) (htracked : Tracked handler r) {script : List SendOutcome}
    (hstep : r.deliver script = some r') : Untouched r' fd c := by
  obtain ⟨item, items, hcontrol, ⟨-, rfl⟩ | ⟨d, d', taken, ok, hd, hid, -, rfl⟩⟩ :=
    deliver_cases hstep
  · exact ⟨h.status_eq, id, h.no_request⟩
  · -- the item answers a request that was decoded, so it is for another connection
    have hfd : fd ≠ item.fd := by
      rintro rfl
      rw [h.status_eq] at hd
      cases hd
      have hheld : item.req ∈ r.held :=
        (Conserved.held_delivering hcontrol).mem_iff.mpr List.mem_cons_self
      refine h.no_request item.req (htracked.known.held _ hheld) ?_
      rw [← (htracked.delivered.head_ok hcontrol).id_eq]
      exact hid.symm
    exact ⟨(status_put hfd).trans h.status_eq, id, h.no_request⟩

theorem endTurn (h : Untouched r fd c) (hstep : r.endTurn = some r') : Untouched r' fd c := by
  -- the connection being read is another one
  have hother : ∀ {fd' reqs next}, r.control = .submitting fd' reqs next → fd ≠ fd' := by
    rintro fd' reqs next hcontrol rfl
    exact h.not_busy (by rw [hcontrol]; rfl)
  rcases endTurn_cases hstep with ⟨fd', hcontrol, rfl⟩ | ⟨fd', d, hcontrol, -, rfl⟩ |
    ⟨fd', ok, d, hcontrol, -, rfl⟩ | ⟨hcontrol, rfl⟩
  · exact ⟨h.status_eq, fun hbusy => hother hcontrol hbusy.symm, h.no_request⟩
  · exact ⟨(status_put (hother hcontrol)).trans h.status_eq, id, h.no_request⟩
  · exact ⟨(status_put (hother hcontrol)).trans h.status_eq, id, h.no_request⟩
  · exact ⟨h.status_eq, id, h.no_request⟩

/-- A connection that nothing is about stays as it is, until an event for its descriptor. -/
theorem step (h : Untouched r fd c) (htracked : Tracked handler r) {b : Action}
    (hstep : r.step handler b = some r') (hevent : ∀ flags script, b ≠ .event fd flags script)
    (hfinish : ∀ fd, b ≠ .finish fd) : Untouched r' fd c := by
  cases b with
  | accept fd' =>
    simp only [ReactorState.step, ReactorState.onaccept] at hstep
    split at hstep
    · rename_i hfree
      cases hstep
      have hfd : fd ≠ fd' := by
        rintro rfl
        rw [h.status_eq] at hfree
        cases hfree
      exact ⟨(status_put hfd).trans h.status_eq, h.not_busy, h.no_request⟩
    · cases hstep
  | event fd' flags script =>
    have hfd : fd ≠ fd' := by
      rintro rfl
      exact hevent flags script rfl
    exact h.addevent hfd hstep
  | recv o =>
    simp only [ReactorState.step, ReactorState.recv] at hstep
    split at hstep
    · rename_i fd' hcontrol
      obtain ⟨d, hd, rfl⟩ := Option.map_eq_some_iff.mp hstep
      have hfd : fd ≠ fd' := by
        rintro rfl
        exact h.not_busy (by rw [hcontrol]; rfl)
      refine ⟨(status_put hfd).trans h.status_eq, fun hbusy => hfd hbusy.symm, fun req hreq => ?_⟩
      rcases List.mem_append.mp hreq with hbefore | hnew
      · exact h.no_request req hbefore
      · -- the new requests are of the connection being read
        rw [(mem_number hnew).2]
        exact fun hid => hfd (htracked.ids.conn_inj fd' fd d c hd h.status_eq hid).symm
    · cases hstep
  | submit =>
    simp only [ReactorState.step, ReactorState.submit] at hstep
    split at hstep
    · rename_i fd' req reqs next hcontrol
      obtain ⟨d, -, rfl⟩ := Option.map_eq_some_iff.mp hstep
      have hfd : fd ≠ fd' := by
        rintro rfl
        exact h.not_busy (by rw [hcontrol]; rfl)
      exact ⟨(status_put hfd).trans h.status_eq, fun hbusy => hfd hbusy.symm, h.no_request⟩
    · cases hstep
  | endTurn => exact h.endTurn hstep
  | drain =>
    simp only [ReactorState.step, ReactorState.drain] at hstep
    split at hstep
    · cases hstep
      exact ⟨h.status_eq, id, h.no_request⟩
    · cases hstep
  | deliver script => exact h.deliver htracked hstep
  | take =>
    simp only [ReactorState.step, ReactorState.take] at hstep
    split at hstep
    · cases hstep
    · split at hstep
      · cases hstep
        exact ⟨h.status_eq, h.not_busy, h.no_request⟩
      · cases hstep
  | complete worker =>
    simp only [ReactorState.step, ReactorState.complete] at hstep
    obtain ⟨req, -, rfl⟩ := Option.map_eq_some_iff.mp hstep
    split <;> exact ⟨h.status_eq, h.not_busy, h.no_request⟩
  | stop =>
    cases hstep
    exact ⟨h.status_eq, h.not_busy, h.no_request⟩
  | finish fd' => exact absurd rfl (hfinish fd')

end Untouched

/-- An event waits for a connection that is gone, and `c` has its descriptor. -/
structure Stale (s : LoopState) (fd : Nat) (c : Connection) : Prop where
  waits : ∃ flags id, .conn fd flags id ∈ s.phase.batch ∧ id ≠ c.connId
  untouched : Untouched s.reactor fd c

section Dispatch

variable {handler : List UInt8 → Option (List UInt8)} {s t : LoopState} {fd : Nat}
  {c : Connection}

theorem Stale.batch_ne_nil (h : Stale s fd c) : s.phase.batch ≠ [] := by
  obtain ⟨flags, id, hmem, -⟩ := h.waits
  exact List.ne_nil_of_mem hmem

/-- A stale event waits until it is dispatched to the wrong connection. -/
theorem Stale.step (h : Stale s fd c) (hinv : BatchInv handler s) (hown : OwnDispatch s)
    {a : LoopAction} (hstep : s.step handler a = some t) : Stale t fd c := by
  have hnil := h.batch_ne_nil
  obtain ⟨flags, id, hmem, hid⟩ := h.waits
  cases step_loop hstep with
  | turned hphase => exact absurd (by rw [hphase]; rfl) hnil
  | reported hphase => exact absurd (by rw [hphase]; rfl) hnil
  | unreported hphase => exact absurd (by rw [hphase]; rfl) hnil
  | batchEnd _ hphase => exact absurd (by rw [hphase]; rfl) hnil
  | listening _ hphase =>
    rw [hphase] at hmem
    rcases List.mem_cons.mp hmem with heq | htail
    · cases heq
    · exact ⟨⟨flags, id, htail, hid⟩, h.untouched⟩
  | drained hphase hr =>
    rw [hphase] at hmem
    rcases List.mem_cons.mp hmem with heq | htail
    · cases heq
    · exact ⟨⟨flags, id, htail, hid⟩, h.untouched.step hinv.tracked hr (by simp) (by simp)⟩
  | @dispatched _ fd' id' flags' batch r hidle hphase hr =>
    have hnodup := hinv.nodup
    rw [hphase] at hmem hnodup
    rcases List.mem_cons.mp hmem with heq | htail
    · -- it would be dispatched to `c`
      cases heq
      exact absurd (hown hidle hphase c h.untouched.status_eq).symm hid
    · refine ⟨⟨flags, id, htail, hid⟩, h.untouched.step hinv.tracked hr ?_ (by simp)⟩
      -- the batch has one event for each descriptor
      rintro flags'' script heq
      cases heq
      exact (List.nodup_cons.mp hnodup).1 (List.mem_map.mpr ⟨_, htail, rfl⟩)
  | accepted hphase hr =>
    exact ⟨⟨flags, id, hmem, hid⟩, h.untouched.step hinv.tracked hr (by simp) (by simp)⟩
  | refused hphase =>
    rw [hphase] at hmem
    exact ⟨⟨flags, id, hmem, hid⟩, h.untouched⟩
  | beside hbeside hr =>
    refine ⟨⟨flags, id, hmem, hid⟩, h.untouched.step hinv.tracked hr ?_ ?_⟩
    · rintro flags' script rfl
      cases hbeside
    · rintro fd' rfl
      -- connections are only closed after the loops
      have hleft : s.phase.isLeft = true := hbeside
      cases hphase : s.phase with
      | left how =>
        rw [hphase] at hmem
        cases hmem
      | _ => simp [hphase, Phase.isLeft] at hleft

/-- While every event is dispatched to its own connection, a batch with a stale event does
not end. -/
theorem Stale.run {as : List LoopAction} (h : Stale s fd c) (hinv : BatchInv handler s)
    (hown : Always (LoopState.step handler) OwnDispatch s as)
    (hrun : as.foldlM (LoopState.step handler) s = some t) : t.phase.batch ≠ [] := by
  induction as generalizing s with
  | nil =>
    cases hrun
    exact h.batch_ne_nil
  | cons a as ih =>
    obtain ⟨u, hstep, hrest⟩ := Option.bind_eq_some_iff.mp hrun
    exact ih (h.step hinv hown.head hstep) (hinv.step hstep) (hown.2 u hstep) hrest

/-- `accept` makes an event stale by returning its descriptor. -/
theorem accept_stale (hinv : BatchInv handler s) {flags : Events} {id : Nat}
    (hmem : .conn fd flags id ∈ s.phase.batch)
    (hstep : s.step handler (.accept (some fd)) = some t) : ∃ c, Stale t fd c := by
  have hle := hinv.id_le fd flags id hmem
  cases step_loop hstep with
  | accepted hphase hr =>
    simp only [ReactorState.step, ReactorState.onaccept] at hr
    split at hr
    · rename_i hidle _
      cases hr
      refine ⟨{ connId := s.reactor.connId + 1 }, ⟨flags, id, hmem, ?_⟩, ?_, ?_, ?_⟩
      · change id ≠ s.reactor.connId + 1
        omega
      · exact Function.update_self _ _ _
      · change ¬ s.reactor.control.busy fd
        rw [hidle]
        exact fun hbusy => hbusy
      · intro req hreq
        have hbefore := hinv.tracked.ids.req_le req hreq
        change req.id ≠ s.reactor.connId + 1
        omega
    · cases hr

/-- In a run that ends between two batches, every descriptor that `accept` returned while an
event for it was waiting shows. -/
theorem guarded_of_ownDispatch {as : List LoopAction} (hinv : BatchInv handler s)
    (hstale : NoStaleEvent s) (hown : Always (LoopState.step handler) OwnDispatch s as)
    (hrun : as.foldlM (LoopState.step handler) s = some t) (hend : t.phase.batch = []) :
    Guarded (LoopState.step handler) AcceptsUnreported s as := by
  induction as generalizing s with
  | nil => trivial
  | cons a as ih =>
    obtain ⟨u, hstep, hrest⟩ := Option.bind_eq_some_iff.mp hrun
    intro u' hstep'
    rw [hstep] at hstep'
    cases hstep'
    have hguard : AcceptsUnreported s a := by
      cases a with
      | accept client =>
        cases client with
        | none => trivial
        | some fd =>
          intro flags id hmem
          obtain ⟨c, hc⟩ := accept_stale hinv hmem hstep
          exact hc.run (hinv.step hstep) (hown.2 u hstep) hrest hend
      | _ => trivial
    exact ⟨hguard, ih (hinv.step hstep) ((noStaleEvent_step hstale hinv hstep).mpr hguard)
      (hown.2 u hstep) hrest⟩

end Dispatch

/-- Whatever is reported together, and whatever the handlers close and accept in between:
where `accept` never returns a descriptor that the batch still has an event for, every event
is dispatched to the connection it was reported for or to none. A run of whole batches where
`accept` does so dispatches an event to another connection. -/
theorem ownDispatch_iff (handler : List UInt8 → Option (List UInt8)) (as : List LoopAction) :
    (Guarded (LoopState.step handler) AcceptsUnreported {} as →
        Always (LoopState.step handler) OwnDispatch {} as) ∧
      ∀ t, as.foldlM (LoopState.step handler) {} = some t → t.phase.batch = [] →
        Always (LoopState.step handler) OwnDispatch {} as →
        Guarded (LoopState.step handler) AcceptsUnreported {} as := by
  have hstart : NoStaleEvent {} := fun fd flags id hmem => by cases hmem
  refine ⟨fun h => ?_, fun t hrun hend hown => ?_⟩
  · have hinv : Always (LoopState.step handler)
        (fun s => BatchInv handler s ∧ NoStaleEvent s) {} as := by
      refine h.always ?_ ⟨.start, hstart⟩
      rintro s a t ⟨hs, hstale⟩ hguard hstep
      exact ⟨hs.step hstep, (noStaleEvent_step hstale hs hstep).mpr hguard⟩
    refine hinv.mono fun s hs => ?_
    intro fd flags id batch _ hphase
    exact hs.2 fd flags id (by rw [hphase]; exact List.mem_cons_self)
  · exact guarded_of_ownDispatch .start hstart hown hrun hend

/-- A client sends a request. Then its response is finished, another client connects, and the
first connection is hung up, all in one batch. -/
def recycledRun : List LoopAction :=
  [.top false, .wait (.events [.listen]), .next [], .accept (some 5), .accept none, .next [],
    .top false, .wait (.events [.conn 5 { epollin := true } 1]), .next [],
    .inner (.recv (.data [0, 0, 0, 1, 7])), .inner .submit, .inner .endTurn,
    .inner (.recv .again), .inner .endTurn, .next [], .inner .take, .inner (.complete 0),
    .top false, .wait (.events [.done, .listen, .conn 5 { epollhup := true } 1]),
    .next [], .inner (.deliver [.error]), .inner .endTurn,
    .next [], .accept (some 5), .accept none]

/-- Sending the response fails and closes descriptor 5, the new client gets it, and the hangup
of the first connection closes the second one. -/
theorem recycledRun_closes :
    ¬ Always (LoopState.step some) OwnDispatch {} recycledRun ∧
      ∃ s c t, recycledRun.foldlM (LoopState.step some) {} = some s ∧
        s.phase = .events [.conn 5 { epollhup := true } 1] ∧
        s.reactor.status 5 = some c ∧ c.connId = 2 ∧
        s.step some (.next []) = some t ∧ t.reactor.status 5 = none := by
  have hrun : (recycledRun.foldlM (LoopState.step some) {}).any (fun s =>
      s.reactor.control = .idle ∧ s.phase = .events [.conn 5 { epollhup := true } 1] ∧
        (s.reactor.status 5).map Connection.connId = some 2 ∧
        (s.step some (.next [])).map (fun t => t.reactor.status 5) = some none) = true := by
    decide +kernel
  obtain ⟨s, hlast, hend⟩ := (Option.any_eq_true _ _).mp hrun
  obtain ⟨hidle, hphase, hconn, hclose⟩ := of_decide_eq_true hend
  obtain ⟨c, hstatus, hid⟩ := Option.map_eq_some_iff.mp hconn
  obtain ⟨t, ht, hclosed⟩ := Option.map_eq_some_iff.mp hclose
  refine ⟨fun h => ?_, s, c, t, hlast, hphase, hstatus, hid, ht, hclosed⟩
  have hsame := h.last hlast hidle hphase c hstatus
  omega

end ServiceInfra.Reactor
