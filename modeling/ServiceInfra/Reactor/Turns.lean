import ServiceInfra.Net.HalfClose
import ServiceInfra.Reactor.ExactlyOnce

/-!
# What a step does to one connection

`Turn` says how a connection that is open after a step came about: it was there and is the
same, it was accepted, or one piece of a handler ran on it. A connection of which the end of
the stream was just read waits for the end of its turn (`Control.ending`); every other open
connection is registered for what it has to send, and is not finished.

Main results:
- `step_turn`: every open connection came about by a turn
- `masked_step`, `unfinished_step`: what the turns keep
-/

namespace ServiceInfra.Reactor

open Library
open Net

/-! ## Turns -/

/-- The end of the stream of `fd` was read, and `handreadable` has not returned. -/
def Control.ending (fd : Nat) : Control → Prop
  | .submitting fd' _ .eof => fd' = fd
  | _ => False

/-- How the connection `c'` on `fd`, open in `t`, came about by the step `a` from `s`. -/
inductive Turn (s : ReactorState) (a : Action) (t : ReactorState) (fd : Nat) (c' : Connection) :
    Prop where
  | same : s.status fd = some c' → (s.control.ending fd → t.control.ending fd) → Turn s a t fd c'
  | accepted : a = .accept fd → c' = { connId := s.connId + 1 } → Turn s a t fd c'
  | wrote {c : Connection} {taken : List UInt8} {script : List SendOutcome} :
      s.status fd = some c → ¬ s.control.ending fd →
      c.handwrite script = some (c', taken, true) → Turn s a t fd c'
  | received {c : Connection} {o : RecvOutcome} :
      s.status fd = some c → ¬ s.control.ending fd → c' = (c.receive o).1 →
      (o = .eof → t.control.ending fd) → Turn s a t fd c'
  | submitted {c : Connection} :
      s.status fd = some c → (s.control.ending fd → t.control.ending fd) → c' = c.submitted →
      Turn s a t fd c'
  | ended {c : Connection} :
      s.status fd = some c → c.eofReturn = (c', true) → Turn s a t fd c'
  | responded {c : Connection} {resp taken : List UInt8} {script : List SendOutcome} :
      s.status fd = some c → ¬ s.control.ending fd → c.ondone resp script = some (c', taken, true) →
      Turn s a t fd c'

section StepTurn

variable {handler : List UInt8 → Option (List UInt8)} {s t : ReactorState} {a : Action}

/-- A connection that is open after `after` was not the one it is about, or was kept. -/
theorem after_open {fd fd' : Nat} {c' : Connection} {r : Connection × Bool}
    (h : (s.after fd r).status fd' = some c') :
    (fd' = fd ∧ r = (c', true)) ∨ (fd' ≠ fd ∧ s.status fd' = some c') := by
  rcases put_open h with ⟨hfd, hkept⟩ | hother
  · left
    obtain ⟨c, ok⟩ := r
    cases ok with
    | false => cases hkept
    | true =>
      cases hkept
      exact ⟨hfd, rfl⟩
  · exact .inr hother

/-- Nothing is at its end where the reactor stands elsewhere. -/
theorem not_ending {control : Control} (h : s.control = control)
    (hnot : ∀ fd, ¬ control.ending fd) (fd : Nat) : ¬ s.control.ending fd := by
  rw [h]
  exact hnot fd

theorem addevent_turn {fd fd' : Nat} {flags : Events} {script : List SendOutcome} {c' : Connection}
    (h : s.addevent fd flags script = some t) (hc' : t.status fd' = some c') :
    Turn s a t fd' c' := by
  rcases addevent_cases h with rfl | ⟨c, hidle, hstatus, hbranch⟩
  · exact .same hc' id
  · have hnot := not_ending hidle fun _ => id
    rcases hbranch with rfl | rfl | ⟨d, taken, ok, hcall, rfl⟩
    · rcases put_open hc' with ⟨-, hclosed⟩ | ⟨-, hother⟩
      · cases hclosed
      · exact .same hother id
    · exact .same hc' fun hend => (hnot _ hend).elim
    · rcases after_open hc' with ⟨rfl, heq⟩ | ⟨-, hother⟩
      · cases heq
        exact .wrote hstatus (hnot _) hcall
      · exact .same hother fun hend => (hnot _ hend).elim

theorem endTurn_turn {fd' : Nat} {c' : Connection} (h : s.endTurn = some t)
    (hc' : t.status fd' = some c') : Turn s a t fd' c' := by
  rcases endTurn_cases h with ⟨fd, hcontrol, rfl⟩ | ⟨fd, c, hcontrol, hstatus, rfl⟩ |
    ⟨fd, ok, c, hcontrol, hstatus, rfl⟩ | ⟨hcontrol, rfl⟩
  · have hnot := not_ending hcontrol fun _ => id
    exact .same hc' fun hend => (hnot _ hend).elim
  · rcases after_open hc' with ⟨rfl, hend⟩ | ⟨hfd, hother⟩
    · exact .ended hstatus hend
    · -- only the connection being read is at its end
      refine .same hother ?_
      rw [hcontrol]
      exact fun hend => absurd hend.symm hfd
  · have hnot := not_ending hcontrol fun _ => id
    rcases after_open hc' with ⟨rfl, heq⟩ | ⟨-, hother⟩
    · cases heq
      exact .same hstatus fun hend => (hnot _ hend).elim
    · exact .same hother fun hend => (hnot _ hend).elim
  · have hnot := not_ending hcontrol fun _ => id
    exact .same hc' fun hend => (hnot _ hend).elim

theorem deliver_turn {script : List SendOutcome} {fd' : Nat} {c' : Connection}
    (h : s.deliver script = some t) (hc' : t.status fd' = some c') : Turn s a t fd' c' := by
  obtain ⟨item, items, hcontrol, ⟨-, rfl⟩ | ⟨c, d, taken, ok, hstatus, -, hturn, rfl⟩⟩ :=
    deliver_cases h
  · have hnot := not_ending hcontrol fun _ => id
    exact .same hc' fun hend => (hnot _ hend).elim
  · have hnot := not_ending hcontrol fun _ => id
    rcases after_open hc' with ⟨rfl, heq⟩ | ⟨-, hother⟩
    · cases heq
      exact .responded hstatus (hnot _) hturn
    · exact .same hother fun hend => (hnot _ hend).elim

/-- Every connection that is open after a step came about by a turn. -/
theorem step_turn {fd' : Nat} {c' : Connection} (h : s.step handler a = some t)
    (hc' : t.status fd' = some c') : Turn s a t fd' c' := by
  cases a with
  | accept fd =>
    simp only [ReactorState.step, ReactorState.onaccept] at h
    split at h
    · cases h
      rcases put_open hc' with ⟨rfl, hnew⟩ | ⟨-, hother⟩
      · cases hnew
        exact .accepted rfl rfl
      · exact .same hother id
    · cases h
  | event fd flags script => exact addevent_turn h hc'
  | recv o =>
    simp only [ReactorState.step, ReactorState.recv] at h
    split at h
    · rename_i fd hcontrol
      obtain ⟨c, hstatus, rfl⟩ := Option.map_eq_some_iff.mp h
      have hnot := not_ending hcontrol fun _ => id
      rcases put_open hc' with ⟨rfl, hnew⟩ | ⟨-, hother⟩
      · cases hnew
        refine .received hstatus (hnot _) rfl fun heof => ?_
        subst heof
        obtain ⟨decoder, msgs, hreceive⟩ := c.receive_eof
        rw [hreceive]
        exact rfl
      · exact .same hother fun hend => (hnot _ hend).elim
    · cases h
  | submit =>
    simp only [ReactorState.step, ReactorState.submit] at h
    split at h
    · rename_i fd req reqs next hcontrol
      obtain ⟨c, hstatus, rfl⟩ := Option.map_eq_some_iff.mp h
      have hend : ∀ fd', s.control.ending fd' →
          Control.ending fd' (.submitting fd reqs next) := by
        intro fd' hend
        rw [hcontrol] at hend
        cases next with
        | eof => exact hend
        | again => exact hend
        | ret ok => exact hend
      rcases put_open hc' with ⟨rfl, hnew⟩ | ⟨-, hother⟩
      · cases hnew
        exact .submitted hstatus (hend _) rfl
      · exact .same hother (hend _)
    · cases h
  | endTurn => exact endTurn_turn h hc'
  | drain =>
    simp only [ReactorState.step, ReactorState.drain] at h
    split at h
    · rename_i hcontrol
      cases h
      refine .same hc' ?_
      rw [hcontrol]
      exact False.elim
    · cases h
  | deliver script => exact deliver_turn h hc'
  | take =>
    simp only [ReactorState.step, ReactorState.take] at h
    split at h
    · cases h
    · split at h
      · cases h
        exact .same hc' id
      · cases h
  | complete worker =>
    simp only [ReactorState.step, ReactorState.complete] at h
    obtain ⟨req, -, rfl⟩ := Option.map_eq_some_iff.mp h
    -- the reactor thread does not move
    split at hc' <;> exact .same hc' id
  | stop =>
    cases h
    exact .same hc' id
  | finish fd =>
    simp only [ReactorState.step, ReactorState.finish] at h
    split at h
    · split at h
      · cases h
        rcases put_open hc' with ⟨-, hclosed⟩ | ⟨-, hother⟩
        · cases hclosed
        · exact .same hother id
      · cases h
    · cases h

/-- Only `accept` opens a connection; the others keep their numbers. -/
theorem step_opens {fd : Nat} {c' : Connection} (h : s.step handler a = some t)
    (hc' : t.status fd = some c') :
    (a = .accept fd ∧ c'.connId = s.connId + 1) ∨
      ∃ c, s.status fd = some c ∧ c'.connId = c.connId := by
  cases step_turn h hc' with
  | same hstatus => exact .inr ⟨c', hstatus, rfl⟩
  | accepted ha hnew => exact .inl ⟨ha, by rw [hnew]⟩
  | wrote hstatus _ hcall => exact .inr ⟨_, hstatus, (Connection.handwrite_keeps hcall).connId_eq⟩
  | @received c o hstatus _ heq =>
    refine .inr ⟨c, hstatus, ?_⟩
    rw [heq]
    exact (c.receive_keeps o).connId_eq
  | @submitted c hstatus _ heq =>
    refine .inr ⟨c, hstatus, ?_⟩
    rw [heq]
    rfl
  | @ended c hstatus hcall =>
    have hkeeps := c.eofReturn_keeps
    rw [hcall] at hkeeps
    exact .inr ⟨c, hstatus, hkeeps.connId_eq⟩
  | responded hstatus _ hcall =>
    exact .inr ⟨_, hstatus, Connection.ondone_connId hcall⟩

end StepTurn

/-! ## What the turns keep -/

/-- Every open connection is registered for what it has to send. -/
def AllMasked (s : ReactorState) : Prop :=
  ∀ fd c, s.status fd = some c → ¬ s.control.ending fd → c.Masked

/-- No open connection is finished. -/
def AllUnfinished (s : ReactorState) : Prop :=
  ∀ fd c, s.status fd = some c → ¬ s.control.ending fd → ¬ c.Finished

section Keep

variable {handler : List UInt8 → Option (List UInt8)} {s t : ReactorState}

/-- Before the end of the stream a turn of `handreadable` leaves alone what the registered
events and the close depend on. -/
theorem receive_fields {c : Connection} {o : RecvOutcome} (ho : o ≠ .eof) :
    ∃ decoder, (c.receive o).1 = { c with decoder } := by
  cases o with
  | data bytes =>
    unfold Connection.receive
    dsimp only
    split <;> exact ⟨_, rfl⟩
  | eof => exact absurd rfl ho
  | again => exact ⟨c.decoder, rfl⟩
  | error => exact ⟨c.decoder, rfl⟩

theorem masked_step {a : Action} (h : AllMasked s) (hstep : s.step handler a = some t) :
    AllMasked t := by
  intro fd c' hc' hnot
  cases step_turn hstep hc' with
  | same hstatus hend => exact h fd c' hstatus fun hs => hnot (hend hs)
  | accepted _ hnew =>
    subst hnew
    exact ⟨by simp, fun hpeer => by cases hpeer⟩
  | wrote hstatus hopen hcall => exact (h fd _ hstatus hopen).handwrite hcall rfl
  | @received c o hstatus hopen heq heof =>
    have hmask := h fd c hstatus hopen
    obtain ⟨decoder, hfields⟩ := receive_fields (c := c) fun ho => hnot (heof ho)
    rw [heq, hfields]
    exact ⟨hmask.epollout_iff, hmask.muted⟩
  | submitted hstatus hend heq =>
    have hmask := h fd _ hstatus fun hs => hnot (hend hs)
    subst heq
    exact ⟨hmask.epollout_iff, hmask.muted⟩
  | @ended c hstatus hcall =>
    have hmask := c.eofReturn_masked (by rw [hcall])
    rw [hcall] at hmask
    exact hmask
  | responded hstatus hopen hcall => exact (h fd _ hstatus hopen).ondone hcall

/-- A connection that counts no less than nothing is not finished by more requests. -/
theorem unfinished_step {a : Action} (h : AllUnfinished s)
    (hnonneg : ∀ fd c, s.status fd = some c → 0 ≤ c.inflight)
    (hstep : s.step handler a = some t) : AllUnfinished t := by
  intro fd c' hc' hnot hfin
  cases step_turn hstep hc' with
  | same hstatus hend => exact h fd c' hstatus (fun hs => hnot (hend hs)) hfin
  | accepted _ hnew =>
    subst hnew
    cases hfin.1
  | wrote hstatus hopen hcall =>
    cases Connection.handwrite_finished (h fd _ hstatus hopen) hcall hfin
  | @received c o hstatus hopen heq heof =>
    obtain ⟨decoder, hfields⟩ := receive_fields (c := c) fun ho => hnot (heof ho)
    rw [heq, hfields] at hfin
    exact h fd c hstatus hopen hfin
  | @submitted c hstatus hend heq =>
    have hcount := hnonneg fd c hstatus
    have hzero : c.inflight + 1 = 0 := by
      rw [heq] at hfin
      exact hfin.2.2
    omega
  | @ended c hstatus hcall =>
    have hkept := c.eofReturn_finished (by rw [hcall]; exact hfin)
    rw [hcall] at hkept
    cases hkept
  | responded hstatus hopen hcall => cases Connection.ondone_finished hcall hfin

end Keep

end ServiceInfra.Reactor
