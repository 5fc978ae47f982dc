import ServiceInfra.Reactor.Effect

/-!
# Responses go out once, and to the right connection

A request is decoded on a connection, waits in the pool, runs on a worker, waits in the
done queue, and its response goes to the connection it came from, or nowhere when that
connection is closed by then. Descriptors are used again; the number of the connection
is not, so comparing both sends no response to another connection.

The invariants follow from the effects of a step: `Conserved` for the requests,
`Delivered` for the responses, `Ids` for the numbers and `Counted` for `inflight`.

Main results:
- `Inv.step`, `inv_reachable`: the invariants hold in every reachable state
- `exactlyOnce`: the responses on every connection, for every run
-/

namespace ServiceInfra.Reactor

open Library
open Net

/-! ## The connections that stay -/

/-- Every open connection of `t` is open in `s` on the same descriptor, with its number. -/
def From (s t : ReactorState) : Prop :=
  ∀ fd c', t.status fd = some c' → ∃ c, s.status fd = some c ∧ c'.connId = c.connId

section Stays

variable {handler : List UInt8 → Option (List UInt8)} {s t : ReactorState}

/-- An open connection of an updated table is the one put there or another one. -/
theorem put_open {fd fd' : Nat} {c' : Connection} {oc : Option Connection}
    (h : (s.put fd oc).status fd' = some c') :
    (fd' = fd ∧ oc = some c') ∨ (fd' ≠ fd ∧ s.status fd' = some c') := by
  by_cases hfd : fd' = fd
  · subst hfd
    left
    exact ⟨rfl, by simpa [ReactorState.put] using h⟩
  · right
    exact ⟨hfd, by simpa [ReactorState.put, hfd] using h⟩

theorem from_put {fd : Nat} {c : Connection} {oc : Option Connection}
    (hstatus : s.status fd = some c) (hsame : ∀ c', oc = some c' → c'.connId = c.connId) :
    From s (s.put fd oc) := by
  intro fd' c' h
  rcases put_open h with ⟨rfl, hoc⟩ | ⟨-, hother⟩
  · exact ⟨c, hstatus, hsame c' hoc⟩
  · exact ⟨c', hother, rfl⟩

/-- Only an accepted connection is new. -/
theorem Effect.stays (h : Effect handler s t) (hconnId : t.connId = s.connId) : From s t := by
  cases h with
  | moved => exact fun fd c' hc' => ⟨c', hc', rfl⟩
  | conn hstatus hkeeps =>
    intro fd c' hc'
    exact from_put hstatus (fun d hd => (hkeeps d hd).connId_eq) fd c' hc'
  | accepted => exact absurd hconnId (Nat.succ_ne_self _)
  | decoded _ hstatus hkeeps =>
    intro fd c' hc'
    refine from_put hstatus ?_ fd c' hc'
    intro d hd
    cases hd
    exact hkeeps.connId_eq
  | submitted _ hstatus =>
    intro fd c' hc'
    refine from_put hstatus ?_ fd c' hc'
    intro d hd
    cases hd
    rfl
  | responded _ hstatus _ hsame =>
    intro fd c' hc'
    exact from_put hstatus (fun d hd => (hsame d hd).1) fd c' hc'
  | dropped => exact fun fd c' hc' => ⟨c', hc', rfl⟩

end Stays

/-! ## The numbers of the requests -/

section Number

variable {fd id start : Nat} {msgs : List (List UInt8)}

theorem number_seq :
    (ReactorState.number fd id start msgs).map Request.seq = List.range' start msgs.length := by
  induction msgs generalizing start with
  | nil => rfl
  | cons msg msgs ih =>
    rw [List.length_cons, List.range'_succ, ReactorState.number, List.map_cons, ih]

theorem length_number : (ReactorState.number fd id start msgs).length = msgs.length := by
  induction msgs generalizing start with
  | nil => rfl
  | cons msg msgs ih => rw [ReactorState.number, List.length_cons, List.length_cons, ih]

theorem mem_number {r : Request} (h : r ∈ ReactorState.number fd id start msgs) :
    r.fd = fd ∧ r.id = id := by
  induction msgs generalizing start with
  | nil => cases h
  | cons msg msgs ih =>
    rcases List.mem_cons.mp h with rfl | hrest
    · exact ⟨rfl, rfl⟩
    · exact ih hrest

end Number

/-! ## Requests are conserved -/

/-- Every decoded request is in exactly one place, and the decoded requests are numbered
from 0 on. -/
structure Conserved (s : ReactorState) : Prop where
  places : s.decoded.Perm (s.pending ++ s.held ++ s.responded.map Response.req ++ s.dropped)
  seq_eq : s.decoded.map Request.seq = List.range' 0 s.decoded.length

namespace Conserved

variable {handler : List UInt8 → Option (List UInt8)} {s t : ReactorState}

theorem nodup (h : Conserved s) : s.decoded.Nodup := by
  -- the numbers of the requests are all different
  apply List.Nodup.of_map Request.seq
  rw [h.seq_eq]
  exact List.nodup_range'

theorem mem_iff (h : Conserved s) {r : Request} :
    r ∈ s.decoded ↔ r ∈ s.pending ∨ r ∈ s.held ∨ (∃ x ∈ s.responded, x.req = r) ∨
      r ∈ s.dropped := by
  rw [h.places.mem_iff]
  simp only [List.mem_append, List.mem_map, or_assoc]

theorem mem_of_held (h : Conserved s) {r : Request} (hr : r ∈ s.held) : r ∈ s.decoded :=
  h.mem_iff.mpr (.inr (.inl hr))

theorem mem_of_responded (h : Conserved s) {x : Response} (hx : x ∈ s.responded) :
    x.req ∈ s.decoded :=
  h.mem_iff.mpr (.inr (.inr (.inl ⟨x, hx, rfl⟩)))

theorem mem_of_dropped (h : Conserved s) {r : Request} (hr : r ∈ s.dropped) : r ∈ s.decoded :=
  h.mem_iff.mpr (.inr (.inr (.inr hr)))

/-- What the head of the drained items adds to the requests that are held. -/
theorem held_delivering {item : DoitItem} {items : List DoitItem}
    (h : s.control = .delivering (item :: items)) :
    s.held.Perm (item.req :: ({ s with control := .delivering items } : ReactorState).held) := by
  -- counting one request on both sides
  apply List.perm_iff_count.mpr
  intro r
  simp only [ReactorState.held, ReactorState.items, h, Control.items, List.map_append,
    List.map_cons, List.count_append, List.count_cons]
  omega

theorem effect (h : Conserved s) (e : Effect handler s t) : Conserved t := by
  -- what leaves one place comes to another
  cases e with
  | @moved stopping tasks running queue control hpending _ hheld _ =>
    refine ⟨?_, h.seq_eq⟩
    have hplaces : s.decoded.Perm (control.pending ++
        (tasks ++ running ++ (queue ++ control.items).map DoitItem.req) ++
        s.responded.map Response.req ++ s.dropped) := by
      rw [hpending]
      refine h.places.trans ?_
      exact ((hheld.symm.append_left _).append_right _).append_right _
    exact hplaces
  | @conn fd c oc control _ _ hold hnew hitems =>
    refine ⟨?_, h.seq_eq⟩
    have hplaces := h.places
    simp only [ReactorState.pending, ReactorState.held, ReactorState.items, hold] at hplaces
    simpa only [ReactorState.pending, ReactorState.held, ReactorState.items,
      ReactorState.put, hnew, hitems] using hplaces
  | accepted => exact ⟨h.places, h.seq_eq⟩
  | @decoded fd c c' msgs next hcontrol _ _ =>
    constructor
    · -- the requests of the turn are pending, and nothing was before
      have hplaces := h.places
      simp only [ReactorState.pending, ReactorState.held, ReactorState.items, hcontrol,
        Control.pending, Control.items, List.nil_append] at hplaces
      simp only [ReactorState.pending, ReactorState.held, ReactorState.items,
        ReactorState.put, Control.pending, Control.items]
      refine (hplaces.append_right _).trans ?_
      refine List.perm_append_comm.trans ?_
      simp only [List.append_assoc]
      exact .rfl
    · change (s.decoded ++ ReactorState.number fd c.connId s.decoded.length msgs).map
        Request.seq = List.range' 0
          (s.decoded ++ ReactorState.number fd c.connId s.decoded.length msgs).length
      rw [List.map_append, h.seq_eq, number_seq, List.length_append, length_number,
        List.range'_append_1.symm]
      simp
  | @submitted fd c req reqs next hcontrol _ =>
    refine ⟨?_, h.seq_eq⟩
    -- the first pending request is the last task
    refine h.places.trans (List.perm_iff_count.mpr fun r => ?_)
    simp only [ReactorState.pending, ReactorState.held, ReactorState.items, ReactorState.put,
      hcontrol, Control.pending, Control.items, List.count_append, List.count_cons,
      List.count_nil]
    omega
  | @responded item items c oc hcontrol _ _ _ =>
    refine ⟨?_, h.seq_eq⟩
    refine h.places.trans (List.perm_iff_count.mpr fun r => ?_)
    have hheld := (held_delivering hcontrol).count_eq r
    simp only [ReactorState.pending, ReactorState.held, ReactorState.items, ReactorState.put,
      hcontrol, Control.pending, List.count_append, List.count_cons, List.count_nil,
      List.map_append, List.map_cons, List.map_nil] at hheld ⊢
    omega
  | @dropped item items hcontrol _ =>
    refine ⟨?_, h.seq_eq⟩
    refine h.places.trans (List.perm_iff_count.mpr fun r => ?_)
    have hheld := (held_delivering hcontrol).count_eq r
    simp only [ReactorState.pending, ReactorState.held, ReactorState.items,
      hcontrol, Control.pending, List.count_append, List.count_cons, List.count_nil,
      List.map_append] at hheld ⊢
    omega

end Conserved

/-- The requests that the server still holds, or dropped, were decoded. -/
structure Known (s : ReactorState) : Prop where
  pending : ∀ r ∈ s.pending, r ∈ s.decoded
  held : ∀ r ∈ s.held, r ∈ s.decoded
  dropped : ∀ r ∈ s.dropped, r ∈ s.decoded

theorem Conserved.known {s : ReactorState} (h : Conserved s) : Known s where
  pending _ hr := h.mem_iff.mpr (.inl hr)
  held _ hr := h.mem_of_held hr
  dropped _ hr := h.mem_of_dropped hr

/-! ## Responses come from the handler -/

/-- The finished items answer their requests, and so do the responses sent, on the
connection the request came from. -/
structure Delivered (handler : List UInt8 → Option (List UInt8)) (s : ReactorState) : Prop where
  items_ok : ∀ i ∈ s.items, ItemOk handler i
  responded_ok : ∀ x ∈ s.responded,
    x.connId = x.req.id ∧ handler x.req.msg = some x.resp

namespace Delivered

variable {handler : List UInt8 → Option (List UInt8)} {s t : ReactorState}

theorem head_ok (h : Delivered handler s) {item : DoitItem} {items : List DoitItem}
    (hcontrol : s.control = .delivering (item :: items)) : ItemOk handler item := by
  apply h.items_ok
  simp [ReactorState.items, hcontrol, Control.items]

theorem tail_ok (h : Delivered handler s) {item : DoitItem} {items : List DoitItem}
    (hcontrol : s.control = .delivering (item :: items)) :
    ∀ i ∈ s.queue ++ items, ItemOk handler i := by
  intro i hi
  apply h.items_ok
  rcases List.mem_append.mp hi with hqueue | hrest
  · exact List.mem_append_left _ hqueue
  · simp [ReactorState.items, hcontrol, Control.items, hrest]

theorem effect (h : Delivered handler s) (e : Effect handler s t) : Delivered handler t := by
  cases e with
  | moved _ _ _ hitems =>
    refine ⟨?_, h.responded_ok⟩
    intro i hi
    rcases hitems i hi with hold | hnew
    · exact h.items_ok i hold
    · exact hnew
  | conn _ _ _ _ hitems =>
    refine ⟨?_, h.responded_ok⟩
    intro i hi
    apply h.items_ok
    simpa only [ReactorState.items, ReactorState.put, hitems] using hi
  | accepted => exact ⟨h.items_ok, h.responded_ok⟩
  | decoded hcontrol =>
    refine ⟨?_, h.responded_ok⟩
    intro i hi
    apply h.items_ok
    simpa only [ReactorState.items, ReactorState.put, hcontrol, Control.items] using hi
  | submitted hcontrol =>
    refine ⟨?_, h.responded_ok⟩
    intro i hi
    apply h.items_ok
    simpa only [ReactorState.items, ReactorState.put, hcontrol, Control.items] using hi
  | @responded item items c _ hcontrol _ hid _ =>
    refine ⟨h.tail_ok hcontrol, ?_⟩
    intro x hx
    rcases List.mem_append.mp hx with hold | hnew
    · exact h.responded_ok x hold
    · -- the connection was compared with the item, and the item with its request
      have hitem := h.head_ok hcontrol
      rw [List.mem_singleton.mp hnew]
      exact ⟨hid.trans hitem.id_eq, hitem.resp_eq⟩
  | dropped hcontrol => exact ⟨h.tail_ok hcontrol, h.responded_ok⟩

end Delivered

/-! ## Numbers of connections are not used again -/

/-- Open connections have numbers of their own, and a request belongs to at most one. -/
structure Ids (s : ReactorState) : Prop where
  conn_le : ∀ fd c, s.status fd = some c → c.connId ≤ s.connId
  conn_inj : ∀ fd fd' c c', s.status fd = some c → s.status fd' = some c' →
    c.connId = c'.connId → fd = fd'
  req_le : ∀ r ∈ s.decoded, r.id ≤ s.connId
  req_fd : ∀ r ∈ s.decoded, ∀ fd c, s.status fd = some c → c.connId = r.id → r.fd = fd
  /-- The requests not yet submitted belong to the connection being read. -/
  pending_id : ∀ fd reqs next, s.control = .submitting fd reqs next →
    ∀ c, s.status fd = some c → ∀ r ∈ reqs, r.id = c.connId
  /-- A request is dropped only after its connection. -/
  dropped_closed : ∀ r ∈ s.dropped, ∀ fd c, s.status fd = some c → c.connId ≠ r.id

namespace Ids

variable {handler : List UInt8 → Option (List UInt8)} {s t : ReactorState}

/-- The connections at two descriptors have two numbers. -/
theorem connId_ne (h : Ids s) {fd fd' : Nat} {c c' : Connection} (hstatus : s.status fd = some c)
    (hstatus' : s.status fd' = some c') (hfd : fd' ≠ fd) : c.connId ≠ c'.connId :=
  fun heq => hfd (h.conn_inj fd' fd c' c hstatus' hstatus heq.symm)

/-- A step that accepts nothing keeps the numbers apart. -/
theorem of_from (h : Ids s) (hfrom : From s t) (hconnId : t.connId = s.connId)
    (hdecoded : ∀ r ∈ t.decoded, r ∈ s.decoded ∨
      ∃ c, s.status r.fd = some c ∧ c.connId = r.id)
    (hpending : ∀ fd reqs next, t.control = .submitting fd reqs next →
      ∀ c, s.status fd = some c → ∀ r ∈ reqs, r.id = c.connId)
    (hdropped : ∀ r ∈ t.dropped, r ∈ s.dropped ∨
      ∀ fd c, s.status fd = some c → c.connId ≠ r.id) : Ids t where
  conn_le := by
    intro fd c hc
    obtain ⟨d, hd, heq⟩ := hfrom fd c hc
    rw [heq, hconnId]
    exact h.conn_le fd d hd
  conn_inj := by
    intro fd fd' c c' hc hc' hsame
    obtain ⟨d, hd, heq⟩ := hfrom fd c hc
    obtain ⟨d', hd', heq'⟩ := hfrom fd' c' hc'
    apply h.conn_inj fd fd' d d' hd hd'
    rw [← heq, ← heq', hsame]
  req_le := by
    intro r hr
    rw [hconnId]
    rcases hdecoded r hr with hold | ⟨c, hc, hid⟩
    · exact h.req_le r hold
    · rw [← hid]
      exact h.conn_le _ c hc
  req_fd := by
    intro r hr fd c hc hid
    obtain ⟨d, hd, heq⟩ := hfrom fd c hc
    -- a new request is of the connection it was decoded on, and numbers are not shared
    rcases hdecoded r hr with hold | ⟨c', hc', hid'⟩
    · exact h.req_fd r hold fd d hd (heq.symm.trans hid)
    · apply h.conn_inj r.fd fd c' d hc' hd
      rw [hid', ← hid, heq]
  pending_id := by
    intro fd reqs next hcontrol c hc r hr
    obtain ⟨d, hd, heq⟩ := hfrom fd c hc
    rw [heq]
    exact hpending fd reqs next hcontrol d hd r hr
  dropped_closed := by
    intro r hr fd c hc
    obtain ⟨d, hd, heq⟩ := hfrom fd c hc
    rw [heq]
    rcases hdropped r hr with hold | hnew
    · exact h.dropped_closed r hold fd d hd
    · exact hnew fd d hd

/-- The number of an accepted connection is above all that were given before. -/
theorem accept (h : Ids s) (hknown : Known s) {fd : Nat} (hpending : s.control.pending = [])
    (hfree : s.status fd = none) :
    Ids ({ s with connId := s.connId + 1 }.put fd (some { connId := s.connId + 1 })) := by
  -- an open connection is the new one or was open before
  have hopen : ∀ {fd' : Nat} {c' : Connection},
      ({ s with connId := s.connId + 1 }.put fd
        (some { connId := s.connId + 1 })).status fd' = some c' →
      (fd' = fd ∧ c'.connId = s.connId + 1) ∨ s.status fd' = some c' := by
    intro fd' c' hc'
    rcases put_open hc' with ⟨hfd, hnew⟩ | ⟨-, hold⟩
    · left
      cases hnew
      exact ⟨hfd, rfl⟩
    · right
      exact hold
  constructor
  · intro fd' c' hc'
    rcases hopen hc' with ⟨-, hid⟩ | hold
    · exact hid.le
    · exact (h.conn_le fd' c' hold).trans (Nat.le_succ _)
  · intro fd₁ fd₂ c₁ c₂ hc₁ hc₂ hsame
    rcases hopen hc₁ with ⟨rfl, hid₁⟩ | hold₁ <;> rcases hopen hc₂ with ⟨rfl, hid₂⟩ | hold₂
    · rfl
    · -- one of them has the new number, the other one of the numbers given before
      have hle := h.conn_le _ c₂ hold₂
      omega
    · have hle := h.conn_le _ c₁ hold₁
      omega
    · exact h.conn_inj fd₁ fd₂ c₁ c₂ hold₁ hold₂ hsame
  · intro r hr
    exact (h.req_le r hr).trans (Nat.le_succ _)
  · intro r hr fd' c' hc' hid
    rcases hopen hc' with ⟨-, hnew⟩ | hold
    · have hle := h.req_le r hr
      omega
    · exact h.req_fd r hr fd' c' hold hid
  · intro fd' reqs next hcontrol c' hc' r hr
    have hnil : reqs = [] := by
      have heq : s.control = .submitting fd' reqs next := hcontrol
      -- between two events nothing is pending
      rw [heq] at hpending
      exact hpending
    rw [hnil] at hr
    cases hr
  · intro r hr fd' c' hc'
    rcases hopen hc' with ⟨-, hnew⟩ | hold
    · have hle := h.req_le r (hknown.dropped r hr)
      omega
    · exact h.dropped_closed r hr fd' c' hold

/-- The request of an item belongs to no open connection, when the descriptor of the item
is free or belongs to another one. -/
theorem closed_of_item (h : Ids s) {item : DoitItem} (hitem : ItemOk handler item)
    (hmem : item.req ∈ s.decoded)
    (hother : ∀ c, s.status item.fd = some c → c.connId ≠ item.id) :
    ∀ fd c, s.status fd = some c → c.connId ≠ item.req.id := by
  intro fd c hc hid
  -- the connection of the request could only be on the descriptor of the item
  have hfd : item.fd = fd := hitem.fd_eq.trans (h.req_fd item.req hmem fd c hc hid)
  subst hfd
  exact hother c hc (hid.trans hitem.id_eq.symm)

theorem effect (h : Ids s) (hknown : Known s) (hdel : Delivered handler s)
    (e : Effect handler s t) : Ids t := by
  -- where the requests in the turn are the same, or there are none
  have hkept : ∀ {control : Control}, (control = s.control ∨ control.pending = []) →
      ∀ fd reqs next, control = .submitting fd reqs next →
      ∀ c, s.status fd = some c → ∀ r ∈ reqs, r.id = c.connId := by
    intro control hcontrol fd reqs next heq c hc r hr
    rcases hcontrol with hsame | hnone
    · exact h.pending_id fd reqs next (hsame ▸ heq) c hc r hr
    · rw [heq] at hnone
      have hnil : reqs = [] := hnone
      rw [hnil] at hr
      cases hr
  have hfrom := e.stays
  cases e with
  | moved _ hcontrol =>
    exact h.of_from (hfrom rfl) rfl (fun r hr => .inl hr) (hkept hcontrol) (fun r hr => .inl hr)
  | conn _ _ _ hnew =>
    exact h.of_from (hfrom rfl) rfl (fun r hr => .inl hr) (hkept (.inr hnew))
      (fun r hr => .inl hr)
  | accepted hpending hfree => exact h.accept hknown hpending hfree
  | @decoded fd c c' msgs next hcontrol hstatus _ =>
    apply h.of_from (hfrom rfl) rfl
    · intro r hr
      rcases List.mem_append.mp hr with hold | hnew
      · exact .inl hold
      · right
        obtain ⟨hfd, hid⟩ := mem_number hnew
        rw [hfd, hid]
        exact ⟨c, hstatus, rfl⟩
    · intro fd' reqs next' heq d hd r hr
      cases heq
      obtain ⟨-, hid⟩ := mem_number hr
      rw [hstatus] at hd
      cases hd
      exact hid
    · exact fun r hr => .inl hr
  | @submitted fd c req reqs next hcontrol hstatus =>
    apply h.of_from (hfrom rfl) rfl
    · exact fun r hr => .inl hr
    · intro fd' reqs' next' heq d hd r hr
      cases heq
      exact h.pending_id fd (req :: reqs) next hcontrol d hd r (List.mem_cons_of_mem _ hr)
    · exact fun r hr => .inl hr
  | responded =>
    exact h.of_from (hfrom rfl) rfl (fun r hr => .inl hr) (hkept (.inr rfl))
      (fun r hr => .inl hr)
  | @dropped item items hcontrol hother =>
    apply h.of_from (hfrom rfl) rfl
    · exact fun r hr => .inl hr
    · exact hkept (.inr rfl)
    · intro r hr
      rcases List.mem_append.mp hr with hold | hnew
      · exact .inl hold
      · right
        rw [List.mem_singleton.mp hnew]
        refine h.closed_of_item (hdel.head_ok hcontrol) ?_ hother
        apply hknown.held
        exact (Conserved.held_delivering hcontrol).mem_iff.mpr List.mem_cons_self

end Ids

/-! ## What `inflight` counts -/

namespace ReactorState

/-- The submitted requests of a connection that wait in the pool, run, or are finished and
not yet delivered. -/
def outstanding (s : ReactorState) (connId : Nat) : Nat :=
  s.held.countP (·.id = connId)

/-- The requests decoded on a connection. -/
def received (s : ReactorState) (connId : Nat) : Nat :=
  s.decoded.countP (·.id = connId)

/-- The responses passed to `senddata` of a connection. -/
def answered (s : ReactorState) (connId : Nat) : Nat :=
  s.responded.countP (·.connId = connId)

/-- The requests of a connection that `handreadable` is about to submit. -/
def unsubmitted (s : ReactorState) (connId : Nat) : Nat :=
  s.pending.countP (·.id = connId)

end ReactorState

/-- `inflight` of every open connection is the number of its outstanding requests. -/
def Counted (s : ReactorState) : Prop :=
  ∀ fd c, s.status fd = some c → c.inflight = s.outstanding c.connId

namespace Counted

variable {handler : List UInt8 → Option (List UInt8)} {s t : ReactorState}

/-- What delivering or dropping the first drained item takes off the count. -/
theorem outstanding_delivering {item : DoitItem} {items : List DoitItem}
    (h : s.control = .delivering (item :: items)) (connId : Nat) :
    s.outstanding connId =
      ({ s with control := .delivering items } : ReactorState).outstanding connId +
        if item.req.id = connId then 1 else 0 := by
  rw [ReactorState.outstanding, (Conserved.held_delivering h).countP_eq, List.countP_cons]
  simp [ReactorState.outstanding]

/-- What submitting a request adds to the count. -/
theorem outstanding_submitting {fd : Nat} {req : Request} {reqs : List Request}
    {next : Connection.ReadNext} (h : s.control = .submitting fd (req :: reqs) next)
    (connId : Nat) :
    ({ s with tasks := s.tasks ++ [req], control := .submitting fd reqs next }
      : ReactorState).outstanding connId =
      s.outstanding connId + if req.id = connId then 1 else 0 := by
  simp only [ReactorState.outstanding, ReactorState.held, ReactorState.items, h, Control.items,
    List.countP_append, List.countP_cons, List.countP_nil, decide_eq_true_eq]
  omega

/-- The connection at one descriptor is replaced, or closed, and the others keep their
counts. -/
theorem put {u : ReactorState} (h : Counted s) {fd : Nat} {oc : Option Connection}
    (hstatus : u.status = s.status)
    (hself : ∀ c', oc = some c' → c'.inflight = u.outstanding c'.connId)
    (hothers : ∀ fd' d, fd' ≠ fd → s.status fd' = some d →
      u.outstanding d.connId = s.outstanding d.connId) : Counted (u.put fd oc) := by
  intro fd' c' hc'
  rcases put_open hc' with ⟨-, hoc⟩ | ⟨hfd, hold⟩
  · exact hself c' hoc
  · rw [hstatus] at hold
    rw [h fd' c' hold]
    exact congrArg Nat.cast (hothers fd' c' hfd hold).symm

theorem effect (h : Counted s) (hids : Ids s) (hknown : Known s) (hdel : Delivered handler s)
    (e : Effect handler s t) : Counted t := by
  cases e with
  -- the count is of the requests held, wherever they are
  | moved _ _ hheld _ =>
    intro fd c hc
    rw [h fd c hc]
    exact congrArg Nat.cast (hheld.countP_eq _).symm
  | @conn fd c oc control hstatus hkeeps _ _ hitems =>
    have hsame : ∀ connId, ({ s with control } : ReactorState).outstanding connId =
        s.outstanding connId := by
      intro connId
      simp only [ReactorState.outstanding, ReactorState.held, ReactorState.items, hitems]
    refine h.put rfl (fun c' hoc => ?_) fun _ d _ _ => hsame d.connId
    have hk := hkeeps c' hoc
    rw [hsame, hk.inflight_eq, hk.connId_eq]
    exact h fd c hstatus
  | @accepted fd _ hfree =>
    refine h.put rfl (fun c' hoc => ?_) fun _ _ _ _ => rfl
    cases hoc
    -- no request has the new number yet
    have hzero : s.outstanding (s.connId + 1) = 0 := by
      apply List.countP_eq_zero.mpr
      intro r hr hid
      have hle := hids.req_le r (hknown.held r hr)
      have heq : r.id = s.connId + 1 := by simpa using hid
      omega
    exact (congrArg Nat.cast hzero).symm
  | @decoded fd c c' msgs next hcontrol hstatus hkeeps =>
    have hsame : ∀ connId, ({ s with
        decoded := s.decoded ++ ReactorState.number fd c.connId s.decoded.length msgs
        control := .submitting fd
          (ReactorState.number fd c.connId s.decoded.length msgs) next } :
            ReactorState).outstanding connId = s.outstanding connId := by
      intro connId
      simp only [ReactorState.outstanding, ReactorState.held, ReactorState.items, hcontrol,
        Control.items]
    refine h.put rfl (fun d hoc => ?_) fun _ d _ _ => hsame d.connId
    cases hoc
    rw [hsame, hkeeps.inflight_eq, hkeeps.connId_eq]
    exact h fd c hstatus
  | @submitted fd c req reqs next hcontrol hstatus =>
    -- the request is of the connection being read, and of no other open one
    have hid : req.id = c.connId :=
      hids.pending_id fd _ next hcontrol c hstatus req List.mem_cons_self
    have hcount := outstanding_submitting hcontrol
    refine h.put rfl (fun d hoc => ?_) fun fd' d hfd hold => ?_
    · cases hoc
      have hsame : req.id = c.submitted.connId := hid
      have hbefore : c.inflight = s.outstanding c.submitted.connId := h fd c hstatus
      change c.inflight + 1 = _
      rw [hcount, if_pos hsame, hbefore, Nat.cast_add, Nat.cast_one]
    · rw [hcount, hid, if_neg (hids.connId_ne hstatus hold hfd), Nat.add_zero]
  | @responded item items c oc hcontrol hstatus hid hsame =>
    -- the request is of the connection that takes the response, and of no other open one
    have hreq : item.req.id = c.connId := by
      rw [hid, (hdel.head_ok hcontrol).id_eq]
    have hcount := outstanding_delivering hcontrol
    refine h.put rfl (fun d hoc => ?_) fun fd' d hfd hold => ?_
    · obtain ⟨hconnId, hinflight⟩ := hsame d hoc
      rw [hinflight, hconnId, h item.fd c hstatus, hcount, if_pos hreq, Nat.cast_add,
        Nat.cast_one, add_sub_cancel_right]
      rfl
    · rw [hcount d.connId, hreq, if_neg (hids.connId_ne hstatus hold hfd), Nat.add_zero]
      rfl
  | @dropped item items hcontrol hother =>
    have hmem : item.req ∈ s.decoded := by
      apply hknown.held
      exact (Conserved.held_delivering hcontrol).mem_iff.mpr List.mem_cons_self
    intro fd c hc
    -- the request was of no connection that is open
    have hclosed := hids.closed_of_item (hdel.head_ok hcontrol) hmem hother fd c hc
    have hcount := outstanding_delivering hcontrol c.connId
    rw [if_neg hclosed.symm, Nat.add_zero] at hcount
    rw [h fd c hc]
    exact congrArg Nat.cast hcount

end Counted

/-! ## Every reachable state -/

/-- The invariants of the server. -/
structure Inv (handler : List UInt8 → Option (List UInt8)) (s : ReactorState) : Prop where
  conserved : Conserved s
  delivered : Delivered handler s
  ids : Ids s
  counted : Counted s

section Runs

variable {handler : List UInt8 → Option (List UInt8)} {s t : ReactorState}

theorem Inv.start : Inv handler {} where
  conserved := ⟨.nil, rfl⟩
  delivered := by constructor <;> simp [ReactorState.items, Control.items]
  ids := by constructor <;> simp
  counted := by simp [Counted]

theorem Inv.step (h : Inv handler s) (hreturns : ∀ msg, (handler msg).isSome) {a : Action}
    (hstep : s.step handler a = some t) : Inv handler t := by
  have heffect := step_effect (not_throws hreturns a) hstep
  constructor
  · exact h.conserved.effect heffect
  · exact h.delivered.effect heffect
  · exact h.ids.effect h.conserved.known h.delivered heffect
  · exact h.counted.effect h.ids h.conserved.known h.delivered heffect

theorem inv_reachable (hreturns : ∀ msg, (handler msg).isSome)
    (h : (reactor handler).Reachable s) : Inv handler s := by
  refine h.invariant ?_ ?_
  · rintro s rfl
    exact .start
  · intro s a t hs hstep
    exact hs.step hreturns hstep

end Runs

/-- For every open connection, the responses sent, the requests outstanding and those about
to be submitted are one for each request decoded on it. -/
theorem Inv.balance {handler : List UInt8 → Option (List UInt8)} {s : ReactorState}
    (h : Inv handler s) {fd : Nat} {c : Connection} (hc : s.status fd = some c) :
    s.answered c.connId + s.outstanding c.connId + s.unsubmitted c.connId =
      s.received c.connId := by
  -- the places of the requests, counted for this connection
  have hplaces := h.conserved.places.countP_eq (·.id = c.connId)
  -- a dropped request is of a connection that is closed
  have hdropped : s.dropped.countP (·.id = c.connId) = 0 := by
    apply List.countP_eq_zero.mpr
    intro r hr hid
    have heq : r.id = c.connId := by simpa using hid
    exact h.ids.dropped_closed r hr fd c hc heq.symm
  -- a response is counted at the connection of its request
  have hanswered : (s.responded.map Response.req).countP (·.id = c.connId) =
      s.answered c.connId := by
    rw [List.countP_map]
    apply List.countP_congr
    intro x hx
    have hid := (h.delivered.responded_ok x hx).1
    simp [hid]
  simp only [List.countP_append] at hplaces
  rw [hdropped, hanswered] at hplaces
  simp only [ReactorState.outstanding, ReactorState.unsubmitted, ReactorState.received]
  omega

/-- As long as fewer than `2 ^ 31` requests were decoded an `int` holds `inflight`. -/
theorem Inv.inflight_toInt {handler : List UInt8 → Option (List UInt8)} {s : ReactorState}
    (h : Inv handler s) (hdecoded : s.decoded.length < 2 ^ 31) {fd : Nat} {c : Connection}
    (hc : s.status fd = some c) : toInt c.inflight = c.inflight := by
  have hbalance := h.balance hc
  have hle : s.received c.connId ≤ s.decoded.length := List.countP_le_length
  rw [h.counted fd c hc]
  exact toInt_of_lt (by omega) (by omega)

/-- What the clients and the owner of the server rely on. -/
structure ExactlyOnce (handler : List UInt8 → Option (List UInt8)) (s : ReactorState) :
    Prop where
  /-- A response is the handler's, to a request decoded on the same connection. -/
  answers : ∀ x ∈ s.responded,
    x.req ∈ s.decoded ∧ x.req.id = x.connId ∧ handler x.req.msg = some x.resp
  /-- Requests are told apart, and each is answered at most once. -/
  once : s.decoded.Nodup ∧ (s.responded.map Response.req).Nodup
  /-- Open connections are told apart by their numbers. -/
  conn_inj : ∀ fd fd' c c', s.status fd = some c → s.status fd' = some c' →
    c.connId = c'.connId → fd = fd'
  inflight_eq : ∀ fd c, s.status fd = some c → c.inflight = s.outstanding c.connId
  balance : ∀ fd c, s.status fd = some c →
    s.answered c.connId + s.outstanding c.connId + s.unsubmitted c.connId =
      s.received c.connId
  /-- Between two events the requests are queued, running or in the done queue. -/
  idle_places : s.control = .idle → s.pending = [] ∧
    s.held = s.tasks ++ s.running ++ s.queue.map DoitItem.req

/-- Whatever the order of accepts, closes, reads and workers: when the handler returns on
every request, each response goes to the connection its request was decoded on, once, and
`inflight` counts the requests of an open connection that have no response yet. -/
theorem exactlyOnce {handler : List UInt8 → Option (List UInt8)} {s : ReactorState}
    (hreturns : ∀ msg, (handler msg).isSome) (h : (reactor handler).Reachable s) :
    ExactlyOnce handler s := by
  have hinv := inv_reachable hreturns h
  constructor
  · intro x hx
    obtain ⟨hid, hresp⟩ := hinv.delivered.responded_ok x hx
    exact ⟨hinv.conserved.mem_of_responded hx, hid.symm, hresp⟩
  · -- the requests answered are among those decoded, each in one place only
    have hnodup := hinv.conserved.places.nodup_iff.mp hinv.conserved.nodup
    refine ⟨hinv.conserved.nodup, ?_⟩
    exact (List.nodup_append.mp (List.nodup_append.mp hnodup).1).2.1
  · exact hinv.ids.conn_inj
  · exact hinv.counted
  · exact fun fd c hc => hinv.balance hc
  · intro hidle
    simp [ReactorState.pending, ReactorState.held, ReactorState.items, hidle, Control.pending,
      Control.items]

/-- An echo server: descriptor 5 is accepted, a request of one byte read, run and answered,
while the connection stays open. -/
theorem exactlyOnce_echo : ∃ s, (reactor some).Reachable s ∧
    s.responded = [⟨1, [7], ⟨5, 1, [7], 0⟩⟩] ∧ (s.status 5).isSome ∧ ExactlyOnce some s := by
  have hrun : ∃ s, ReactorState.run some [.accept 5, .event 5 { epollin := true } [],
      .recv (.data [0, 0, 0, 1, 7]), .submit, .endTurn, .recv .again, .endTurn, .take,
      .complete 0, .drain, .deliver [.accepted 5], .endTurn] {} = some s ∧
      s.responded = [⟨1, [7], ⟨5, 1, [7], 0⟩⟩] ∧ (s.status 5).isSome :=
    ⟨_, rfl, by decide, by decide⟩
  obtain ⟨s, hs, hresponded, hopen⟩ := hrun
  have hreach : (reactor some).Reachable s := reachable_of_run hs
  exact ⟨s, hreach, hresponded, hopen, exactlyOnce (fun _ => rfl) hreach⟩

end ServiceInfra.Reactor
