import ServiceInfra.Reactor.Streams

/-!
# What a client reads

The messages on the output of a connection are responses to messages on its input, each for
one: the input is decoded, its requests go through the pool, the workers and the done queue
in any order, and what comes back is encoded, sent at once or queued, and sent later. The
decoder of an open connection has read all of its input, and its output buffer holds what is
missing on its output (`Wired`); of a closed one the streams stay fronts of what they would
have been (`Past`).

Main results:
- `Wired.served`: what one handler does to the streams of its connection
- `WireInv.step`, `wireInv_reachable`: the invariant along every run
- `served_subperm`: the messages on the output answer messages on the input
- `sent_perm`: all of them, once the server has nothing left to do for the connection
-/

namespace ServiceInfra.Reactor

open Library
open Net

/-! ## What one handler does to the streams of its connection -/

/-- The requests decoded on a connection are the first messages of its input, and its output
is the front of the encoded responses. -/
structure Past (received sent : List UInt8) (reqs resps : List (List UInt8)) : Prop where
  requests_front : reqs <+: (framing.parse received).items
  sent_prefix : sent <+: resps.flatMap encode

/-- The decoder of an open connection has read its input, and its output buffer holds what is
missing of the encoded responses. -/
structure Wired (received sent : List UInt8) (reqs resps : List (List UInt8)) (c : Connection) :
    Prop where
  submits : Submits received c.decoder reqs
  cursor : c.Cursor
  bytes_eq : sent ++ c.unsent = resps.flatMap encode

section Wired

variable {received sent inb outb : List UInt8} {reqs resps reqs' resps' : List (List UInt8)}
  {c c' : Connection} {oc : Option Connection}

theorem submits_front {decoder : MessageDecode} (h : Submits received decoder reqs) :
    reqs <+: (framing.parse received).items := by
  cases herr : decoder.error with
  | false =>
    rw [h.submitted_eq herr]
  | true =>
    obtain ⟨before, chunk, after, hreceived, -, -, hitems⟩ := h.broken_at herr
    rw [hitems, hreceived, List.append_assoc]
    exact framing.items_prefix_append before _

/-- A response is sent, queued, or sent in part and queued in part. -/
theorem senddata_bytes (hcursor : c.Cursor) {resp taken : List UInt8} {script : List SendOutcome}
    {ok : Bool} (hlen : (encode resp).length < 2 ^ 31)
    (h : c.senddata resp script = some (c', taken, ok)) :
    taken ++ c'.unsent = c.unsent ++ if ok then encode resp else [] := by
  by_cases hout : c.outbuffer = []
  · rw [Connection.unsent_of_nil hout, List.nil_append]
    exact (Connection.senddata_direct hout (hcursor.idx_eq_zero hout) h).2.mpr
      (directFits_of_length_lt hlen script)
  · rw [Connection.senddata_queued hout] at h
    cases h
    rw [hcursor.unsent_queue, if_pos rfl]
    rfl

namespace Wired

theorem past (h : Wired received sent reqs resps c) : Past received sent reqs resps where
  requests_front := submits_front h.submits
  sent_prefix := by
    rw [← h.bytes_eq]
    exact List.prefix_append _ _

theorem fresh (connId : Nat) : Wired [] [] [] [] { connId } :=
  ⟨.fresh, Connection.cursor_of_nil rfl rfl, rfl⟩

/-- Of the output only the buffer and its cursor matter. -/
theorem of_output (h : Wired received sent reqs resps c)
    (hsubmits : Submits (received ++ inb) c'.decoder (reqs ++ reqs'))
    (hout : c'.outbuffer = c.outbuffer) (hidx : c'.idx = c.idx) :
    Wired (received ++ inb) sent (reqs ++ reqs') resps c' where
  submits := hsubmits
  cursor := by
    obtain ⟨hnonneg, hlt, hzero⟩ := h.cursor
    rw [← hidx] at hnonneg hlt hzero
    rw [← hout] at hlt hzero
    exact ⟨hnonneg, hlt, hzero⟩
  bytes_eq := by
    rw [Connection.unsent, hout, hidx]
    exact h.bytes_eq

theorem of_same (h : Wired received sent reqs resps c) (hdecoder : c'.decoder = c.decoder)
    (hout : c'.outbuffer = c.outbuffer) (hidx : c'.idx = c.idx) :
    Wired received sent reqs resps c' := by
  have hsubmits : Submits (received ++ []) c'.decoder (reqs ++ []) := by
    rw [List.append_nil, List.append_nil, hdecoder]
    exact h.submits
  simpa using h.of_output hsubmits hout hidx

theorem handwrite (h : Wired received sent reqs resps c) (hsmall : c.outbuffer.length < 2 ^ 31)
    {script : List SendOutcome} {taken : List UInt8} {ok : Bool}
    (hcall : c.handwrite script = some (c', taken, ok)) :
    Wired received (sent ++ taken) reqs resps c' := by
  obtain ⟨hcursor, hbytes⟩ := Connection.handwrite_order h.cursor hsmall hcall
  refine ⟨?_, hcursor, ?_⟩
  · rw [Connection.handwrite_decoder hcall]
    exact h.submits
  · rw [List.append_assoc, hbytes]
    exact h.bytes_eq

/-- A connection of which `senddata` fails is closed, and its output stays a front. -/
theorem ondone (h : Wired received sent reqs resps c) {resp : List UInt8}
    (hlen : (encode resp).length < 2 ^ 31) {script : List SendOutcome} {taken : List UInt8}
    {ok : Bool} (hcall : c.ondone resp script = some (c', taken, ok)) :
    Past received (sent ++ taken) reqs (resps ++ [resp]) ∧
      (ok = true → Wired received (sent ++ taken) reqs (resps ++ [resp]) c') := by
  have hdecoder := Connection.ondone_decoder hcall
  obtain ⟨⟨d, taken', ok'⟩, hsend, heq⟩ := Option.map_eq_some_iff.mp hcall
  cases heq
  have hcounted : Wired received sent reqs resps { c with inflight := c.inflight - 1 } :=
    h.of_same rfl rfl rfl
  have hbytes := senddata_bytes hcounted.cursor hlen hsend
  have hall : sent ++ taken ++ c'.unsent =
      resps.flatMap encode ++ if ok' then encode resp else [] := by
    rw [List.append_assoc, hbytes, ← List.append_assoc, hcounted.bytes_eq]
  have hflat : (resps ++ [resp]).flatMap encode = resps.flatMap encode ++ encode resp := by simp
  cases ok' with
  | true =>
    rw [if_pos rfl, ← hflat] at hall
    have hwired : Wired received (sent ++ taken) reqs (resps ++ [resp]) c' := by
      refine ⟨?_, Connection.senddata_cursor hcounted.cursor hsend, hall⟩
      rw [hdecoder]
      exact h.submits
    exact ⟨hwired.past, fun _ => hwired⟩
  | false =>
    rw [if_neg Bool.false_ne_true, List.append_nil] at hall
    refine ⟨⟨submits_front h.submits, ?_⟩, fun hok => by cases hok⟩
    rw [hflat, ← hall, List.append_assoc]
    exact List.prefix_append _ _

/-- What one handler does to the streams of its connection. -/
theorem served (h : Wired received sent reqs resps c) (hsmall : c.outbuffer.length < 2 ^ 31)
    (hserved : Served c inb outb reqs' resps' oc)
    (hlen : ∀ resp ∈ resps', (encode resp).length < 2 ^ 31) :
    Past (received ++ inb) (sent ++ outb) (reqs ++ reqs') (resps ++ resps') ∧
      ∀ d, oc = some d →
        Wired (received ++ inb) (sent ++ outb) (reqs ++ reqs') (resps ++ resps') d := by
  -- a handler after which the connection is closed, or stays
  have hends : ∀ {received sent reqs resps} {d : Connection} (ok : Bool),
      Wired received sent reqs resps d →
        Past received sent reqs resps ∧
          ∀ d', (if ok then some d else none) = some d' → Wired received sent reqs resps d' := by
    intro received sent reqs resps d ok hd
    refine ⟨hd.past, fun d' hd' => ?_⟩
    cases ok <;> cases hd'
    exact hd
  cases hserved with
  | closed =>
    simp only [List.append_nil]
    exact ⟨h.past, nofun⟩
  | received o =>
    simp only [List.append_nil]
    obtain ⟨hout, hidx⟩ := c.receive_output o
    exact hends true (h.of_output (h.submits.receive o) hout hidx)
  | submitted =>
    simp only [List.append_nil]
    exact hends true (h.of_same rfl rfl rfl)
  | eof =>
    simp only [List.append_nil]
    exact hends c.eofReturn.2
      (h.of_same c.eofReturn_decoder c.eofReturn_output.1 c.eofReturn_output.2)
  | returned ok =>
    simp only [List.append_nil]
    exact hends ok h
  | written hcall =>
    simp only [List.append_nil]
    exact hends _ (h.handwrite hsmall hcall)
  | @done c' resp taken script ok hcall =>
    simp only [List.append_nil]
    obtain ⟨hpast, hwired⟩ := h.ondone (hlen resp List.mem_cons_self) hcall
    refine ⟨hpast, fun d hd => ?_⟩
    cases ok <;> cases hd
    exact hwired rfl

end Wired

end Wired

/-! ## Requests answered at most once -/

/-- The requests by where they are. -/
def ReactorState.places (s : ReactorState) : List Request :=
  s.pending ++ s.held ++ s.responded.map Response.req ++ s.dropped

section Places

variable {handler : List UInt8 → Option (List UInt8)} {s t : ReactorState}

/-- Requests change their places, and new ones are decoded. -/
theorem Effect.places (e : Effect handler s t) :
    ∃ new, t.decoded = s.decoded ++ new ∧ t.places.Perm (s.places ++ new) := by
  cases e with
  | @moved stopping tasks running queue control hpending _ hheld _ =>
    refine ⟨[], (List.append_nil _).symm, ?_⟩
    rw [List.append_nil, ReactorState.places, ReactorState.places, ReactorState.pending,
      ReactorState.pending, hpending]
    exact ((hheld.append_left _).append_right _).append_right _
  | @conn fd c oc control _ _ hold hnew hitems =>
    refine ⟨[], (List.append_nil _).symm, List.Perm.of_eq ?_⟩
    simp only [ReactorState.places, ReactorState.pending, ReactorState.held, ReactorState.items,
      ReactorState.put, hold, hnew, hitems, List.append_nil]
  | accepted => exact ⟨[], (List.append_nil _).symm, List.Perm.of_eq (List.append_nil _).symm⟩
  | @decoded fd c c' msgs next hcontrol _ _ =>
    refine ⟨_, rfl, List.perm_iff_count.mpr fun r => ?_⟩
    simp only [ReactorState.places, ReactorState.pending, ReactorState.held, ReactorState.items,
      ReactorState.put, hcontrol, Control.pending, Control.items, List.count_append,
      List.count_nil]
    omega
  | @submitted fd c req reqs next hcontrol _ =>
    refine ⟨[], (List.append_nil _).symm, List.perm_iff_count.mpr fun r => ?_⟩
    simp only [ReactorState.places, ReactorState.pending, ReactorState.held, ReactorState.items,
      ReactorState.put, hcontrol, Control.pending, Control.items, List.count_append,
      List.count_cons, List.count_nil]
    omega
  | @responded item items c oc hcontrol _ _ _ =>
    refine ⟨[], (List.append_nil _).symm, List.perm_iff_count.mpr fun r => ?_⟩
    have hheld := (Conserved.held_delivering hcontrol).count_eq r
    simp only [ReactorState.places, ReactorState.pending, ReactorState.held, ReactorState.items,
      ReactorState.put, hcontrol, Control.pending, List.count_append, List.count_cons,
      List.count_nil, List.map_append, List.map_cons, List.map_nil] at hheld ⊢
    omega
  | @dropped item items hcontrol _ =>
    refine ⟨[], (List.append_nil _).symm, List.perm_iff_count.mpr fun r => ?_⟩
    have hheld := (Conserved.held_delivering hcontrol).count_eq r
    simp only [ReactorState.places, ReactorState.pending, ReactorState.held, ReactorState.items,
      hcontrol, Control.pending, List.count_append, List.count_cons, List.count_nil,
      List.map_append] at hheld ⊢
    omega

/-- Every request decoded is in one place, or its task has thrown. -/
def Placed (handler : List UInt8 → Option (List UInt8)) (s : ReactorState) : Prop :=
  ∃ thrown, s.decoded.Perm (s.places ++ thrown) ∧ ∀ r ∈ thrown, handler r.msg = none

theorem placed_step (h : Placed handler s) {a : Action} (hstep : s.step handler a = some t) :
    Placed handler t := by
  obtain ⟨thrown, hperm, hthrown⟩ := h
  by_cases hthrows : Throws handler s a
  · obtain ⟨worker, req, rfl, hreq, rfl⟩ := step_throws hthrows hstep
    have hnone : handler req.msg = none := by
      obtain ⟨req', hreq', hnone⟩ := hthrows
      rwa [Option.some.inj (hreq.symm.trans hreq')]
    refine ⟨req :: thrown, hperm.trans ?_, List.forall_mem_cons.mpr ⟨hnone, hthrown⟩⟩
    -- the request is held no more
    refine List.perm_iff_count.mpr fun r => ?_
    have hheld := (held_throws hreq).count_eq r
    simp only [ReactorState.places, ReactorState.pending, List.count_append,
      List.count_cons] at hheld ⊢
    omega
  · obtain ⟨new, hdecoded, hplaces⟩ := (step_effect hthrows hstep).places
    refine ⟨thrown, ?_, hthrown⟩
    refine List.perm_iff_count.mpr fun r => ?_
    have hbefore := hperm.count_eq r
    have hafter := hplaces.count_eq r
    simp only [hdecoded, List.count_append] at hbefore hafter ⊢
    omega

end Places

/-! ## Every run -/

/-- A response fits a frame where its request does. -/
def AnswersFit (handler : List UInt8 → Option (List UInt8)) : Prop :=
  ∀ msg resp, msg.length ≤ 1048576 → handler msg = some resp → resp.length ≤ 1048576

/-- The invariant of the server with its streams. -/
structure WireInv (handler : List UInt8 → Option (List UInt8)) (w : WireState) : Prop where
  tracked : Tracked handler w.reactor
  placed : Placed handler w.reactor
  small : BuffersSmall w.reactor
  past : ∀ id, Past (w.received id) (w.sent id) (w.reactor.requests id) (w.reactor.answers id)
  wired : ∀ fd c, w.reactor.status fd = some c →
    Wired (w.received c.connId) (w.sent c.connId) (w.reactor.requests c.connId)
      (w.reactor.answers c.connId) c
  /-- Nothing has passed for numbers that were not given yet. -/
  unused : ∀ id, w.reactor.connId < id → w.received id = [] ∧ w.sent id = [] ∧
    w.reactor.requests id = [] ∧ w.reactor.answers id = []
  answers_le : ∀ id, ∀ resp ∈ w.reactor.answers id, resp.length ≤ 1048576

/-- A message on a stream is within the limit. -/
theorem length_of_mem_parse {bs v : List UInt8} (h : v ∈ (framing.parse bs).items) :
    v.length ≤ 1048576 := by
  induction bs using framing.parse_induct with
  | more bs hn =>
    rw [framing.parse_of_more hn] at h
    cases h
  | broken bs hn =>
    rw [framing.parse_of_broken hn] at h
    cases h
  | item bs u n hn ih =>
    rw [framing.parse_of_item hn] at h
    rcases List.mem_cons.mp h with rfl | hrest
    · obtain ⟨-, hmax, -, rfl, -⟩ := framingNext_eq_item.mp hn
      rw [UInt32.le_iff_toNat_le, messagemaxlen_toNat] at hmax
      rw [List.length_take]
      omega
    · exact ih hrest

section Runs

variable {handler : List UInt8 → Option (List UInt8)} {w v : WireState}

theorem requests_of_decoded {s t : ReactorState} {reqs : List Request} {id : Nat}
    (h : t.decoded = s.decoded ++ reqs) (hid : ∀ r ∈ reqs, r.id = id) (id' : Nat) :
    t.requests id' = s.requests id' ++ if id' = id then reqs.map Request.msg else [] := by
  rw [ReactorState.requests, h, List.filter_append, List.map_append]
  congr 1
  split
  · rename_i heq
    rw [List.filter_eq_self.mpr fun r hr => by rw [heq, hid r hr]; simp]
  · rename_i hne
    rw [List.filter_eq_nil_iff.mpr fun r hr => by rw [hid r hr]; simpa using Ne.symm hne]
    rfl

theorem answers_of_responded {s t : ReactorState} {resps : List Response} {id : Nat}
    (h : t.responded = s.responded ++ resps) (hid : ∀ x ∈ resps, x.connId = id) (id' : Nat) :
    t.answers id' = s.answers id' ++ if id' = id then resps.map Response.resp else [] := by
  rw [ReactorState.answers, h, List.filter_append, List.map_append]
  congr 1
  split
  · rename_i heq
    rw [List.filter_eq_self.mpr fun x hx => by rw [heq, hid x hx]; simp]
  · rename_i hne
    rw [List.filter_eq_nil_iff.mpr fun x hx => by rw [hid x hx]; simpa using Ne.symm hne]
    rfl

/-- A response is as long as the handler made it. -/
theorem WireInv.responded_le (h : WireInv handler w) (hfit : AnswersFit handler)
    {t : ReactorState} (ht : Delivered handler t) {x : Response} (hx : x ∈ t.responded)
    (hreq : x.req ∈ w.reactor.held) : x.resp.length ≤ 1048576 := by
  refine hfit x.req.msg x.resp ?_ (ht.responded_ok x hx).2
  -- the request was decoded on some connection
  have hmem : x.req.msg ∈ w.reactor.requests x.req.id :=
    List.mem_map_of_mem (List.mem_filter.mpr ⟨h.tracked.known.held _ hreq, by simp⟩)
  exact length_of_mem_parse ((h.past x.req.id).requests_front.subset hmem)

theorem WireInv.step (h : WireInv handler w) (hfit : AnswersFit handler) {a : Action}
    (hstep : w.step handler a = some v) (hsmall : BuffersSmall v.reactor) :
    WireInv handler v := by
  have hmoved : Tracked handler v.reactor ∧ Placed handler v.reactor := by
    obtain ⟨t, ht, rfl⟩ := Option.map_eq_some_iff.mp hstep
    exact ⟨h.tracked.step ht, placed_step h.placed ht⟩
  obtain ⟨htracked, hplaced⟩ := hmoved
  cases wireEffect_of_step hstep with
  | @quiet t hstatus hconnId hdecoded hresponded =>
    refine ⟨htracked, hplaced, hsmall, ?_, ?_, ?_, ?_⟩ <;>
      simp only [ReactorState.requests, ReactorState.answers, hdecoded, hresponded, hstatus,
        hconnId]
    · exact h.past
    · exact h.wired
    · exact h.unused
    · exact h.answers_le
  | @accepted t fd hstatus hconnId hdecoded hresponded =>
    refine ⟨htracked, hplaced, hsmall, ?_, ?_, ?_, ?_⟩ <;>
      simp only [ReactorState.requests, ReactorState.answers, hdecoded, hresponded, hstatus,
        hconnId]
    · exact h.past
    · intro fd' c' hc'
      by_cases hfd : fd' = fd
      · -- the streams of the new connection are empty
        rw [hfd, Function.update_self] at hc'
        cases hc'
        obtain ⟨hreceived, hsent, hreqs, hresps⟩ := h.unused _ (Nat.lt_succ_self _)
        rw [ReactorState.requests] at hreqs
        rw [ReactorState.answers] at hresps
        rw [hreceived, hsent, hreqs, hresps]
        exact .fresh _
      · rw [Function.update_of_ne hfd] at hc'
        exact h.wired fd' c' hc'
    · exact fun id hid => h.unused id (Nat.lt_of_succ_lt hid)
    · exact h.answers_le
  | @served t fd c oc inb outb reqs resps hstatus ht hconnId hdecoded hreqs hresponded hresps
      hserved =>
    have hrequests := requests_of_decoded hdecoded hreqs
    have hanswers := answers_of_responded hresponded fun x hx => (hresps x hx).1
    have hle : ∀ resp ∈ resps.map Response.resp, resp.length ≤ 1048576 := by
      intro resp hresp
      obtain ⟨x, hx, rfl⟩ := List.mem_map.mp hresp
      refine h.responded_le hfit htracked.delivered (t := t) ?_ (hresps x hx).2
      rw [hresponded]
      exact List.mem_append_right _ hx
    have hone := (h.wired fd c hstatus).served (h.small fd c hstatus) hserved fun resp hresp => by
      have hlen := hle resp hresp
      rw [length_encode]
      omega
    refine ⟨htracked, hplaced, hsmall, fun id => ?_, fun fd' c' hc' => ?_, fun id hid => ?_,
      fun id resp hr => ?_⟩
    · simp only [hrequests, hanswers, passed_some]
      by_cases hid : id = c.connId
      · simp only [hid]
        exact hone.1
      · simp only [if_neg hid, List.append_nil]
        exact h.past id
    · simp only [hrequests, hanswers, passed_some]
      simp only [ht] at hc'
      by_cases hfd : fd' = fd
      · rw [hfd, Function.update_self] at hc'
        have hsame := hserved.connId_eq hc'
        simp only [hsame]
        exact hone.2 c' hc'
      · rw [Function.update_of_ne hfd] at hc'
        have hother := (h.tracked.ids.connId_ne hstatus hc' hfd).symm
        simp only [if_neg hother, List.append_nil]
        exact h.wired fd' c' hc'
    · -- the number of an open connection was given
      have hgiven := h.tracked.ids.conn_le fd c hstatus
      rw [hconnId] at hid
      have hother : id ≠ c.connId := by omega
      simp only [hrequests, hanswers, passed_some]
      simp only [if_neg hother, List.append_nil]
      exact h.unused id hid
    · simp only [hanswers] at hr
      rcases List.mem_append.mp hr with hold | hnew
      · exact h.answers_le id resp hold
      · split at hnew
        · exact hle resp hnew
        · cases hnew

theorem WireInv.start : WireInv handler {} where
  tracked := .start
  placed := ⟨[], .refl _, nofun⟩
  small _ _ hc := by cases hc
  past _ := ⟨List.nil_prefix, List.nil_prefix⟩
  wired _ _ hc := by cases hc
  unused _ _ := ⟨rfl, rfl, rfl, rfl⟩
  answers_le _ _ hr := by cases hr

theorem wireInv_reachable (hfit : AnswersFit handler) (h : (wire handler).Reachable w) :
    WireInv handler w := by
  apply h.invariant
  · rintro w rfl
    exact .start
  · rintro w a v hinv ⟨hstep, hsmall⟩
    exact hinv.step hfit hstep hsmall

end Runs

/-! ## Runs with short output -/

/-- The bytes of all responses so far. -/
def ReactorState.answeredBytes (s : ReactorState) : Nat :=
  (s.responded.flatMap fun x => encode x.resp).length

section Short

variable {handler : List UInt8 → Option (List UInt8)} {w v : WireState}

theorem senddata_outbuffer_le {c c' : Connection} {resp taken : List UInt8}
    {script : List SendOutcome} {ok : Bool} (h : c.senddata resp script = some (c', taken, ok)) :
    c'.outbuffer.length ≤ c.outbuffer.length + (encode resp).length := by
  have hqueue : ∀ n, (c.queue ((encode resp).drop n)).outbuffer.length ≤
      c.outbuffer.length + (encode resp).length := by
    intro n
    simp only [Connection.queue, Connection.setEvent, List.length_append, List.length_drop]
    omega
  by_cases hout : c.outbuffer = []
  · -- along the `send` calls: only an interrupted one is made again
    induction script with
    | nil =>
      rw [Connection.senddata.eq_def] at h
      simp [hout] at h
    | cons o script ih =>
      rw [Connection.senddata_cons hout] at h
      split at h
      · cases h
        exact Nat.le_add_right _ _
      · split at h
        · cases o with
          | again =>
            cases h
            exact hqueue 0
          | intr => exact ih h
          | error =>
            cases h
            exact Nat.le_add_right _ _
          | accepted n => cases h
        · split at h <;> cases h
          exact hqueue _
  · rw [Connection.senddata_queued hout] at h
    cases h
    exact hqueue 0

/-- Nothing but responses is queued. -/
theorem Served.outbuffer_le {c d : Connection} {oc : Option Connection} {inb outb : List UInt8}
    {reqs resps : List (List UInt8)} (h : Served c inb outb reqs resps oc) (hd : oc = some d) :
    d.outbuffer.length ≤ c.outbuffer.length + (resps.flatMap encode).length := by
  have hends : ∀ {c' : Connection} (ok : Bool),
      c'.outbuffer.length ≤ c.outbuffer.length + (resps.flatMap encode).length →
      (if ok then some c' else none) = some d →
      d.outbuffer.length ≤ c.outbuffer.length + (resps.flatMap encode).length := by
    intro c' ok hle hc'
    cases ok <;> cases hc'
    exact hle
  cases h with
  | closed => cases hd
  | received o =>
    cases hd
    rw [(c.receive_output o).1]
    exact Nat.le_add_right _ _
  | submitted =>
    cases hd
    exact Nat.le_add_right _ _
  | eof =>
    refine hends _ ?_ hd
    rw [c.eofReturn_output.1]
    exact Nat.le_add_right _ _
  | returned ok => exact hends ok (Nat.le_add_right _ _) hd
  | written hcall =>
    refine hends _ ?_ hd
    unfold Connection.handwrite at hcall
    split at hcall
    · cases hcall
      exact Nat.le_add_right _ _
    · rcases (Connection.writeLoop_cases hcall).2 with ⟨idx, rfl, -⟩ | hsent
      · exact Nat.le_add_right _ _
      · have hnil := c.sentAll_fst.1
        rw [hsent] at hnil
        rw [hnil]
        exact Nat.zero_le _
  | @done c' resp taken script ok hcall =>
    refine hends _ ?_ hd
    obtain ⟨⟨d', taken', ok'⟩, hsend, heq⟩ := Option.map_eq_some_iff.mp hcall
    cases heq
    simpa using senddata_outbuffer_le hsend

/-- What is queued on a connection is a part of the responses. -/
def QueuedLe (s : ReactorState) : Prop :=
  ∀ fd c, s.status fd = some c → c.outbuffer.length ≤ s.answeredBytes

theorem queuedLe_step {a : Action} (h : QueuedLe w.reactor) (hstep : w.step handler a = some v) :
    QueuedLe v.reactor ∧ w.reactor.answeredBytes ≤ v.reactor.answeredBytes := by
  cases wireEffect_of_step hstep with
  | quiet hstatus _ _ hresponded =>
    simp only [QueuedLe, ReactorState.answeredBytes, hstatus, hresponded]
    exact ⟨h, le_rfl⟩
  | @accepted t fd hstatus _ _ hresponded =>
    simp only [QueuedLe, ReactorState.answeredBytes, hstatus, hresponded]
    refine ⟨fun fd' c' hc' => ?_, le_rfl⟩
    by_cases hfd : fd' = fd
    · rw [hfd, Function.update_self] at hc'
      cases hc'
      exact Nat.zero_le _
    · rw [Function.update_of_ne hfd] at hc'
      exact h fd' c' hc'
  | @served t fd c oc inb outb reqs resps hstatus ht _ _ _ hresponded _ hserved =>
    have hbytes : t.answeredBytes = w.reactor.answeredBytes +
        ((resps.map Response.resp).flatMap encode).length := by
      rw [ReactorState.answeredBytes, ReactorState.answeredBytes, hresponded, List.flatMap_append,
        List.length_append, List.flatMap_map]
    refine ⟨fun fd' c' hc' => ?_, by simp only [hbytes]; omega⟩
    simp only [ht] at hc'
    simp only [hbytes]
    by_cases hfd : fd' = fd
    · rw [hfd, Function.update_self] at hc'
      have hle := hserved.outbuffer_le hc'
      have hbefore := h fd c hstatus
      omega
    · rw [Function.update_of_ne hfd] at hc'
      have hbefore := h fd' c' hc'
      omega

theorem QueuedLe.small {s : ReactorState} (h : QueuedLe s) (hshort : s.answeredBytes < 2 ^ 31) :
    BuffersSmall s := fun fd c hc => (h fd c hc).trans_lt hshort

/-- Where all responses together stay below `2 ^ 31` bytes, so did every output buffer. -/
theorem wire_of_run {as : List Action} (hrun : as.foldlM (WireState.step handler) {} = some w)
    (hshort : w.reactor.answeredBytes < 2 ^ 31) : (wire handler).Reachable w := by
  have hgrows : ∀ (w : WireState) (a : Action) (v : WireState), QueuedLe w.reactor →
      w.step handler a = some v →
      QueuedLe v.reactor ∧ w.reactor.answeredBytes ≤ v.reactor.answeredBytes :=
    fun _ _ _ => queuedLe_step
  have hstart : QueuedLe ({} : WireState).reactor := fun _ _ hc => by cases hc
  exact TransitionSystem.Reachable.foldlM_lt (T := wire handler) hgrows
    (fun w a v hstep hqueued hlt => ⟨hstep, hqueued.small hlt⟩) (.of_init rfl) hstart hrun hshort

end Short

section Output

variable {handler : List UInt8 → Option (List UInt8)} {w : WireState}

/-- Encoded messages within the limit are read back. -/
theorem parse_encoded {msgs : List (List UInt8)} (h : ∀ m ∈ msgs, m.length ≤ 1048576) :
    framing.parse (msgs.flatMap encode) = ⟨msgs, false, []⟩ := by
  have hnil : framing.parse [] = ⟨[], false, []⟩ := framing.parse_of_more rfl
  have hparse := framing.parse_flatMap (fun m hm ys => framing_encode (h m hm) ys) []
  rwa [List.append_nil, hnil, List.append_nil] at hparse

/-- The front of encoded messages is read as the first of them. -/
theorem parse_front {msgs : List (List UInt8)} (h : ∀ m ∈ msgs, m.length ≤ 1048576)
    {bs : List UInt8} (hfront : bs <+: msgs.flatMap encode) :
    (framing.parse bs).broken = false ∧ (framing.parse bs).items <+: msgs := by
  obtain ⟨rest, hrest⟩ := hfront
  have hall := parse_encoded h
  rw [← hrest] at hall
  refine ⟨framing.broken_of_append (congrArg Parsed.broken hall), ?_⟩
  have hprefix := framing.items_prefix_append bs rest
  rwa [hall] at hprefix

/-- The answer to a request, where it came on this connection. -/
def answerOn (handler : List UInt8 → Option (List UInt8)) (id : Nat) (r : Request) :
    Option (List UInt8) :=
  if r.id = id then handler r.msg else none

/-- The answers to all requests of a connection are those given and those to the requests
that have still to be answered or found the connection closed. -/
theorem requests_perm (h : WireInv handler w) (id : Nat) :
    ((w.reactor.requests id).filterMap handler).Perm
      (w.reactor.answers id ++
        (w.reactor.pending ++ w.reactor.held ++ w.reactor.dropped).filterMap
          (answerOn handler id)) := by
  obtain ⟨thrown, hperm, hthrown⟩ := h.placed
  have hrequests : (w.reactor.requests id).filterMap handler =
      w.reactor.decoded.filterMap (answerOn handler id) := by
    rw [ReactorState.requests, List.filterMap_map, List.filterMap_filter]
    refine List.filterMap_congr fun r _ => ?_
    simp [answerOn]
  have hnone : thrown.filterMap (answerOn handler id) = [] := by
    refine List.filterMap_eq_nil_iff.mpr fun r hr => ?_
    simp [answerOn, hthrown r hr]
  -- each response is what its request makes
  have hanswers : (w.reactor.responded.map Response.req).filterMap (answerOn handler id) =
      w.reactor.answers id := by
    rw [ReactorState.answers, List.filterMap_map, ← List.filterMap_eq_map, List.filterMap_filter]
    refine List.filterMap_congr fun x hx => ?_
    obtain ⟨hid, hresp⟩ := h.tracked.delivered.responded_ok x hx
    simp [answerOn, hid, hresp]
  rw [hrequests, ← hanswers]
  have hall := hperm.filterMap (answerOn handler id)
  rw [ReactorState.places, List.filterMap_append, hnone, List.append_nil] at hall
  refine hall.trans ?_
  simp only [List.filterMap_append, List.append_assoc]
  refine List.perm_iff_count.mpr fun resp => ?_
  simp only [List.count_append]
  omega

/-- The responses on a connection are the handler's, each to a request of its own. -/
theorem answers_subperm (h : WireInv handler w) (id : Nat) :
    (w.reactor.answers id).Subperm ((w.reactor.requests id).filterMap handler) := by
  rw [(requests_perm h id).subperm_left]
  exact (List.sublist_append_left _ _).subperm

/-- What was sent on a connection reads as responses to messages on its input. -/
theorem sent_subperm (h : WireInv handler w) (id : Nat) :
    (framing.parse (w.sent id)).broken = false ∧
      (framing.parse (w.sent id)).items.Subperm
        ((framing.parse (w.received id)).items.filterMap handler) := by
  obtain ⟨hreqs, hsent⟩ := h.past id
  obtain ⟨hunbroken, hitems⟩ := parse_front (h.answers_le id) hsent
  refine ⟨hunbroken, hitems.sublist.subperm.trans ((answers_subperm h id).trans ?_)⟩
  exact (hreqs.sublist.filterMap handler).subperm

/-- Whatever the server has been through, what the kernel took of its output on a connection
reads as whole messages, without a break, and these are responses to messages that stand on
the connection's input, each for one. -/
theorem served_subperm (hfit : AnswersFit handler) (h : (wire handler).Reachable w) (id : Nat) :
    (framing.parse (w.sent id)).broken = false ∧
      (framing.parse (w.sent id)).items.Subperm
        ((framing.parse (w.received id)).items.filterMap handler) :=
  sent_subperm (wireInv_reachable hfit h) id

/-- A handler that throws on one of two requests; the answer to the other is sent in part. -/
theorem served_subperm_throws :
    let handler : List UInt8 → Option (List UInt8) :=
      fun msg => if msg = [9] then none else some msg
    ∃ w : WireState, w.received 1 = [[9], [7]].flatMap encode ∧ w.sent 1 = [0, 0] ∧
      (framing.parse (w.sent 1)).broken = false ∧
      (framing.parse (w.sent 1)).items.Subperm
        ((framing.parse (w.received 1)).items.filterMap handler) := by
  intro handler
  let as : List Action := [.accept 5, .event 5 { epollin := true } [],
    .recv (.data [0, 0, 0, 1, 9, 0, 0]), .submit, .endTurn, .recv (.data [0, 1, 7]), .submit,
    .endTurn, .recv .again, .endTurn, .take, .take, .complete 0, .complete 0, .drain,
    .deliver [.intr, .accepted 2], .endTurn]
  have hrun : (as.foldlM (WireState.step handler) {}).any (fun w =>
      w.reactor.answeredBytes < 2 ^ 31 ∧ w.received 1 = [[9], [7]].flatMap encode ∧
      w.sent 1 = [0, 0]) = true := by
    decide +kernel
  obtain ⟨w, hlast, hend⟩ := (Option.any_eq_true _ _).mp hrun
  obtain ⟨hshort, hreceived, hsent⟩ := of_decide_eq_true hend
  have hfit : AnswersFit handler := by
    intro msg resp hlen heq
    simp only [handler, Option.ite_none_left_eq_some, Option.some.injEq] at heq
    rw [← heq.2]
    exact hlen
  exact ⟨w, hreceived, hsent, served_subperm hfit (wire_of_run hlast hshort) 1⟩

/-- Where the server holds no request any more and is idle, the output of an open connection
of which the buffer is empty and the input not broken is the responses to all messages on
its input. -/
theorem sent_perm (h : WireInv handler w) {fd : Nat} {c : Connection}
    (hopen : w.reactor.status fd = some c) (hpending : w.reactor.pending = [])
    (hheld : w.reactor.held = []) (hout : c.outbuffer = [])
    (hinput : (framing.parse (w.received c.connId)).broken = false) :
    (framing.parse (w.sent c.connId)).rest = [] ∧
      (framing.parse (w.sent c.connId)).items.Perm
        ((framing.parse (w.received c.connId)).items.filterMap handler) := by
  have hwired := h.wired fd c hopen
  -- everything is sent
  have hsent : w.sent c.connId = (w.reactor.answers c.connId).flatMap encode := by
    rw [← hwired.bytes_eq, Connection.unsent_of_nil hout, List.append_nil]
  have hparse := parse_encoded (h.answers_le c.connId)
  rw [← hsent] at hparse
  refine ⟨by rw [hparse], ?_⟩
  rw [hparse]
  -- everything on the input is decoded
  have herr : c.decoder.error = false := by rw [hwired.submits.error_eq, hinput]
  rw [← hwired.submits.submitted_eq herr]
  -- and everything decoded is answered
  have hdropped : w.reactor.dropped.filterMap (answerOn handler c.connId) = [] := by
    refine List.filterMap_eq_nil_iff.mpr fun r hr => ?_
    have hclosed := h.tracked.ids.dropped_closed r hr fd c hopen
    exact if_neg hclosed.symm
  have hall := requests_perm h c.connId
  rw [hpending, hheld, List.nil_append, List.nil_append, hdropped, List.append_nil] at hall
  exact hall.symm

end Output

end ServiceInfra.Reactor
