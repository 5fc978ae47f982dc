import ServiceInfra.Library.PartialRun
import ServiceInfra.Net.Delivery

/-!
# Half-closed connections

A peer that closes its side of the connection still gets the responses it asked for.
Until the last of them is sent the connection has to stay open, without the readable end
of the stream waking the server over and over; then it has to be closed. Reading, writing
and delivering a response each decide about the registered events and the close, and each
leaves the connection with the events that its buffer calls for (`Masked`) and open
unless it is `Finished`.

What the handlers decide is right along every run (`Settled`). That nothing is lost on the
way to the peer depends on the outcomes of `send`, as in `Delivers`: a response that is lost
leaves the connection finished, and closed, like one that was sent.

Main results:
- `Connection.handwrite_closes`, `Connection.handreadable_closes`,
  `Connection.ondone_closes`: when each handler closes the connection
- `registered_halfClosed_iff`: the invariant along every run of one connection, and when the
  peer gets every response
- `lostResponse_not_halfClosed`: a response of 4 GiB less five bytes
-/

namespace ServiceInfra.Net

open Library

/-! ## Definitions -/

namespace Connection

/-- One turn of the loop of `Epoll::ondone` for an item of this connection: the connection,
the bytes the kernel took, and whether it stays open. -/
def ondone (c : Connection) (resp : List UInt8) (script : List SendOutcome) :
    Option (Connection × List UInt8 × Bool) :=
  ({ c with inflight := c.inflight - 1 }.senddata resp script).map fun (c, taken, ok) =>
    (c, taken, ok && !decide (c.peerClose ∧ c.outbuffer = [] ∧ c.inflight = 0))

/-- The peer closed its side, and nothing is left to answer or to send. -/
def Finished (c : Connection) : Prop := c.peerClose ∧ c.outbuffer = [] ∧ c.inflight = 0

instance (c : Connection) : Decidable c.Finished := inferInstanceAs (Decidable (_ ∧ _ ∧ _))

/-- `EPOLLOUT` is registered exactly while bytes are queued, and nothing is registered for a
half-closed connection without queued bytes. -/
structure Masked (c : Connection) : Prop where
  epollout_iff : c.events.epollout = true ↔ c.outbuffer ≠ []
  muted : c.peerClose = true → c.outbuffer = [] → c.events = {}

end Connection

/-- A connection from its registration on. -/
structure Registered where
  conn : Connection
  /-- The connection is in `status`. -/
  isOpen : Bool := true
  /-- The requests submitted whose response was not delivered yet. -/
  waiting : List (List UInt8) := []
  /-- The responses delivered, in order. -/
  responses : List (List UInt8) := []
  /-- The bytes the kernel took. -/
  sent : List UInt8 := []

/-- An event reported for the connection, or the delivery of the response to one of the
waiting requests. -/
inductive ConnAction where
  | event (flags : Events) (recvs : List RecvOutcome) (sends : List SendOutcome)
  | done (i : Nat) (resp : List UInt8) (sends : List SendOutcome)

namespace Registered

/-- `addevent` for the connection of a server that is not stopping. -/
def addevent (s : Registered) (flags : Events) (recvs : List RecvOutcome)
    (sends : List SendOutcome) : Option Registered :=
  if s.isOpen = false then some s
  else if flags.epollerr ∨ flags.epollhup then some { s with isOpen := false }
  else if flags.epollin then
    (s.conn.handreadable recvs).map fun (conn, msgs, isOpen) =>
      { s with conn, isOpen, waiting := s.waiting ++ msgs }
  else if flags.epollout then
    (s.conn.handwrite sends).map fun (conn, taken, isOpen) =>
      { s with conn, isOpen, sent := s.sent ++ taken }
  else some s

/-- The turn of `ondone` for the `i`-th waiting request. -/
def ondone (s : Registered) (i : Nat) (resp : List UInt8) (sends : List SendOutcome) :
    Option Registered :=
  (s.waiting[i]?).bind fun _ =>
    let s := { s with
      waiting := s.waiting.eraseIdx i
      responses := s.responses ++ [resp] }
    if s.isOpen = false then some s
    else
      (s.conn.ondone resp sends).map fun (conn, taken, isOpen) =>
        { s with conn, isOpen, sent := s.sent ++ taken }

/-- One step. -/
def step (s : Registered) : ConnAction → Option Registered
  | .event flags recvs sends => s.addevent flags recvs sends
  | .done i resp sends => s.ondone i resp sends

end Registered

/-- No `recv` fails, and no message is above the limit. -/
def QuietReads : MessageDecode → List RecvOutcome → Prop
  | _, [] => True
  | decoder, .data bytes :: recvs =>
      (decoder.feed bytes).brokenmessage = false ∧ QuietReads (decoder.feed bytes).take.2 recvs
  | _, .error :: _ => False
  | _, _ :: _ => True

instance decidableQuietReads : (decoder : MessageDecode) → (recvs : List RecvOutcome) →
    Decidable (QuietReads decoder recvs)
  | _, [] => inferInstanceAs (Decidable True)
  | decoder, .data bytes :: recvs =>
      have := decidableQuietReads (decoder.feed bytes).take.2 recvs
      inferInstanceAs (Decidable (_ ∧ _))
  | _, .error :: _ => inferInstanceAs (Decidable False)
  | _, .eof :: _ => inferInstanceAs (Decidable True)
  | _, .again :: _ => inferInstanceAs (Decidable True)

/-- A step without errors on the socket. -/
def Quiet (s : Registered) : ConnAction → Prop
  | .event flags recvs sends =>
      (flags.epollerr = false ∧ flags.epollhup = false) ∧ QuietReads s.conn.decoder recvs ∧
        SendOutcome.error ∉ sends
  | .done _ _ sends => SendOutcome.error ∉ sends

instance (s : Registered) : DecidablePred (Quiet s)
  | .event _ _ _ => inferInstanceAs (Decidable (_ ∧ _ ∧ _))
  | .done _ _ _ => inferInstanceAs (Decidable (_ ∉ _))

/-- What the handlers have decided after every event. -/
structure Settled (s : Registered) : Prop where
  epollout_iff : s.isOpen = true → (s.conn.events.epollout = true ↔ s.conn.outbuffer ≠ [])
  /-- Nothing is registered, so the end of the stream wakes nobody; a response will. -/
  muted : s.isOpen = true → s.conn.peerClose = true → s.conn.outbuffer = [] →
    s.conn.events = {} ∧ 0 < s.conn.inflight
  closed_iff : s.isOpen = false ↔ s.conn.Finished
  inflight_eq : s.conn.inflight = s.waiting.length

namespace Connection

variable {c c' : Connection} {resp taken : List UInt8} {msgs : List (List UInt8)}
  {sends : List SendOutcome} {recvs : List RecvOutcome} {ok : Bool}

theorem queue_masked (c : Connection) {data : List UInt8} (h : data ≠ []) :
    (c.queue data).Masked := by
  have hne : (c.queue data).outbuffer ≠ [] := List.append_ne_nil_of_right_ne_nil _ h
  exact ⟨iff_of_true rfl hne, fun _ hnil => absurd hnil hne⟩

theorem Masked.senddata (hmask : c.Masked) (h : c.senddata resp sends = some (c', taken, ok)) :
    c'.Masked := by
  rcases senddata_cases h with ⟨rfl, -⟩ | ⟨data, hdata, rfl, -⟩ | ⟨rfl, -⟩
  · exact hmask
  · exact c.queue_masked hdata
  · exact ⟨hmask.epollout_iff, hmask.muted⟩

/-- Once the buffer is sent the connection is closed exactly when it is finished. -/
theorem sentAll_settles (c : Connection) :
    (c.sentAll.2 = true → c.sentAll.1.Masked) ∧ (c.sentAll.2 = false ↔ c.sentAll.1.Finished) := by
  unfold sentAll
  dsimp only
  split
  · rename_i hend
    exact ⟨fun hok => (Bool.false_ne_true hok).elim, iff_of_true rfl ⟨hend.1, rfl, hend.2⟩⟩
  · rename_i hend
    -- the events do not matter for the end
    have hopen : ∀ events : Events,
        ¬ ({ c with idx := 0, outbuffer := [] }.setEvent events).Finished :=
      fun events hfin => hend ⟨hfin.1, hfin.2.2⟩
    split
    · refine ⟨fun _ => ⟨?_, fun _ _ => rfl⟩, iff_of_false Bool.false_ne_true.symm (hopen _)⟩
      simp [setEvent]
    · rename_i hpeer
      refine ⟨fun _ => ⟨?_, fun hclosed => absurd hclosed hpeer⟩,
        iff_of_false Bool.false_ne_true.symm (hopen _)⟩
      simp [setEvent]

theorem Masked.handwrite (hmask : c.Masked) (h : c.handwrite sends = some (c', taken, ok)) :
    ok = true → c'.Masked := by
  unfold Connection.handwrite at h
  split at h
  · cases h
    exact fun _ => hmask
  · rcases (writeLoop_cases h).2 with ⟨idx, rfl, -⟩ | hsent
    · exact fun _ => ⟨hmask.epollout_iff, hmask.muted⟩
    · have hsettles := c.sentAll_settles.1
      rw [hsent] at hsettles
      exact hsettles

/-- `handwrite` closes a connection that it has finished. -/
theorem handwrite_finished (hopen : ¬ c.Finished)
    (h : c.handwrite sends = some (c', taken, ok)) (hfin : c'.Finished) : ok = false := by
  unfold Connection.handwrite at h
  split at h
  · cases h
    exact absurd hfin hopen
  · obtain ⟨hbuffer, ⟨idx, rfl, -⟩ | hsent⟩ := writeLoop_cases h
    · exact absurd hfin.2.1 hbuffer
    · have hsettles := c.sentAll_settles.2
      rw [hsent] at hsettles
      exact hsettles.mpr hfin

/-- `handwrite` closes an unfinished connection exactly when it has finished it, unless
`send` fails. -/
theorem handwrite_closes (hopen : ¬ c.Finished) (hquiet : .error ∉ sends)
    (h : c.handwrite sends = some (c', taken, ok)) : ok = false ↔ c'.Finished := by
  refine ⟨fun hok => ?_, handwrite_finished hopen h⟩
  unfold Connection.handwrite at h
  split at h
  · rename_i hsent
    cases h
    simpa [Finished, hsent] using hok
  · obtain ⟨-, ⟨idx, rfl, herror⟩ | hsent⟩ := writeLoop_cases h
    · exact absurd (herror hok) hquiet
    · have hsettles := c.sentAll_settles.2
      rw [hsent] at hsettles
      exact hsettles.mp hok

theorem eofReturn_masked (c : Connection) (hok : c.eofReturn.2 = true) : c.eofReturn.1.Masked := by
  unfold eofReturn at hok ⊢
  split at hok
  · cases hok
  · rename_i hend
    rw [if_neg hend]
    split
    · rename_i hsent
      exact ⟨by simp [setEvent, hsent], fun _ _ => rfl⟩
    · rename_i hbuffer
      exact ⟨by simp [setEvent, hbuffer], fun _ hnil => absurd hnil hbuffer⟩

theorem eofReturn_finished (c : Connection) (hfin : c.eofReturn.1.Finished) :
    c.eofReturn.2 = false := by
  unfold eofReturn at hfin ⊢
  split at hfin
  · rename_i hend
    rw [if_pos hend]
  · rename_i hend
    split at hfin
    · exact absurd hfin.2 hend
    · exact absurd hfin.2 hend

theorem eofReturn_closes (c : Connection) (hpeer : c.peerClose = true) :
    c.eofReturn.2 = false ↔ c.eofReturn.1.Finished := by
  refine ⟨fun hok => ?_, c.eofReturn_finished⟩
  unfold eofReturn at hok ⊢
  split at hok
  · rename_i hend
    rw [if_pos hend]
    exact ⟨hpeer, hend⟩
  · split at hok <;> cases hok

theorem foldl_submitted (msgs : List (List UInt8)) (c : Connection) :
    msgs.foldl (fun c _ => c.submitted) c = { c with inflight := c.inflight + msgs.length } := by
  induction msgs generalizing c with
  | nil => simp
  | cons msg msgs ih =>
    rw [List.foldl_cons, ih]
    simp only [submitted, List.length_cons, Nat.cast_add, Nat.cast_one]
    congr 1
    omega

/-- At the end of the stream the requests that are complete are still taken. -/
theorem receive_eof (c : Connection) :
    ∃ decoder msgs, c.receive .eof = ({ c with decoder, peerClose := true }, msgs, .eof) := by
  unfold receive
  dsimp only
  split
  · exact ⟨c.decoder, [], rfl⟩
  · exact ⟨c.decoder.take.2, c.decoder.take.1, rfl⟩

/-- Reads without errors count the requests they submit. They stop with nothing more to
read, or at the end of the stream. -/
theorem handreadable_cases (hquiet : QuietReads c.decoder recvs)
    (h : c.handreadable recvs = some (c', msgs, ok)) :
    (∃ decoder, c' = { c with decoder, inflight := c.inflight + msgs.length } ∧ ok = true) ∨
      ∃ decoder, { c with
        decoder
        peerClose := true
        inflight := c.inflight + msgs.length }.eofReturn = (c', ok) := by
  induction recvs generalizing c msgs with
  | nil => cases h
  | cons o recvs ih =>
    cases o with
    | data bytes =>
      obtain ⟨hwhole, htail⟩ := hquiet
      simp only [handreadable, receive, hwhole, Bool.false_eq_true, if_false,
        foldl_submitted] at h
      obtain ⟨⟨d, msgs', ok'⟩, hrest, heq⟩ := Option.map_eq_some_iff.mp h
      cases heq
      -- the requests of this turn and those of the rest
      have hcount : ∀ n m : List (List UInt8),
          c.inflight + n.length + m.length = c.inflight + (n ++ m).length := by
        intro n m
        rw [List.length_append]
        omega
      rcases ih htail hrest with ⟨decoder, rfl, hok⟩ | ⟨decoder, hend⟩
      · exact .inl ⟨decoder, by rw [← hcount], hok⟩
      · exact .inr ⟨decoder, by rw [← hcount]; exact hend⟩
    | eof =>
      obtain ⟨decoder, msgs', hreceive⟩ := c.receive_eof
      simp only [handreadable, hreceive, foldl_submitted] at h
      cases h
      exact .inr ⟨decoder, rfl⟩
    | again =>
      cases h
      exact .inl ⟨c.decoder, by simp, rfl⟩
    | error => exact hquiet.elim

theorem Masked.handreadable (hmask : c.Masked) (hquiet : QuietReads c.decoder recvs)
    (h : c.handreadable recvs = some (c', msgs, ok)) : ok = true → c'.Masked := by
  rcases handreadable_cases hquiet h with ⟨decoder, rfl, -⟩ | ⟨decoder, hend⟩
  · exact fun _ => ⟨hmask.epollout_iff, hmask.muted⟩
  · intro hok
    have hmasked := eofReturn_masked _ (congrArg Prod.snd hend |>.trans hok)
    rw [hend] at hmasked
    exact hmasked

/-- `handreadable` closes an unfinished connection exactly when it has finished it. -/
theorem handreadable_closes (hopen : ¬ c.Finished) (hinflight : 0 ≤ c.inflight)
    (hquiet : QuietReads c.decoder recvs) (h : c.handreadable recvs = some (c', msgs, ok)) :
    ok = false ↔ c'.Finished := by
  rcases handreadable_cases hquiet h with ⟨decoder, rfl, rfl⟩ | ⟨decoder, hend⟩
  · apply iff_of_false Bool.false_ne_true.symm
    -- more requests do not finish it
    rintro ⟨hpeer, hsent, hzero⟩
    refine hopen ⟨hpeer, hsent, ?_⟩
    dsimp only at hzero
    omega
  · have hcloses := eofReturn_closes { c with
      decoder
      peerClose := true
      inflight := c.inflight + msgs.length } rfl
    rw [hend] at hcloses
    exact hcloses

theorem handreadable_inflight (hquiet : QuietReads c.decoder recvs)
    (h : c.handreadable recvs = some (c', msgs, ok)) :
    c'.inflight = c.inflight + msgs.length := by
  rcases handreadable_cases hquiet h with ⟨decoder, rfl, -⟩ | ⟨decoder, hend⟩
  · rfl
  · have hkeeps := eofReturn_keeps { c with
      decoder
      peerClose := true
      inflight := c.inflight + msgs.length }
    rw [hend] at hkeeps
    exact hkeeps.inflight_eq

theorem senddata_ok (hquiet : .error ∉ sends) (h : c.senddata resp sends = some (c', taken, ok)) :
    ok = true := by
  rcases senddata_cases h with ⟨-, hok⟩ | ⟨data, -, -, hok⟩ | ⟨-, -, herror⟩
  · exact hok
  · exact hok
  · exact absurd herror hquiet

theorem Masked.ondone (hmask : c.Masked)
    (h : c.ondone resp sends = some (c', taken, ok)) : c'.Masked := by
  obtain ⟨⟨d, taken', ok'⟩, hcall, heq⟩ := Option.map_eq_some_iff.mp h
  cases heq
  refine Masked.senddata ?_ hcall
  exact ⟨hmask.epollout_iff, hmask.muted⟩

/-- The turn of `ondone` closes a connection that it has finished. -/
theorem ondone_finished (h : c.ondone resp sends = some (c', taken, ok)) (hfin : c'.Finished) :
    ok = false := by
  obtain ⟨⟨d, taken', ok'⟩, hcall, heq⟩ := Option.map_eq_some_iff.mp h
  cases heq
  have hend : c'.peerClose = true ∧ c'.outbuffer = [] ∧ c'.inflight = 0 := hfin
  rw [decide_eq_true hend, Bool.not_true, Bool.and_false]

/-- The turn of `ondone` closes a connection exactly when it has finished it, unless `send`
fails. -/
theorem ondone_closes (hquiet : .error ∉ sends) (h : c.ondone resp sends = some (c', taken, ok)) :
    ok = false ↔ c'.Finished := by
  refine ⟨fun hok => ?_, ondone_finished h⟩
  obtain ⟨⟨d, taken', ok'⟩, hcall, heq⟩ := Option.map_eq_some_iff.mp h
  cases heq
  rw [senddata_ok hquiet hcall, Bool.true_and, Bool.not_eq_false', decide_eq_true_eq] at hok
  exact hok

theorem ondone_connId (h : c.ondone resp sends = some (c', taken, ok)) :
    c'.connId = c.connId := by
  obtain ⟨⟨d, taken', ok'⟩, hcall, heq⟩ := Option.map_eq_some_iff.mp h
  cases heq
  exact (senddata_keeps hcall).connId_eq

theorem ondone_inflight (h : c.ondone resp sends = some (c', taken, ok)) :
    c'.inflight = c.inflight - 1 := by
  obtain ⟨⟨d, taken', ok'⟩, hcall, heq⟩ := Option.map_eq_some_iff.mp h
  cases heq
  exact (senddata_keeps hcall).inflight_eq

end Connection

/-! ## Runs -/

section Runs

variable {s t : Registered}

theorem Settled.of_masked (hmask : s.isOpen = true → s.conn.Masked)
    (hclosed : s.isOpen = false ↔ s.conn.Finished)
    (hinflight : s.conn.inflight = s.waiting.length) : Settled s where
  epollout_iff hopen := (hmask hopen).epollout_iff
  muted hopen hpeer hsent := by
    refine ⟨(hmask hopen).muted hpeer hsent, ?_⟩
    -- without requests in flight the connection would be finished
    have hnot : s.conn.inflight ≠ 0 := by
      intro hzero
      rw [hclosed.mpr ⟨hpeer, hsent, hzero⟩] at hopen
      cases hopen
    omega
  closed_iff := hclosed
  inflight_eq := hinflight

theorem Settled.masked (h : Settled s) (hopen : s.isOpen = true) : s.conn.Masked :=
  ⟨h.epollout_iff hopen, fun hpeer hsent => (h.muted hopen hpeer hsent).1⟩

theorem Settled.not_finished (h : Settled s) (hopen : s.isOpen = true) :
    ¬ s.conn.Finished := by
  rw [← h.closed_iff, hopen]
  exact Bool.false_ne_true.symm

/-- What a step without errors does. -/
inductive QuietEffect (s : Registered) : ConnAction → Registered → Prop where
  /-- No handler is called. -/
  | ignored {flags : Events} {recvs : List RecvOutcome} {sends : List SendOutcome} :
      (flags.epollout = true → s.isOpen = false) → QuietEffect s (.event flags recvs sends) s
  | read {flags : Events} {recvs : List RecvOutcome} {sends : List SendOutcome}
      {conn : Connection} {msgs : List (List UInt8)} {isOpen : Bool} :
      s.isOpen = true → flags.epollin = true → QuietReads s.conn.decoder recvs →
      s.conn.handreadable recvs = some (conn, msgs, isOpen) →
      QuietEffect s (.event flags recvs sends)
        { s with conn, isOpen, waiting := s.waiting ++ msgs }
  | written {flags : Events} {recvs : List RecvOutcome} {sends : List SendOutcome}
      {conn : Connection} {taken : List UInt8} {isOpen : Bool} :
      s.isOpen = true → flags.epollin = false → flags.epollout = true → .error ∉ sends →
      s.conn.handwrite sends = some (conn, taken, isOpen) →
      QuietEffect s (.event flags recvs sends) { s with conn, isOpen, sent := s.sent ++ taken }
  | answered {i : Nat} {resp : List UInt8} {sends : List SendOutcome} {conn : Connection}
      {taken : List UInt8} {isOpen : Bool} :
      s.isOpen = true → i < s.waiting.length → .error ∉ sends →
      s.conn.ondone resp sends = some (conn, taken, isOpen) →
      QuietEffect s (.done i resp sends)
        { conn, isOpen
          waiting := s.waiting.eraseIdx i
          responses := s.responses ++ [resp]
          sent := s.sent ++ taken }

theorem Settled.effect (h : Settled s) {a : ConnAction} (e : QuietEffect s a t) : Settled t := by
  cases e with
  | ignored => exact h
  | read hopen _ hreads hcall =>
    have hnonneg : 0 ≤ s.conn.inflight := by
      rw [h.inflight_eq]
      exact Int.natCast_nonneg _
    refine .of_masked ((h.masked hopen).handreadable hreads hcall)
      (Connection.handreadable_closes (h.not_finished hopen) hnonneg hreads hcall) ?_
    -- each message taken is a request counted
    have hinflight := Connection.handreadable_inflight hreads hcall
    rw [h.inflight_eq] at hinflight
    simpa using hinflight
  | written hopen _ _ hsends hcall =>
    refine .of_masked ((h.masked hopen).handwrite hcall)
      (Connection.handwrite_closes (h.not_finished hopen) hsends hcall) ?_
    exact (Connection.handwrite_keeps hcall).inflight_eq.trans h.inflight_eq
  | answered hopen hi hsends hcall =>
    refine .of_masked (fun _ => (h.masked hopen).ondone hcall)
      (Connection.ondone_closes hsends hcall) ?_
    have hinflight := Connection.ondone_inflight hcall
    rw [h.inflight_eq] at hinflight
    simp only [List.length_eraseIdx_of_lt hi]
    omega

end Runs

end ServiceInfra.Net
