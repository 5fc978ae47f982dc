import ServiceInfra.Net.Decoding
import ServiceInfra.Net.HalfClose
import ServiceInfra.Library.TransitionSystem

/-!
# The requests of a connection

What `handreadable` submits over all its calls, against the plain parse of the bytes that
its `recv` calls returned. Each turn of its loop gives one chunk to the decoder and hands
over what that completes; a turn that finds a length above the limit hands over nothing and
ends the call. Between the calls the connection is written to and responses are delivered,
neither of which touches the decoder.

Main results:
- `Submits.receive`: what one `recv` adds to the requests
- `Submits.handreadable`: what one call adds
- `submitted_eq_parse`: the requests of every run are those of the parse
-/

namespace ServiceInfra.Net

open Library

/-! ## Runs of one connection -/

/-- The bytes that one `recv` returns. -/
def RecvOutcome.bytes : RecvOutcome → List UInt8
  | .data bytes => bytes
  | _ => []

/-- The bytes that the `recv` calls of one `handreadable` return. -/
def Connection.recvBytes (c : Connection) : List RecvOutcome → List UInt8
  | [] => []
  | o :: script =>
      let (c, msgs, next) := c.receive o
      let c := msgs.foldl (fun c _ => c.submitted) c
      match next with
      | .again => o.bytes ++ c.recvBytes script
      | _ => o.bytes

/-- A connection with what it has received and what it has submitted. -/
structure ReadRun where
  conn : Connection
  received : List UInt8 := []
  submitted : List (List UInt8) := []
  deriving DecidableEq, Repr

/-- What is done with a connection. -/
inductive ReadOp where
  | handreadable (recvs : List RecvOutcome)
  | handwrite (sends : List SendOutcome)
  /-- A response is delivered. -/
  | ondone (resp : List UInt8) (sends : List SendOutcome)

/-- One operation. -/
def ReadRun.step (s : ReadRun) : ReadOp → Option ReadRun
  | .handreadable recvs =>
      (s.conn.handreadable recvs).map fun (conn, msgs, _) =>
        { conn
          received := s.received ++ s.conn.recvBytes recvs
          submitted := s.submitted ++ msgs }
  | .handwrite sends => (s.conn.handwrite sends).map fun (conn, _, _) => { s with conn }
  | .ondone resp sends => (s.conn.ondone resp sends).map fun (conn, _, _) => { s with conn }

/-- Any operations on an accepted connection. -/
def readSystem : TransitionSystem ReadRun ReadOp where
  init s := ∃ connId, s = { conn := { connId } }
  step s op t := s.step op = some t

/-! ## The invariant -/

/-- The requests submitted are those of the bytes received: all of them while the stream is
unbroken, and after that those that were complete before the chunk that broke it. -/
structure Submits (received : List UInt8) (decoder : MessageDecode)
    (submitted : List (List UInt8)) : Prop where
  simulates : MessageDecode.Simulates received ⟨decoder, submitted⟩
  msg_eq_nil : decoder.error = false → decoder.msg = []
  broken_at : decoder.error = true → ∃ before chunk after, received = before ++ chunk ++ after ∧
    (framing.parse before).broken = false ∧ (framing.parse (before ++ chunk)).broken = true ∧
    submitted = (framing.parse before).items

namespace Submits

variable {received : List UInt8} {decoder : MessageDecode} {submitted : List (List UInt8)}

theorem fresh : Submits [] {} [] :=
  ⟨MessageDecode.simulates_fresh, fun _ => rfl, fun h => absurd h Bool.false_ne_true⟩

theorem error_eq (h : Submits received decoder submitted) :
    decoder.error = (framing.parse received).broken := h.simulates.error_eq

/-- An unbroken stream has all its requests submitted. -/
theorem submitted_eq (h : Submits received decoder submitted) (herr : decoder.error = false) :
    submitted = (framing.parse received).items := by
  have hdelivered := h.simulates.delivered_eq
  simpa [MessageDecode.Session.delivered, MessageDecode.take, h.msg_eq_nil herr] using hdelivered

/-- A chunk is fed and what it completes is taken. -/
theorem feed_take (h : Submits received decoder submitted) {data : List UInt8}
    (herr : (decoder.feed data).error = false) :
    Submits (received ++ data) (decoder.feed data).take.2
      (submitted ++ (decoder.feed data).take.1) := by
  refine ⟨(h.simulates.feed data).take, fun _ => rfl, fun hbroken => ?_⟩
  exact absurd (herr.symm.trans hbroken) Bool.false_ne_true

/-- A chunk breaks the stream, or comes after it broke. -/
theorem feed_broken (h : Submits received decoder submitted) {data : List UInt8}
    (herr : (decoder.feed data).error = true) :
    Submits (received ++ data) (decoder.feed data) submitted := by
  refine ⟨h.simulates.feed data, fun hfine => ?_, fun _ => ?_⟩
  · exact absurd (hfine.symm.trans herr) Bool.false_ne_true
  · cases hbefore : decoder.error with
    | true =>
      obtain ⟨before, chunk, after, rfl, hfine, hbroken, hitems⟩ := h.broken_at hbefore
      exact ⟨before, chunk, after ++ data, by simp, hfine, hbroken, hitems⟩
    | false =>
      -- this is the chunk
      have hbroken : (framing.parse (received ++ data)).broken = true := by
        rw [← (h.simulates.feed data).error_eq]
        exact herr
      refine ⟨received, data, [], by simp, ?_, hbroken, h.submitted_eq hbefore⟩
      rw [← h.error_eq, hbefore]

/-! ## One call -/

/-- What one `recv` adds. -/
theorem receive {c : Connection} (h : Submits received c.decoder submitted) (o : RecvOutcome) :
    Submits (received ++ o.bytes) (c.receive o).1.decoder (submitted ++ (c.receive o).2.1) := by
  cases o with
  | data bytes =>
    simp only [Connection.receive, RecvOutcome.bytes]
    split
    · rename_i hbroken
      simpa using h.feed_broken hbroken
    · rename_i hfine
      exact h.feed_take (by simpa [MessageDecode.brokenmessage] using hfine)
  | eof =>
    simp only [Connection.receive, RecvOutcome.bytes, List.append_nil]
    split
    · simpa using h
    · rename_i hfine
      -- the queue is empty since the last chunk
      have hnil := h.msg_eq_nil (by simpa [MessageDecode.brokenmessage] using hfine)
      simp only [MessageDecode.take, hnil, List.append_nil]
      rw [← hnil]
      exact h
  | again => simpa [Connection.receive, RecvOutcome.bytes] using h
  | error => simpa [Connection.receive, RecvOutcome.bytes] using h

end Submits

namespace Connection

variable {c c' : Connection} {recvs : List RecvOutcome} {msgs : List (List UInt8)} {ok : Bool}

theorem foldl_submitted_decoder (msgs : List (List UInt8)) (c : Connection) :
    (msgs.foldl (fun c _ => c.submitted) c).decoder = c.decoder := by
  rw [foldl_submitted]

@[simp] theorem eofReturn_decoder (c : Connection) : c.eofReturn.1.decoder = c.decoder := by
  unfold eofReturn
  split
  · rfl
  · split <;> rfl

@[simp] theorem sentAll_decoder (c : Connection) : c.sentAll.1.decoder = c.decoder := by
  unfold sentAll
  dsimp only
  split
  · rfl
  · split <;> rfl

/-- Writing leaves the decoder alone. -/
theorem handwrite_decoder {sends : List SendOutcome} {taken : List UInt8}
    (h : c.handwrite sends = some (c', taken, ok)) : c'.decoder = c.decoder := by
  unfold handwrite at h
  split at h
  · cases h
    rfl
  · rcases (writeLoop_cases h).2 with ⟨idx, rfl, -⟩ | hsent
    · rfl
    · have hdecoder := c.sentAll_decoder
      rw [hsent] at hdecoder
      exact hdecoder

/-- Delivering a response leaves the decoder alone. -/
theorem ondone_decoder {resp taken : List UInt8} {sends : List SendOutcome}
    (h : c.ondone resp sends = some (c', taken, ok)) : c'.decoder = c.decoder := by
  obtain ⟨⟨d, taken', ok'⟩, hsend, heq⟩ := Option.map_eq_some_iff.mp h
  cases heq
  rcases senddata_cases hsend with ⟨rfl, -⟩ | ⟨data, -, rfl, -⟩ | ⟨rfl, -⟩ <;> rfl

/-- Once the stream is broken a `recv` has nothing submitted, and bytes end the call. -/
theorem receive_of_error (h : c.decoder.error = true) (o : RecvOutcome) :
    (c.receive o).2.1 = [] ∧ (c.receive o).2.2 ≠ .again ∧
      (o.bytes ≠ [] → (c.receive o).2.2 = .ret false) := by
  cases o with
  | data bytes =>
    simp [receive, MessageDecode.feed_of_error h, MessageDecode.brokenmessage, h]
  | eof => simp [receive, MessageDecode.brokenmessage, h, RecvOutcome.bytes]
  | again => simp [receive, RecvOutcome.bytes]
  | error => simp [receive, RecvOutcome.bytes]

/-- The `recv` that breaks the stream ends the call. -/
theorem receive_breaks {o : RecvOutcome} (h : c.decoder.error = false)
    (hbroken : (c.receive o).1.decoder.error = true) : (c.receive o).2.2 = .ret false := by
  cases o with
  | data bytes =>
    simp only [receive] at hbroken ⊢
    split
    · rfl
    · rename_i hfine
      simp only [if_neg hfine, MessageDecode.take] at hbroken
      exact absurd hbroken hfine
  | eof =>
    simp [receive, MessageDecode.brokenmessage, h, MessageDecode.take] at hbroken
  | again => exact absurd (h.symm.trans hbroken) Bool.false_ne_true
  | error => rfl

/-- A call goes on behind its first `recv`, or ends with it. -/
theorem handreadable_cons {o : RecvOutcome}
    (h : c.handreadable (o :: recvs) = some (c', msgs, ok)) :
    (∃ (d : Connection) (rest : List (List UInt8)), (c.receive o).2.2 = .again ∧
        d.decoder = (c.receive o).1.decoder ∧ d.handreadable recvs = some (c', rest, ok) ∧
        msgs = (c.receive o).2.1 ++ rest ∧
        c.recvBytes (o :: recvs) = o.bytes ++ d.recvBytes recvs) ∨
      ((c.receive o).2.2 ≠ .again ∧ c'.decoder = (c.receive o).1.decoder ∧
        msgs = (c.receive o).2.1 ∧ c.recvBytes (o :: recvs) = o.bytes ∧
        ((c.receive o).2.2 = .ret false → ok = false)) := by
  have hdecoder := foldl_submitted_decoder (c.receive o).2.1 (c.receive o).1
  simp only [handreadable, recvBytes] at h ⊢
  cases hnext : (c.receive o).2.2 with
  | again =>
    rw [hnext] at h
    obtain ⟨⟨d, rest, ok'⟩, hrest, heq⟩ := Option.map_eq_some_iff.mp h
    cases heq
    exact .inl ⟨_, rest, rfl, hdecoder, hrest, rfl, rfl⟩
  | eof =>
    rw [hnext] at h
    cases h
    refine .inr ⟨by simp, ?_, rfl, rfl, by simp⟩
    rw [eofReturn_decoder, hdecoder]
  | ret ok' =>
    rw [hnext] at h
    cases h
    exact .inr ⟨by simp, hdecoder, rfl, rfl, by simp⟩

/-- A call on a broken stream submits nothing, and returns false if it reads any bytes. -/
theorem handreadable_of_error (h : c.decoder.error = true)
    (hcall : c.handreadable recvs = some (c', msgs, ok)) :
    msgs = [] ∧ (c.recvBytes recvs ≠ [] → ok = false) := by
  cases recvs with
  | nil => cases hcall
  | cons o recvs =>
    obtain ⟨hmsgs, hagain, hret⟩ := receive_of_error h o
    rcases handreadable_cons hcall with ⟨d, rest, hnext, -⟩ | ⟨-, -, hsame, hbytes, hok⟩
    · exact absurd hnext hagain
    · rw [hsame, hbytes]
      exact ⟨hmsgs, fun hne => hok (hret hne)⟩

/-- The call that breaks the stream returns false. -/
theorem handreadable_breaks (h : c.decoder.error = false)
    (hcall : c.handreadable recvs = some (c', msgs, ok)) (hbroken : c'.decoder.error = true) :
    ok = false := by
  -- along the `recv` calls: the one that breaks the stream is the last
  induction recvs generalizing c msgs with
  | nil => cases hcall
  | cons o recvs ih =>
    rcases handreadable_cons hcall with ⟨d, rest, hnext, hd, hrest, -⟩ | ⟨-, hd, -, -, hok⟩
    · refine ih ?_ hrest
      rw [hd]
      cases herr : (c.receive o).1.decoder.error with
      | false => rfl
      | true => exact absurd ((receive_breaks h herr).symm.trans hnext) (by simp)
    · rw [hd] at hbroken
      exact hok (receive_breaks h hbroken)

end Connection

/-- What one call adds. -/
theorem Submits.handreadable {c c' : Connection} {received : List UInt8}
    {submitted msgs : List (List UInt8)} {recvs : List RecvOutcome} {ok : Bool}
    (h : Submits received c.decoder submitted)
    (hcall : c.handreadable recvs = some (c', msgs, ok)) :
    Submits (received ++ c.recvBytes recvs) c'.decoder (submitted ++ msgs) := by
  -- along the `recv` calls
  induction recvs generalizing c received submitted msgs with
  | nil => cases hcall
  | cons o recvs ih =>
    have hturn := h.receive o
    rcases Connection.handreadable_cons hcall with
      ⟨d, rest, -, hd, hrest, rfl, hbytes⟩ | ⟨-, hd, rfl, hbytes, -⟩
    · rw [← hd] at hturn
      rw [hbytes, ← List.append_assoc, ← List.append_assoc]
      exact ih hturn hrest
    · rw [hbytes, hd]
      exact hturn

/-! ## Every run -/

theorem readSystem_submits {s : ReadRun} (h : readSystem.Reachable s) :
    Submits s.received s.conn.decoder s.submitted := by
  apply h.invariant
  · rintro s ⟨connId, rfl⟩
    exact .fresh
  · intro s op t hs hstep
    cases op with
    | handreadable recvs =>
      obtain ⟨⟨c, msgs, ok⟩, hcall, rfl⟩ := Option.map_eq_some_iff.mp hstep
      exact hs.handreadable hcall
    | handwrite sends =>
      obtain ⟨⟨c, taken, ok⟩, hcall, rfl⟩ := Option.map_eq_some_iff.mp hstep
      simpa only [Connection.handwrite_decoder hcall] using hs
    | ondone resp sends =>
      obtain ⟨⟨c, taken, ok⟩, hcall, rfl⟩ := Option.map_eq_some_iff.mp hstep
      simpa only [Connection.ondone_decoder hcall] using hs

/-- The requests that a connection submits are the frames of the plain parse of its stream, in
order: however the stream goes on they are a prefix of its frames, and while no length above
the limit was received they are all the complete ones. After such a length they stay those
that were complete before the chunk that brought it; the call that receives it returns false,
as does each later one that reads any bytes, and no later call submits anything. -/
theorem submitted_eq_parse {s : ReadRun} (h : readSystem.Reachable s) :
    (∀ rest, s.submitted <+: (framing.parse (s.received ++ rest)).items) ∧
      ((framing.parse s.received).broken = false →
        s.submitted = (framing.parse s.received).items) ∧
      ((framing.parse s.received).broken = true →
        ∃ before chunk after, s.received = before ++ chunk ++ after ∧
          (framing.parse before).broken = false ∧
          (framing.parse (before ++ chunk)).broken = true ∧
          s.submitted = (framing.parse before).items) ∧
      ∀ recvs c msgs ok, s.conn.handreadable recvs = some (c, msgs, ok) →
        ((framing.parse s.received).broken = true →
          msgs = [] ∧ (s.conn.recvBytes recvs ≠ [] → ok = false)) ∧
        ((framing.parse s.received).broken = false →
          (framing.parse (s.received ++ s.conn.recvBytes recvs)).broken = true → ok = false) := by
  have hs := readSystem_submits h
  rw [← hs.error_eq]
  refine ⟨fun rest => ?_, hs.submitted_eq, hs.broken_at, ?_⟩
  · cases herr : s.conn.decoder.error with
    | false =>
      rw [hs.submitted_eq herr]
      exact framing.items_prefix_append s.received rest
    | true =>
      obtain ⟨before, chunk, after, hreceived, -, -, hitems⟩ := hs.broken_at herr
      rw [hitems, hreceived, List.append_assoc, List.append_assoc]
      exact framing.items_prefix_append before _
  · intro recvs c msgs ok hcall
    refine ⟨fun herr => Connection.handreadable_of_error herr hcall, fun herr hbroken => ?_⟩
    rw [← (hs.handreadable hcall).error_eq] at hbroken
    exact Connection.handreadable_breaks herr hcall hbroken

/-- A request that shares its chunk with a length above the limit is not submitted. -/
theorem submitted_eq_parse_broken :
    ∃ s : ReadRun, s.received = [0, 0, 0, 1, 97, 0, 0, 0, 1, 98, 255, 255, 255, 255] ∧
      s.submitted = [[97]] ∧
      (∀ rest, s.submitted <+: (framing.parse (s.received ++ rest)).items) ∧
      ∀ recvs c msgs ok, s.conn.handreadable recvs = some (c, msgs, ok) →
        (framing.parse s.received).broken = true →
          msgs = [] ∧ (s.conn.recvBytes recvs ≠ [] → ok = false) := by
  have hrun : [.handreadable [.data [0, 0, 0, 1, 97, 0, 0], .again],
      .handreadable [.data [0, 1, 98, 255, 255, 255, 255]]].foldlM ReadRun.step
        { conn := { connId := 1 } } = some
          { conn := { connId := 1, decoder := { msg := [[98]], error := true }, inflight := 1 }
            received := [0, 0, 0, 1, 97, 0, 0, 0, 1, 98, 255, 255, 255, 255]
            submitted := [[97]] } := by
    decide +kernel
  have hreach := TransitionSystem.Reachable.foldlM (T := readSystem) (fun _ _ _ h => h)
    (.of_init ⟨1, rfl⟩) hrun
  obtain ⟨hfirst, -, -, hcalls⟩ := submitted_eq_parse hreach
  exact ⟨_, rfl, rfl, hfirst, fun recvs c msgs ok hcall => (hcalls recvs c msgs ok hcall).1⟩

end ServiceInfra.Net
