import ServiceInfra.Library.PartialRun
import ServiceInfra.Net.Connection

/-!
# The byte order on a socket

`senddata` and `handwrite` share the output buffer of a connection. What the kernel has
taken, followed by what is still queued, should be the encoded responses in call order.
That holds as long as the direct `send` of `senddata` does not mistake a short count for
the whole: it compares two values converted to `int`, and `DirectFits` is the condition
that the conversion does no harm. Every encoded response of less than `2 ^ 31` bytes meets it.

Main results:
- `Connection.senddata_direct`: what a direct send does to the byte order
- `Connection.handwrite_order`: sending from the queue keeps it
- `runOut_inOrder_iff`: the order holds along a run exactly when every direct send fits
- `directFits_of_length_lt`: responses of ordinary size fit
-/

namespace ServiceInfra.Net

open Library

/-! ## Runs -/

/-- A call on the connection with the outcomes of its `send` calls. -/
inductive OutOp where
  | senddata (resp : List UInt8) (script : List SendOutcome)
  | handwrite (script : List SendOutcome)
  deriving DecidableEq, Repr

/-- A connection with what the kernel took of its output, and the responses whose
`senddata` returned true. -/
structure OutState where
  conn : Connection
  kernel : List UInt8 := []
  responses : List (List UInt8) := []
  deriving DecidableEq, Repr

/-- One call. -/
def stepOut (s : OutState) : OutOp → Option OutState
  | .senddata resp script =>
      (s.conn.senddata resp script).map fun (conn, taken, ok) =>
        { conn
          kernel := s.kernel ++ taken
          responses := if ok then s.responses ++ [resp] else s.responses }
  | .handwrite script =>
      (s.conn.handwrite script).map fun (conn, taken, _) =>
        { s with conn, kernel := s.kernel ++ taken }

/-- The output buffer has less than `2 ^ 31` bytes. -/
def BufferSmall (s : OutState) : Prop := s.conn.outbuffer.length < 2 ^ 31

instance : DecidablePred BufferSmall := fun _ => inferInstanceAs (Decidable (_ < _))

namespace Connection

/-- The bytes queued and not yet taken by the kernel. -/
def unsent (c : Connection) : List UInt8 := c.outbuffer.drop c.idx.toNat

/-- The cursor points into the buffer, at its start when it is empty. -/
structure Cursor (c : Connection) : Prop where
  idx_nonneg : 0 ≤ c.idx
  idx_lt : c.outbuffer ≠ [] → c.idx < c.outbuffer.length
  idx_eq_zero : c.outbuffer = [] → c.idx = 0

end Connection

/-- What the kernel took and what is queued are the responses, in call order, and nothing
is queued exactly when the kernel took everything. -/
structure InOrder (s : OutState) : Prop where
  bytes_eq : s.kernel ++ s.conn.unsent = s.responses.flatMap encode
  empty_iff : s.conn.outbuffer = [] ↔ s.kernel = s.responses.flatMap encode

/-- The `send` calls of a direct send of `len` bytes: the result, converted to `int`, tells
the whole from a part and an error from a count. -/
def DirectFits (len : Nat) : List SendOutcome → Prop
  | [] => True
  -- all bytes are taken, or the count survives the conversion and is not taken for the length
  | .accepted n :: _ => len ≤ n ∨ n < 2 ^ 31 ∧ (n : Int) ≠ toInt len
  -- an error returns -1, which must not be the converted length
  | .intr :: script => toInt len ≠ -1 ∧ DirectFits len script
  | .again :: _ => toInt len ≠ -1
  | .error :: _ => toInt len ≠ -1

instance decidableDirectFits (len : Nat) : (script : List SendOutcome) →
    Decidable (DirectFits len script)
  | [] => inferInstanceAs (Decidable True)
  | .accepted n :: _ =>
      inferInstanceAs (Decidable (len ≤ n ∨ n < 2 ^ 31 ∧ (n : Int) ≠ toInt len))
  | .intr :: script =>
      have := decidableDirectFits len script
      inferInstanceAs (Decidable (toInt len ≠ -1 ∧ DirectFits len script))
  | .again :: _ => inferInstanceAs (Decidable (toInt len ≠ -1))
  | .error :: _ => inferInstanceAs (Decidable (toInt len ≠ -1))

/-- The condition on a call: a direct send fits. -/
def OutFits (s : OutState) : OutOp → Prop
  | .senddata resp script => s.conn.outbuffer = [] → DirectFits (encode resp).length script
  | .handwrite _ => True

/-! ## The direct send -/

namespace Connection

variable {c c' : Connection} {resp taken : List UInt8} {script : List SendOutcome} {ok : Bool}

theorem unsent_of_nil (h : c.outbuffer = []) : c.unsent = [] := by
  rw [unsent, h, List.drop_nil]

theorem cursor_of_nil (hout : c.outbuffer = []) (hidx : c.idx = 0) : c.Cursor where
  idx_nonneg := hidx.ge
  idx_lt h := absurd hout h
  idx_eq_zero _ := hidx

/-- Queueing adds to the unsent bytes. -/
theorem Cursor.unsent_queue (h : c.Cursor) (data : List UInt8) :
    (c.queue data).unsent = c.unsent ++ data := by
  -- the cursor is inside the buffer, so what is added lies behind it
  have hle : c.idx.toNat ≤ c.outbuffer.length := by
    by_cases hout : c.outbuffer = []
    · rw [h.idx_eq_zero hout]
      exact Nat.zero_le _
    · have hlt := h.idx_lt hout
      omega
  exact List.drop_append_of_le_length hle

theorem Cursor.queue (h : c.Cursor) {data : List UInt8} (hdata : data ≠ []) :
    (c.queue data).Cursor where
  idx_nonneg := h.idx_nonneg
  idx_lt _ := by
    show c.idx < ((c.outbuffer ++ data).length : Int)
    -- something is added, so even an empty buffer ends behind the cursor
    have hpos := List.length_pos_of_ne_nil hdata
    rw [List.length_append]
    by_cases hout : c.outbuffer = []
    · rw [h.idx_eq_zero hout]
      omega
    · have hlt := h.idx_lt hout
      omega
  idx_eq_zero hnil := absurd (List.append_eq_nil_iff.mp hnil).2 hdata

theorem senddata_cons (hout : c.outbuffer = []) (o : SendOutcome) :
    c.senddata resp (o :: script) =
      if toInt (o.result (encode resp)) = toInt (encode resp).length then
        some (c, o.taken (encode resp), true)
      else if toInt (o.result (encode resp)) = -1 then
        match o with
        | .again => some (c.queue (encode resp), [], true)
        | .intr => c.senddata resp script
        | .error => some ({ c with closed := true }, [], false)
        | .accepted _ => none
      else if toInt (o.result (encode resp)) < 0 then none
      else some (c.queue ((encode resp).drop (toInt (o.result (encode resp))).toNat),
        o.taken (encode resp), true) := by
  rw [senddata.eq_def]
  exact if_neg (not_not.mpr hout)

/-- A direct send of which the kernel takes a part. -/
theorem senddata_accepted (hout : c.outbuffer = []) (hidx : c.idx = 0) {n : Nat}
    (h : c.senddata resp (.accepted n :: script) = some (c', taken, ok)) :
    c'.Cursor ∧ (taken ++ c'.unsent = (if ok then encode resp else []) ↔
      DirectFits (encode resp).length (.accepted n :: script)) := by
  have hcursor := cursor_of_nil hout hidx
  rw [senddata_cons hout] at h
  simp only [SendOutcome.taken] at h
  by_cases hall : (encode resp).length ≤ n
  · -- everything is taken
    have htake : (encode resp).take n = encode resp := List.take_of_length_le hall
    simp only [SendOutcome.result, htake, if_true, Option.some.injEq, Prod.mk.injEq] at h
    obtain ⟨rfl, rfl, rfl⟩ := h
    refine ⟨hcursor, iff_of_true ?_ (.inl hall)⟩
    rw [unsent_of_nil hout, List.append_nil, if_pos rfl]
  · have hlt : n < (encode resp).length := Nat.lt_of_not_le hall
    -- a part is taken: the result is the count
    have hresult : SendOutcome.result (encode resp) (.accepted n) = n := by
      rw [SendOutcome.result, List.length_take, Nat.min_eq_left hlt.le]
    rw [hresult] at h
    split at h
    · -- a part that passes for the whole
      rename_i hwhole
      simp only [Option.some.injEq, Prod.mk.injEq] at h
      obtain ⟨rfl, rfl, rfl⟩ := h
      refine ⟨hcursor, iff_of_false ?_ ?_⟩
      · rw [unsent_of_nil hout, List.append_nil, if_pos rfl]
        intro htake
        have hlen := congrArg List.length htake
        rw [List.length_take] at hlen
        omega
      · rintro (hle | ⟨hsmall, hne⟩)
        · omega
        · exact hne (by rw [← hwhole, toInt_of_lt (by omega) (by omega)])
    · rename_i hpart
      split at h
      · cases h
      · split at h
        · cases h
        · rename_i hneg
          simp only [Option.some.injEq, Prod.mk.injEq] at h
          obtain ⟨rfl, rfl, rfl⟩ := h
          -- a part is left, and queued from where the converted count points
          have hle := toInt_le_of_nonneg (Int.natCast_nonneg n)
          have hdrop : (encode resp).drop (toInt n).toNat ≠ [] := by
            rw [ne_eq, List.drop_eq_nil_iff]
            omega
          refine ⟨hcursor.queue hdrop, ?_⟩
          rw [hcursor.unsent_queue, unsent_of_nil hout, List.nil_append, if_pos rfl]
          constructor
          · -- the parts fit together only where the count was not changed
            intro hjoin
            have hlen := congrArg List.length hjoin
            rw [List.length_append, List.length_take, List.length_drop] at hlen
            have hlt31 := toInt_lt n
            refine .inr ⟨by omega, fun hne => hpart ?_⟩
            rw [toInt_of_lt (by omega) (by omega), hne]
          · rintro (hge | ⟨hsmall, -⟩)
            · omega
            · rw [toInt_of_lt (by omega) (by omega), Int.toNat_natCast, List.take_append_drop]

/-- A call with an empty buffer: the bytes come out as the response exactly when the
`send` calls fit. -/
theorem senddata_direct (hout : c.outbuffer = []) (hidx : c.idx = 0)
    (h : c.senddata resp script = some (c', taken, ok)) :
    c'.Cursor ∧ (taken ++ c'.unsent = (if ok then encode resp else []) ↔
      DirectFits (encode resp).length script) := by
  have hcursor := cursor_of_nil hout hidx
  -- when -1 passes for the length, the call returns true and nothing is sent or queued
  have hlost : [] ++ c.unsent ≠ encode resp := by
    rw [unsent_of_nil hout, List.append_nil]
    exact (encode_ne_nil resp).symm
  -- along the `send` calls: only an interrupted one is made again
  induction script with
  | nil =>
    rw [senddata.eq_def] at h
    simp [hout] at h
  | cons o script ih =>
    cases o with
    | accepted n => exact senddata_accepted hout hidx h
    | again =>
      rw [senddata_cons hout] at h
      simp only [SendOutcome.result, SendOutcome.taken, toInt_neg_one, if_true] at h
      split at h
      · rename_i hwhole
        cases h
        exact ⟨hcursor, iff_of_false hlost fun hne => hne hwhole.symm⟩
      · -- `EAGAIN`: the whole response is queued
        rename_i hne
        cases h
        refine ⟨hcursor.queue (encode_ne_nil resp), iff_of_true ?_ fun heq => hne heq.symm⟩
        rw [hcursor.unsent_queue, unsent_of_nil hout, if_pos rfl]
        rfl
    | intr =>
      rw [senddata_cons hout] at h
      simp only [SendOutcome.result, SendOutcome.taken, toInt_neg_one, if_true] at h
      split at h
      · rename_i hwhole
        cases h
        exact ⟨hcursor, iff_of_false hlost fun hfits => hfits.1 hwhole.symm⟩
      · -- `EINTR`: the call is made again
        rename_i hne
        obtain ⟨hc', hiff⟩ := ih h
        exact ⟨hc', hiff.trans (and_iff_right fun heq => hne heq.symm).symm⟩
    | error =>
      rw [senddata_cons hout] at h
      simp only [SendOutcome.result, SendOutcome.taken, toInt_neg_one, if_true] at h
      split at h
      · rename_i hwhole
        cases h
        exact ⟨hcursor, iff_of_false hlost fun hne => hne hwhole.symm⟩
      · -- any other error: the call returns false, and nothing is owed
        rename_i hne
        cases h
        refine ⟨cursor_of_nil hout hidx, iff_of_true ?_ fun heq => hne heq.symm⟩
        rw [List.nil_append]
        exact unsent_of_nil (c := { c with closed := true }) hout

/-! ## The queue -/

/-- A call while bytes are queued adds the response behind them. -/
theorem senddata_queued (hout : c.outbuffer ≠ []) (resp : List UInt8) (script : List SendOutcome) :
    c.senddata resp script = some (c.queue (encode resp), [], true) := by
  rw [senddata.eq_def]
  simp only
  rw [if_pos hout]

theorem senddata_cursor (hcursor : c.Cursor) (h : c.senddata resp script = some (c', taken, ok)) :
    c'.Cursor := by
  by_cases hout : c.outbuffer = []
  · exact (senddata_direct hout (hcursor.idx_eq_zero hout) h).1
  · rw [senddata_queued hout] at h
    cases h
    exact hcursor.queue (encode_ne_nil resp)

/-- The cursor moves over bytes sent, short of the end. -/
theorem Cursor.advance (h : c.Cursor) {n : Nat} (hn : n < c.unsent.length) :
    Cursor { c with idx := c.idx + n } where
  idx_nonneg := by
    have hnonneg := h.idx_nonneg
    simp only
    omega
  idx_lt _ := by
    rw [unsent, List.length_drop] at hn
    simp only
    omega
  idx_eq_zero hnil := by
    have hempty : c.unsent = [] := unsent_of_nil hnil
    rw [hempty] at hn
    exact absurd hn (Nat.not_lt_zero n)

theorem result_of_length_le {data : List UInt8} {n : Nat} (h : data.length ≤ n) :
    SendOutcome.result data (.accepted n) = data.length := by
  rw [SendOutcome.result, List.take_of_length_le h]

theorem result_of_lt_length {data : List UInt8} {n : Nat} (h : n < data.length) :
    SendOutcome.result data (.accepted n) = n := by
  rw [SendOutcome.result, List.length_take, Nat.min_eq_left h.le]

theorem sentAll_fst (c : Connection) : c.sentAll.1.outbuffer = [] ∧ c.sentAll.1.idx = 0 := by
  unfold sentAll
  simp only
  split
  · exact ⟨rfl, rfl⟩
  · split <;> exact ⟨rfl, rfl⟩

/-- The loop runs while the cursor is inside the buffer. -/
theorem Cursor.inside (h : c.Cursor) (hout : c.outbuffer ≠ []) :
    ¬ (c.idx < 0 ∨ (c.outbuffer.length : Int) ≤ c.idx) := by
  have hnonneg := h.idx_nonneg
  have hlt := h.idx_lt hout
  omega

/-- The kernel takes the rest. -/
theorem Cursor.writeLoop_rest (h : c.Cursor) (hout : c.outbuffer ≠ []) {n : Nat}
    (hn : c.unsent.length ≤ n) :
    c.writeLoop (.accepted n :: script) = some (c.sentAll.1, c.unsent, c.sentAll.2) := by
  have hresult := result_of_length_le hn
  rw [unsent] at hresult
  rw [writeLoop, if_neg (h.inside hout)]
  simp only
  rw [hresult, if_pos rfl]
  rfl

/-- The kernel takes a part, and the loop goes on behind it. -/
theorem Cursor.writeLoop_part (h : c.Cursor) (hout : c.outbuffer ≠ []) {n : Nat}
    (hn : n < c.unsent.length) :
    c.writeLoop (.accepted n :: script) =
      (writeLoop { c with idx := toInt (c.idx + n) } script).map
        fun r => (r.1, c.unsent.take n ++ r.2.1, r.2.2) := by
  have hresult := result_of_lt_length hn
  have hne : ¬ (n : Int) = c.unsent.length := by omega
  rw [unsent] at hresult hne
  rw [writeLoop, if_neg (h.inside hout)]
  simp only
  rw [hresult, if_neg hne]
  rfl

/-- A part taken and the bytes behind it are the unsent ones. -/
theorem Cursor.take_unsent_advance (h : c.Cursor) (n : Nat) :
    c.unsent.take n ++ ({ c with idx := c.idx + n } : Connection).unsent = c.unsent := by
  have hnonneg := h.idx_nonneg
  have hidx : (c.idx + n).toNat = c.idx.toNat + n := by omega
  simp only [unsent, hidx]
  rw [← List.drop_drop, List.take_append_drop]

/-- The loop of `handwrite` sends from the front of the unsent bytes. -/
theorem writeLoop_order (hcursor : c.Cursor) (hout : c.outbuffer ≠ [])
    (hsmall : c.outbuffer.length < 2 ^ 31) (h : c.writeLoop script = some (c', taken, ok)) :
    c'.Cursor ∧ taken ++ c'.unsent = c.unsent := by
  -- along the `send` calls: each takes bytes off the front of the unsent ones
  induction script generalizing c taken with
  | nil => cases h
  | cons o script ih =>
    have hinside := hcursor.inside hout
    cases o with
    | accepted n =>
      by_cases hall : c.unsent.length ≤ n
      · rw [hcursor.writeLoop_rest hout hall] at h
        cases h
        have hsent := c.sentAll_fst
        refine ⟨cursor_of_nil hsent.1 hsent.2, ?_⟩
        rw [unsent_of_nil hsent.1, List.append_nil]
      · have hpart : n < c.unsent.length := Nat.lt_of_not_le hall
        have hlen : c.unsent.length = c.outbuffer.length - c.idx.toNat := List.length_drop
        -- the cursor stays inside a buffer of less than 2 GiB, so `int` holds it
        have hidx : toInt (c.idx + n) = c.idx + n := toInt_of_lt (by omega) (by omega)
        rw [hcursor.writeLoop_part hout hpart, hidx] at h
        obtain ⟨⟨d, taken', ok'⟩, hloop, heq⟩ := Option.map_eq_some_iff.mp h
        cases heq
        obtain ⟨hd, horder⟩ := ih (hcursor.advance hpart) hout hsmall hloop
        refine ⟨hd, ?_⟩
        rw [List.append_assoc, horder]
        exact hcursor.take_unsent_advance n
    | again =>
      rw [writeLoop, if_neg hinside] at h
      cases h
      exact ⟨hcursor, rfl⟩
    | intr =>
      rw [writeLoop, if_neg hinside] at h
      cases h
      exact ⟨hcursor, rfl⟩
    | error =>
      rw [writeLoop, if_neg hinside] at h
      cases h
      exact ⟨hcursor, rfl⟩

theorem handwrite_order (hcursor : c.Cursor) (hsmall : c.outbuffer.length < 2 ^ 31)
    (h : c.handwrite script = some (c', taken, ok)) :
    c'.Cursor ∧ taken ++ c'.unsent = c.unsent := by
  unfold handwrite at h
  split at h
  · cases h
    exact ⟨hcursor, rfl⟩
  · rename_i hout
    exact writeLoop_order hcursor hout hsmall h

end Connection

/-! ## Runs keep the order -/

/-- With the cursor in place, the first part of `InOrder` implies the second. -/
theorem inOrder_of_bytes {s : OutState} (hcursor : s.conn.Cursor)
    (h : s.kernel ++ s.conn.unsent = s.responses.flatMap encode) : InOrder s where
  bytes_eq := h
  empty_iff := by
    constructor
    · intro hout
      rwa [Connection.unsent_of_nil hout, List.append_nil] at h
    · intro hall
      -- bytes behind the cursor would be missing on the socket
      by_contra hout
      have hlt := hcursor.idx_lt hout
      have hnonneg := hcursor.idx_nonneg
      rw [← hall] at h
      have hlen := congrArg List.length h
      rw [List.length_append, Connection.unsent, List.length_drop] at hlen
      omega

theorem stepOut_cursor {s t : OutState} {op : OutOp} (hcursor : s.conn.Cursor)
    (hsmall : BufferSmall s) (h : stepOut s op = some t) : t.conn.Cursor := by
  cases op with
  | senddata resp script =>
    obtain ⟨⟨c', taken, ok⟩, hcall, rfl⟩ := Option.map_eq_some_iff.mp h
    exact Connection.senddata_cursor hcursor hcall
  | handwrite script =>
    obtain ⟨⟨c', taken, ok⟩, hcall, rfl⟩ := Option.map_eq_some_iff.mp h
    exact (Connection.handwrite_order hcursor hsmall hcall).1

/-- One call keeps the order exactly when it fits. -/
theorem stepOut_inOrder_iff {s t : OutState} {op : OutOp} (hcursor : s.conn.Cursor)
    (hsmall : BufferSmall s) (horder : InOrder s) (h : stepOut s op = some t) :
    InOrder t ↔ OutFits s op := by
  have hnext := stepOut_cursor hcursor hsmall h
  -- the cursor is in place after the call, so only the bytes matter
  have hbytes : InOrder t ↔ t.kernel ++ t.conn.unsent = t.responses.flatMap encode :=
    ⟨InOrder.bytes_eq, inOrder_of_bytes hnext⟩
  rw [hbytes]
  cases op with
  | senddata resp script =>
    obtain ⟨⟨c', taken, ok⟩, hcall, rfl⟩ := Option.map_eq_some_iff.mp h
    have hresponses : (if ok then s.responses ++ [resp] else s.responses).flatMap encode =
        s.responses.flatMap encode ++ if ok then encode resp else [] := by
      cases ok <;> simp
    simp only [hresponses, OutFits]
    by_cases hout : s.conn.outbuffer = []
    · -- nothing was queued: what this call sends and queues comes right behind
      have hdirect := (Connection.senddata_direct hout (hcursor.idx_eq_zero hout) hcall).2
      have hall : s.kernel = s.responses.flatMap encode := horder.empty_iff.mp hout
      rw [← hall, List.append_assoc, List.append_cancel_left_eq, hdirect]
      exact ⟨fun hfits _ => hfits, fun hfits => hfits hout⟩
    · rw [Connection.senddata_queued hout] at hcall
      cases hcall
      -- something was queued: the response goes behind it
      refine iff_of_true ?_ fun hnil => absurd hnil hout
      rw [hcursor.unsent_queue, List.append_nil, ← List.append_assoc, horder.bytes_eq, if_pos rfl]
  | handwrite script =>
    obtain ⟨⟨c', taken, ok⟩, hcall, rfl⟩ := Option.map_eq_some_iff.mp h
    refine iff_of_true ?_ trivial
    have htaken := (Connection.handwrite_order hcursor hsmall hcall).2
    simp only at htaken ⊢
    rw [List.append_assoc, htaken, horder.bytes_eq]

/-- Along every run of calls on a connection with nothing queued, as long as the buffer
stays small: the bytes on the socket are the responses in call order exactly when every
direct send fits. -/
theorem runOut_inOrder_iff {c : Connection} (hout : c.outbuffer = []) (hidx : c.idx = 0)
    {ops : List OutOp} (hsmall : Always stepOut BufferSmall { conn := c } ops) :
    Always stepOut InOrder { conn := c } ops ↔ Guarded stepOut OutFits { conn := c } ops := by
  have hcursor := Connection.cursor_of_nil hout hidx
  have hinv : ∀ s op t, s.conn.Cursor → BufferSmall s → stepOut s op = some t →
      t.conn.Cursor := fun s op t => stepOut_cursor
  have hstep : ∀ s op t, s.conn.Cursor → BufferSmall s → InOrder s → stepOut s op = some t →
      (InOrder t ↔ OutFits s op) := fun s op t => stepOut_inOrder_iff
  exact always_iff_guarded hinv hstep hcursor hsmall
    (inOrder_of_bytes hcursor (Connection.unsent_of_nil hout))

theorem runOut_inOrder_iff_partial :
    let c : Connection := { connId := 1 }
    let ops : List OutOp := [.senddata [0x41, 0x42] [.accepted 3], .senddata [0x43] [],
      .handwrite [.accepted 4, .intr], .handwrite [.accepted 100]]
    Always stepOut BufferSmall { conn := c } ops ∧
      (Always stepOut InOrder { conn := c } ops ↔ Guarded stepOut OutFits { conn := c } ops) := by
  have hsmall : Always stepOut BufferSmall { conn := { connId := 1 } }
      [.senddata [0x41, 0x42] [.accepted 3], .senddata [0x43] [],
        .handwrite [.accepted 4, .intr], .handwrite [.accepted 100]] := by decide
  exact ⟨hsmall, runOut_inOrder_iff rfl rfl hsmall⟩

/-- A response of which the encoding has `2 ^ 32 - 1` bytes, while the kernel takes
nothing: -1 is taken for the length, and the response is lost. -/
theorem Connection.senddata_lost {c : Connection} (hout : c.outbuffer = []) {resp : List UInt8}
    (hlen : resp.length = 4294967291) : c.senddata resp [.again] = some (c, [], true) := by
  have hwhole : toInt (SendOutcome.result (encode resp) .again) = toInt (encode resp).length := by
    rw [length_encode, hlen]
    rfl
  rw [Connection.senddata_cons hout, if_pos hwhole]
  rfl

theorem stepOut_lost {resp : List UInt8} (hlen : resp.length = 4294967291) :
    stepOut { conn := { connId := 1 } } (.senddata resp [.again]) =
      some { conn := { connId := 1 }, responses := [resp] } := by
  rw [stepOut, Connection.senddata_lost rfl hlen]
  rfl

theorem not_inOrder_lost (resp : List UInt8) :
    ¬ InOrder { conn := { connId := 1 }, responses := [resp] } := by
  intro h
  have hall := h.empty_iff.mp rfl
  rw [List.flatMap_cons, List.flatMap_nil, List.append_nil] at hall
  exact Connection.encode_ne_nil resp hall.symm

theorem runOut_not_inOrder :
    let ops : List OutOp := [.senddata (List.replicate 4294967291 0x41) [.again]]
    Always stepOut BufferSmall { conn := { connId := 1 } } ops ∧
      ¬ Always stepOut InOrder { conn := { connId := 1 } } ops := by
  have hlost := stepOut_lost (@List.length_replicate UInt8 4294967291 0x41)
  refine ⟨⟨by decide, fun t ht => ?_⟩, fun h => not_inOrder_lost _ (h.2 _ hlost)⟩
  rw [hlost] at ht
  cases ht
  decide

/-- Responses of less than 2 GiB fit, whatever the kernel does. -/
theorem directFits_of_length_lt {len : Nat} (h : len < 2 ^ 31) (script : List SendOutcome) :
    DirectFits len script := by
  have hint : toInt len = len := toInt_of_lt (by omega) (by omega)
  induction script with
  | nil => trivial
  | cons o script ih =>
    cases o with
    | accepted n =>
      by_cases hn : len ≤ n
      · exact .inl hn
      · refine .inr ⟨by omega, ?_⟩
        rw [hint]
        omega
    | again =>
      show toInt len ≠ -1
      omega
    | intr =>
      refine ⟨?_, ih⟩
      omega
    | error =>
      show toInt len ≠ -1
      omega

end ServiceInfra.Net
