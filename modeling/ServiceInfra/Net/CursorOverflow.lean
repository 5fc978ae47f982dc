import ServiceInfra.Net.OutputOrder

/-!
# The output cursor

`handwrite` keeps the bytes it has sent in the buffer until everything is sent, and counts
them in an `int`. While bytes stay queued the count only grows, whatever is queued behind
them: a buffer that is never sent to its end takes the count to `2 ^ 31`. `DrainsInTime` is
the condition on a call that this does not happen, and along a run it is all that the cursor
needs.

Main results:
- `Connection.cursorSums_lt_iff`: what a call adds up fits an `int` exactly under the condition
- `runOut_keepsCursor_iff`: so along a run, with the cursor inside the buffer
- `keepsCursor_of_length_le`: it holds while less than 2 GiB are queued
- `runOut_not_keepsCursor`: a peer that reads 2 GiB of a longer queue
-/

namespace ServiceInfra.Net

open Library

/-! ## The additions to the cursor -/

namespace Connection

/-- The sums that `idx+=n` makes in the loop of `handwrite`, before they are converted. -/
def cursorSums (c : Connection) : List SendOutcome → List Int
  | [] => []
  | o :: script =>
      if c.idx < 0 ∨ c.outbuffer.length ≤ c.idx then []
      else
        let pending := c.outbuffer.drop c.idx.toNat
        match o with
        | .accepted _ =>
            if o.result pending = pending.length then []
            else
              let sum := c.idx + o.result pending
              sum :: cursorSums { c with idx := toInt sum } script
        | _ => []

/-- The counts that the kernel accepts until a `send` fails. -/
def acceptedCounts : List SendOutcome → List Nat
  | .accepted n :: script => n :: acceptedCounts script
  | _ => []

/-- Whatever the kernel has accepted in the call so far, together with what was sent since the
buffer was last empty it is less than 2 GiB, or all that is queued. -/
def DrainsInTime (c : Connection) (script : List SendOutcome) : Prop :=
  ∀ counts, counts <+: acceptedCounts script →
    c.idx + counts.sum < 2 ^ 31 ∨ c.outbuffer.length ≤ c.idx + counts.sum

instance (c : Connection) : DecidablePred c.DrainsInTime := fun script =>
  decidable_of_iff (∀ counts ∈ (acceptedCounts script).inits,
      c.idx + counts.sum < 2 ^ 31 ∨ c.outbuffer.length ≤ c.idx + counts.sum)
    (by simp only [List.mem_inits, DrainsInTime])

end Connection

/-- The sums that a call makes with `idx`. -/
def OutState.sums (s : OutState) : OutOp → List Int
  | .senddata _ _ => []
  | .handwrite script => if s.conn.outbuffer = [] then [] else s.conn.cursorSums script

/-- No addition of the call exceeds the largest `int`. -/
def SumsFit (s : OutState) (op : OutOp) : Prop := ∀ sum ∈ s.sums op, sum < 2 ^ 31

/-- The cursor is inside the buffer. -/
def CursorInside (s : OutState) : Prop := 0 ≤ s.conn.idx ∧ s.conn.idx ≤ s.conn.outbuffer.length

/-- After every call of a run the cursor is inside the buffer, and no addition of any call
exceeds the largest `int`. -/
def KeepsCursor (s : OutState) (ops : List OutOp) : Prop :=
  Always stepOut CursorInside s ops ∧ Attempted stepOut SumsFit s ops

/-- The condition on a call. -/
def DrainFits (s : OutState) : OutOp → Prop
  | .senddata _ _ => True
  | .handwrite script => s.conn.DrainsInTime script

/-! ## One call -/

namespace Connection

variable {c c' : Connection} {taken : List UInt8} {script : List SendOutcome} {ok : Bool}

theorem drainsInTime_cons {n : Nat} (hidx : c.idx < 2 ^ 31) :
    c.DrainsInTime (.accepted n :: script) ↔
      { c with idx := c.idx + n }.DrainsInTime script := by
  constructor
  · intro h counts hcounts
    have hsum := h (n :: counts) (by simpa [acceptedCounts] using hcounts)
    simp only [List.sum_cons, Nat.cast_add] at hsum
    simp only
    omega
  · intro h counts hcounts
    rw [acceptedCounts, List.prefix_cons_iff] at hcounts
    rcases hcounts with rfl | ⟨counts, rfl, hcounts⟩
    · left
      simpa using hidx
    · have hsum := h counts hcounts
      simp only [List.sum_cons, Nat.cast_add]
      simp only at hsum
      omega

/-- Once the buffer is sent nothing is added any more. -/
theorem drainsInTime_of_le (h : c.outbuffer.length ≤ c.idx) : c.DrainsInTime script := by
  intro counts _
  right
  omega

/-- A buffer of at most 2 GiB is sent to its end before the count exceeds an `int`. -/
theorem drainsInTime_of_length_le (h : c.outbuffer.length ≤ 2 ^ 31) : c.DrainsInTime script := by
  intro counts _
  omega

theorem drainsInTime_of_nil (hidx : c.idx < 2 ^ 31) (h : acceptedCounts script = []) :
    c.DrainsInTime script := by
  intro counts hcounts
  rw [h, List.prefix_nil] at hcounts
  left
  simpa [hcounts] using hidx

/-- A part that the kernel takes under the condition keeps the sum in an `int`. -/
theorem DrainsInTime.sum_lt {n : Nat} (h : c.DrainsInTime (.accepted n :: script))
    (hidx : c.idx < 2 ^ 31) (hcursor : c.Cursor) (hn : n < c.unsent.length) :
    c.idx + n < 2 ^ 31 := by
  have hnonneg := hcursor.idx_nonneg
  rw [unsent, List.length_drop] at hn
  rw [drainsInTime_cons hidx] at h
  rcases h [] List.nil_prefix with hsum | hsum
  · simpa using hsum
  · simp only [List.sum_nil] at hsum
    omega

theorem cursorSums_rest (hcursor : c.Cursor) (hout : c.outbuffer ≠ []) {n : Nat}
    (hn : c.unsent.length ≤ n) : c.cursorSums (.accepted n :: script) = [] := by
  have hresult := result_of_length_le hn
  rw [unsent] at hresult
  rw [cursorSums, if_neg (hcursor.inside hout)]
  simp only
  rw [hresult, if_pos rfl]

theorem cursorSums_part (hcursor : c.Cursor) (hout : c.outbuffer ≠ []) {n : Nat}
    (hn : n < c.unsent.length) :
    c.cursorSums (.accepted n :: script) =
      (c.idx + n) :: cursorSums { c with idx := toInt (c.idx + n) } script := by
  have hresult := result_of_lt_length hn
  have hne : ¬ (n : Int) = c.unsent.length := by omega
  rw [unsent] at hresult hne
  rw [cursorSums, if_neg (hcursor.inside hout)]
  simp only
  rw [hresult, if_neg hne]

theorem cursorSums_of_nil (h : acceptedCounts script = []) : c.cursorSums script = [] := by
  cases script with
  | nil => rfl
  | cons o script =>
    cases o with
    | accepted n => cases h
    | again => simp [cursorSums]
    | intr => simp [cursorSums]
    | error => simp [cursorSums]

/-- In the loop of `handwrite` the sums fit exactly under the condition. -/
theorem cursorSums_lt_iff (hcursor : c.Cursor) (hidx : c.idx < 2 ^ 31) (hout : c.outbuffer ≠ []) :
    (∀ sum ∈ c.cursorSums script, sum < 2 ^ 31) ↔ c.DrainsInTime script := by
  have hnone {script : List SendOutcome} {d : Connection} (hd : d.idx < 2 ^ 31)
      (h : acceptedCounts script = []) :
      (∀ sum ∈ d.cursorSums script, sum < 2 ^ 31) ↔ d.DrainsInTime script := by
    rw [cursorSums_of_nil h]
    exact iff_of_true (by simp) (drainsInTime_of_nil hd h)
  -- along the `send` calls, as far as the kernel accepts a part of what is left
  induction script generalizing c with
  | nil => exact hnone hidx rfl
  | cons o script ih =>
    cases o with
    | accepted n =>
      by_cases hall : c.unsent.length ≤ n
      · -- the rest is sent
        have hlen : c.unsent.length = c.outbuffer.length - c.idx.toNat := List.length_drop
        have hnonneg := hcursor.idx_nonneg
        rw [cursorSums_rest hcursor hout hall, drainsInTime_cons hidx]
        exact iff_of_true (by simp) (drainsInTime_of_le (by simp only; omega))
      · -- a part is sent, and the sum is the new cursor if an `int` holds it
        have hpart : n < c.unsent.length := Nat.lt_of_not_le hall
        have hnonneg := hcursor.idx_nonneg
        rw [cursorSums_part hcursor hout hpart, List.forall_mem_cons]
        by_cases hfits : c.idx + n < 2 ^ 31
        · have hrest := ih (hcursor.advance hpart) hfits hout
          rw [toInt_of_lt (by omega) hfits, drainsInTime_cons hidx]
          exact (and_iff_right hfits).trans hrest
        · exact iff_of_false (fun h => hfits h.1) fun h => hfits (h.sum_lt hidx hcursor hpart)
    | again => exact hnone hidx rfl
    | intr => exact hnone hidx rfl
    | error => exact hnone hidx rfl

/-- Under the condition the loop leaves the cursor in place. -/
theorem writeLoop_cursor (hcursor : c.Cursor) (hidx : c.idx < 2 ^ 31) (hout : c.outbuffer ≠ [])
    (hdrain : c.DrainsInTime script) (h : c.writeLoop script = some (c', taken, ok)) :
    c'.Cursor ∧ c'.idx < 2 ^ 31 := by
  -- along the `send` calls
  induction script generalizing c taken with
  | nil => cases h
  | cons o script ih =>
    have hinside := hcursor.inside hout
    cases o with
    | accepted n =>
      by_cases hall : c.unsent.length ≤ n
      · rw [hcursor.writeLoop_rest hout hall] at h
        cases h
        have hsent := c.sentAll_fst
        exact ⟨cursor_of_nil hsent.1 hsent.2, by rw [hsent.2]; norm_num⟩
      · have hpart : n < c.unsent.length := Nat.lt_of_not_le hall
        have hnonneg := hcursor.idx_nonneg
        have hfits := hdrain.sum_lt hidx hcursor hpart
        rw [hcursor.writeLoop_part hout hpart, toInt_of_lt (by omega) hfits] at h
        obtain ⟨⟨d, taken', ok'⟩, hloop, heq⟩ := Option.map_eq_some_iff.mp h
        cases heq
        exact ih (hcursor.advance hpart) hfits hout ((drainsInTime_cons hidx).mp hdrain) hloop
    | again =>
      rw [writeLoop, if_neg hinside] at h
      cases h
      exact ⟨hcursor, hidx⟩
    | intr =>
      rw [writeLoop, if_neg hinside] at h
      cases h
      exact ⟨hcursor, hidx⟩
    | error =>
      rw [writeLoop, if_neg hinside] at h
      cases h
      exact ⟨hcursor, hidx⟩

theorem handwrite_cursor (hcursor : c.Cursor) (hidx : c.idx < 2 ^ 31)
    (hdrain : c.DrainsInTime script) (h : c.handwrite script = some (c', taken, ok)) :
    c'.Cursor ∧ c'.idx < 2 ^ 31 := by
  unfold handwrite at h
  split at h
  · cases h
    exact ⟨hcursor, hidx⟩
  · rename_i hout
    exact writeLoop_cursor hcursor hidx hout hdrain h

/-- `senddata` leaves `idx` alone. -/
theorem senddata_idx {resp : List UInt8} (h : c.senddata resp script = some (c', taken, ok)) :
    c'.idx = c.idx := by
  rcases senddata_cases h with ⟨rfl, -⟩ | ⟨data, -, rfl, -⟩ | ⟨rfl, -⟩ <;> rfl

end Connection

/-! ## Along a run -/

/-- The cursor is in place and an `int` holds it. -/
def CursorFits (s : OutState) : Prop := s.conn.Cursor ∧ s.conn.idx < 2 ^ 31

theorem CursorFits.inside {s : OutState} (h : CursorFits s) : CursorInside s := by
  obtain ⟨hcursor, -⟩ := h
  refine ⟨hcursor.idx_nonneg, ?_⟩
  by_cases hout : s.conn.outbuffer = []
  · rw [hcursor.idx_eq_zero hout]
    exact Int.natCast_nonneg _
  · exact (hcursor.idx_lt hout).le

theorem CursorFits.sumsFit_iff {s : OutState} (h : CursorFits s) (op : OutOp) :
    SumsFit s op ↔ DrainFits s op := by
  cases op with
  | senddata resp script => exact iff_of_true (by simp [SumsFit, OutState.sums]) trivial
  | handwrite script =>
    simp only [SumsFit, OutState.sums, DrainFits]
    split
    · rename_i hout
      refine iff_of_true (by simp) (Connection.drainsInTime_of_le ?_)
      rw [hout]
      exact h.1.idx_nonneg
    · rename_i hout
      exact Connection.cursorSums_lt_iff h.1 h.2 hout

/-- A call under the condition keeps the cursor in place. -/
theorem CursorFits.step {s t : OutState} {op : OutOp} (h : CursorFits s) (hdrain : DrainFits s op)
    (hstep : stepOut s op = some t) : CursorFits t := by
  cases op with
  | senddata resp script =>
    obtain ⟨⟨c, taken, ok⟩, hcall, rfl⟩ := Option.map_eq_some_iff.mp hstep
    refine ⟨Connection.senddata_cursor h.1 hcall, ?_⟩
    rw [Connection.senddata_idx hcall]
    exact h.2
  | handwrite script =>
    obtain ⟨⟨c, taken, ok⟩, hcall, rfl⟩ := Option.map_eq_some_iff.mp hstep
    exact Connection.handwrite_cursor h.1 h.2 hdrain hcall

theorem CursorFits.keepsCursor_iff {s : OutState} (h : CursorFits s) (ops : List OutOp) :
    KeepsCursor s ops ↔ Attempted stepOut DrainFits s ops := by
  have hinside : ∀ s, CursorFits s → CursorInside s := fun s => CursorFits.inside
  have hstep : ∀ s op t, CursorFits s → DrainFits s op → stepOut s op = some t → CursorFits t :=
    fun s op t => CursorFits.step
  exact always_and_attempted_iff hinside (fun s op h => h.sumsFit_iff op) hstep h

theorem cursorFits_of_nil {c : Connection} (hout : c.outbuffer = []) (hidx : c.idx = 0) :
    CursorFits { conn := c } := by
  refine ⟨Connection.cursor_of_nil hout hidx, ?_⟩
  rw [hidx]
  norm_num

/-- Along every run of calls on a connection with nothing queued: the cursor is inside the
buffer after every call, and every sum fits an `int`, exactly when each `handwrite` of the run
stops below 2 GiB sent since the buffer was last empty, or sends what is left. -/
theorem runOut_keepsCursor_iff {c : Connection} (hout : c.outbuffer = []) (hidx : c.idx = 0)
    (ops : List OutOp) :
    KeepsCursor { conn := c } ops ↔ Attempted stepOut DrainFits { conn := c } ops :=
  (cursorFits_of_nil hout hidx).keepsCursor_iff ops

theorem runOut_keepsCursor_iff_partial :
    let ops : List OutOp := [.senddata [0x41, 0x42] [.again], .handwrite [.accepted 4, .again],
      .senddata [0x43] [], .handwrite [.accepted 100]]
    KeepsCursor { conn := { connId := 1 } } ops ↔
      Attempted stepOut DrainFits { conn := { connId := 1 } } ops :=
  runOut_keepsCursor_iff rfl rfl _

/-- A buffer that never has more than 2 GiB keeps its cursor. -/
theorem keepsCursor_of_length_le {c : Connection} (hout : c.outbuffer = []) (hidx : c.idx = 0)
    {ops : List OutOp}
    (hsmall : Always stepOut (fun s => s.conn.outbuffer.length ≤ 2 ^ 31) { conn := c } ops) :
    KeepsCursor { conn := c } ops := by
  apply ((cursorFits_of_nil hout hidx).keepsCursor_iff ops).mpr
  apply hsmall.attempted
  intro s op hle
  cases op with
  | senddata resp script => trivial
  | handwrite script => exact Connection.drainsInTime_of_length_le hle

/-! ## A slow peer -/

/-- A response of which the kernel takes nothing is queued. -/
theorem Connection.senddata_again {c : Connection} {resp : List UInt8} {script : List SendOutcome}
    (hout : c.outbuffer = []) (hint : toInt (encode resp).length ≠ -1) :
    c.senddata resp (.again :: script) = some (c.queue (encode resp), [], true) := by
  have hresult : toInt (SendOutcome.result (encode resp) .again) = -1 := toInt_neg_one
  rw [senddata_cons hout, hresult, if_neg hint.symm, if_pos rfl]

/-- Responses queued while bytes are queued. -/
theorem run_queued {s : OutState} (hout : s.conn.outbuffer ≠ []) (resp : List UInt8) (k : Nat) :
    ∃ t, (List.replicate k (OutOp.senddata resp [])).foldlM stepOut s = some t ∧
      t.conn.idx = s.conn.idx ∧
      t.conn.outbuffer.length = s.conn.outbuffer.length + k * (encode resp).length := by
  induction k generalizing s with
  | zero => exact ⟨s, rfl, rfl, by simp⟩
  | succ k ih =>
    have hcall := Connection.senddata_queued hout resp []
    obtain ⟨t, hrun, hidx, hlen⟩ := ih
      (s := ⟨s.conn.queue (encode resp), s.kernel ++ [], s.responses ++ [resp]⟩)
      (List.append_ne_nil_of_left_ne_nil hout _)
    refine ⟨t, ?_, hidx, ?_⟩
    · rw [List.replicate_succ, List.foldlM_cons, stepOut, hcall]
      exact hrun
    · rw [hlen]
      simp only [Connection.queue, Connection.setEvent, List.length_append]
      ring

/-- A call that sends a part of the queue: the cursor moves, and the buffer stays. -/
theorem Connection.handwrite_part {c : Connection} {n : Nat} (hcursor : c.Cursor)
    (hn : n < c.unsent.length) (hint : c.idx + n < 2 ^ 31) :
    c.handwrite [.accepted n, .again] =
      some ({ c with idx := c.idx + n }, c.unsent.take n ++ [], true) := by
  have hout : c.outbuffer ≠ [] := by
    intro hnil
    rw [unsent_of_nil hnil] at hn
    exact absurd hn (Nat.not_lt_zero n)
  have hnonneg := hcursor.idx_nonneg
  have hnext := (hcursor.advance hn).inside hout
  rw [handwrite, if_neg hout, hcursor.writeLoop_part hout hn, toInt_of_lt (by omega) hint,
    writeLoop, if_neg hnext]
  rfl

theorem run_parts {s : OutState} {n k : Nat} (hcursor : s.conn.Cursor)
    (hint : s.conn.idx + k * n < 2 ^ 31)
    (hpart : s.conn.idx + k * n < s.conn.outbuffer.length) :
    ∃ t, (List.replicate k (OutOp.handwrite [.accepted n, .again])).foldlM stepOut s = some t ∧
      CursorFits t ∧ t.conn.idx = s.conn.idx + k * n ∧ t.conn.outbuffer = s.conn.outbuffer := by
  induction k generalizing s with
  | zero => exact ⟨s, rfl, ⟨hcursor, by omega⟩, by simp, rfl⟩
  | succ k ih =>
    have hsum : s.conn.idx + (k + 1 : Nat) * n = s.conn.idx + n + k * n := by
      push_cast
      ring
    have hrest : (0 : Int) ≤ k * n := by positivity
    rw [hsum] at hint hpart ⊢
    have hnonneg := hcursor.idx_nonneg
    have hlen : s.conn.unsent.length = s.conn.outbuffer.length - s.conn.idx.toNat :=
      List.length_drop
    have hn : n < s.conn.unsent.length := by omega
    have hcall := Connection.handwrite_part hcursor hn (by omega)
    obtain ⟨t, hrun, hfits, hidx', hbuffer⟩ := ih
      (s := { s with
        conn := { s.conn with idx := s.conn.idx + n }
        kernel := s.kernel ++ (s.conn.unsent.take n ++ []) })
      (hcursor.advance hn) hint hpart
    refine ⟨t, ?_, hfits, hidx', hbuffer⟩
    rw [List.replicate_succ, List.foldlM_cons, stepOut, hcall]
    exact hrun

/-- 2049 responses of 1 MiB to a peer that reads nothing until they are queued, and then 1 MiB
at a time. -/
def slowPeer (resp : List UInt8) : List OutOp :=
  .senddata resp [.again] :: (List.replicate 2048 (.senddata resp []) ++
    List.replicate 2048 (.handwrite [.accepted 1048576, .again]))

/-- The last addition gives `2 ^ 31`. -/
theorem not_keepsCursor_slowPeer {resp : List UInt8} (hresp : resp.length = 1048576) :
    ¬ KeepsCursor { conn := { connId := 1 } } (slowPeer resp) := by
  rintro ⟨-, hsums⟩
  have hlength : (encode resp).length = 1048580 := by rw [length_encode, hresp]
  -- the first response is queued, the others behind it
  have hfirst : stepOut { conn := { connId := 1 } } (.senddata resp [.again]) =
      some ⟨Connection.queue { connId := 1 } (encode resp), [], [resp]⟩ := by
    have hint : toInt (encode resp).length ≠ -1 := by
      rw [hlength, toInt_of_lt] <;> norm_num
    rw [stepOut, Connection.senddata_again rfl hint]
    rfl
  have hnil : (Connection.queue { connId := 1 } (encode resp)).outbuffer ≠ [] :=
    Connection.encode_ne_nil resp
  obtain ⟨t, hqueued, hidx, hlen⟩ := run_queued
    (s := ⟨Connection.queue { connId := 1 } (encode resp), [], [resp]⟩) hnil resp 2048
  have hparts := (hsums.2 _ hfirst).of_append hqueued
  have hbuffer : t.conn.outbuffer.length = 2049 * 1048580 := by
    rw [hlen, hlength]
    simp [Connection.queue, Connection.setEvent, hlength]
  -- all but the last MiB of the first 2 GiB are sent
  have hidx0 : t.conn.idx = 0 := hidx
  have hcursor : t.conn.Cursor := ⟨hidx0.ge, fun _ => by omega, fun _ => hidx0⟩
  rw [List.replicate_succ'] at hparts
  obtain ⟨u, hsent, hfits, hidxu, hsame⟩ := run_parts (s := t) (n := 1048576) (k := 2047) hcursor
    (by rw [hidx0]; norm_num) (by rw [hidx0, hbuffer]; norm_num)
  -- the next MiB is neither below 2 GiB nor the end of the buffer
  have hlast := (hfits.sumsFit_iff _).mp (hparts.of_append hsent).1
  have hsum := hlast [1048576] (List.prefix_refl _)
  rw [hsame, hbuffer, hidxu, hidx0] at hsum
  norm_num at hsum

theorem runOut_not_keepsCursor :
    ¬ KeepsCursor { conn := { connId := 1 } } (slowPeer (List.replicate 1048576 0x41)) :=
  not_keepsCursor_slowPeer List.length_replicate

end ServiceInfra.Net
