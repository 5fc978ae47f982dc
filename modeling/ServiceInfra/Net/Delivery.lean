import ServiceInfra.Net.CursorOverflow

/-!
# What was sent and what is queued

The bytes that the kernel took of the output of a connection, followed by those that wait in
its buffer, should be the responses passed to it, in order (`Delivers`). A direct send keeps
it that way exactly where the conversion to `int` does no harm to its outcome, and `handwrite`
exactly where an `int` holds the cursor. How many bytes wait is then told by the outcomes of
the `send` calls alone.

Main results:
- `Delivers.handwrite_iff`, `Delivers.senddata_iff`: when a call keeps the order
- `Connection.handwrite_unsent`, `Connection.senddata_unsent`: how many bytes a call leaves
-/

namespace ServiceInfra.Net

namespace Connection

/-- The bytes of a direct send of `len` bytes that the kernel does not take. -/
def refused (len : Nat) : List SendOutcome → Nat
  | .accepted n :: _ => len - n
  -- the call is made again
  | .intr :: script => refused len script
  | _ => len

variable {c c' : Connection} {resp taken : List UInt8} {script : List SendOutcome} {ok : Bool}

/-! ## The queue -/

/-- A cursor that the conversion to `int` moves goes back: no byte is left out. -/
theorem unsent_le_writeLoop (h : c.writeLoop script = some (c', taken, ok)) :
    c.unsent.length ≤ (taken ++ c'.unsent).length := by
  induction script generalizing c taken with
  | nil => cases h
  | cons o script ih =>
    rw [writeLoop] at h
    split at h
    · cases h
    · rename_i hrange
      cases o with
      | accepted n =>
        dsimp only at h
        split at h
        · cases h
          rw [List.length_append]
          exact Nat.le_add_right _ _
        · obtain ⟨⟨d, taken', ok'⟩, hloop, heq⟩ := Option.map_eq_some_iff.mp h
          cases heq
          have hrest := ih hloop
          have hback := toInt_le_of_nonneg (n := c.idx +
            SendOutcome.result (c.outbuffer.drop c.idx.toNat) (.accepted n))
          simp only [unsent, SendOutcome.result, SendOutcome.taken, List.length_append,
            List.length_take, List.length_drop] at hrest hback ⊢
          omega
      | again =>
        cases h
        exact le_rfl
      | intr =>
        cases h
        exact le_rfl
      | error =>
        cases h
        exact le_rfl

/-- The loop of `handwrite` keeps the order exactly where an `int` holds the cursor. -/
theorem writeLoop_order_iff (hcursor : c.Cursor) (hidx : c.idx < 2 ^ 31) (hout : c.outbuffer ≠ [])
    (h : c.writeLoop script = some (c', taken, ok)) :
    taken ++ c'.unsent = c.unsent ↔ c.DrainsInTime script := by
  -- along the `send` calls, as far as the kernel accepts a part of what is left
  induction script generalizing c taken with
  | nil => cases h
  | cons o script ih =>
    have hinside := hcursor.inside hout
    cases o with
    | accepted n =>
      have hnonneg := hcursor.idx_nonneg
      have hlen : c.unsent.length = c.outbuffer.length - c.idx.toNat := List.length_drop
      by_cases hall : c.unsent.length ≤ n
      · rw [hcursor.writeLoop_rest hout hall] at h
        cases h
        rw [unsent_of_nil c.sentAll_fst.1, List.append_nil, drainsInTime_cons hidx]
        exact iff_of_true rfl (drainsInTime_of_le (by simp only; omega))
      · have hpart : n < c.unsent.length := Nat.lt_of_not_le hall
        rw [hcursor.writeLoop_part hout hpart] at h
        obtain ⟨⟨d, taken', ok'⟩, hloop, heq⟩ := Option.map_eq_some_iff.mp h
        cases heq
        by_cases hfits : c.idx + n < 2 ^ 31
        · rw [toInt_of_lt (by omega) hfits] at hloop
          rw [drainsInTime_cons hidx, ← ih (hcursor.advance hpart) hfits hout hloop,
            List.append_assoc]
          nth_rewrite 2 [← hcursor.take_unsent_advance n]
          exact (List.append_cancel_left_eq _ _ _).to_iff
        · -- the cursor has gone back, and bytes are sent once more
          refine iff_of_false (fun horder => ?_) fun hdrain =>
            hfits (hdrain.sum_lt hidx hcursor hpart)
          have hlonger := unsent_le_writeLoop hloop
          have hback : toInt (c.idx + n) < c.idx + n := by
            have hlt := toInt_lt (c.idx + n)
            omega
          have hsame := congrArg List.length horder
          simp only [unsent, List.length_append, List.length_take, List.length_drop]
            at hlonger hsame hpart
          omega
    | again =>
      rw [writeLoop, if_neg hinside] at h
      cases h
      exact iff_of_true rfl (drainsInTime_of_nil hidx rfl)
    | intr =>
      rw [writeLoop, if_neg hinside] at h
      cases h
      exact iff_of_true rfl (drainsInTime_of_nil hidx rfl)
    | error =>
      rw [writeLoop, if_neg hinside] at h
      cases h
      exact iff_of_true rfl (drainsInTime_of_nil hidx rfl)

theorem handwrite_order_iff (hcursor : c.Cursor) (hidx : c.idx < 2 ^ 31)
    (h : c.handwrite script = some (c', taken, ok)) :
    taken ++ c'.unsent = c.unsent ↔ c.DrainsInTime script := by
  unfold handwrite at h
  split at h
  · rename_i hout
    cases h
    refine iff_of_true rfl (drainsInTime_of_le ?_)
    rw [hout]
    exact hcursor.idx_nonneg
  · rename_i hout
    exact writeLoop_order_iff hcursor hidx hout h

theorem writeLoop_unsent (hcursor : c.Cursor) (hidx : c.idx < 2 ^ 31) (hout : c.outbuffer ≠ [])
    (hdrain : c.DrainsInTime script) (h : c.writeLoop script = some (c', taken, ok)) :
    c'.unsent.length = c.unsent.length - (acceptedCounts script).sum := by
  -- along the `send` calls: each count is taken off
  induction script generalizing c taken with
  | nil => cases h
  | cons o script ih =>
    have hinside := hcursor.inside hout
    cases o with
    | accepted n =>
      rw [acceptedCounts, List.sum_cons]
      by_cases hall : c.unsent.length ≤ n
      · rw [hcursor.writeLoop_rest hout hall] at h
        cases h
        rw [unsent_of_nil c.sentAll_fst.1, List.length_nil]
        omega
      · have hpart : n < c.unsent.length := Nat.lt_of_not_le hall
        have hnonneg := hcursor.idx_nonneg
        have hfits := hdrain.sum_lt hidx hcursor hpart
        rw [hcursor.writeLoop_part hout hpart, toInt_of_lt (by omega) hfits] at h
        obtain ⟨⟨d, taken', ok'⟩, hloop, heq⟩ := Option.map_eq_some_iff.mp h
        cases heq
        have hrest := ih (hcursor.advance hpart) hfits hout ((drainsInTime_cons hidx).mp hdrain)
          hloop
        have hsplit := congrArg List.length (hcursor.take_unsent_advance n)
        rw [List.length_append, List.length_take] at hsplit
        omega
    | again =>
      rw [writeLoop, if_neg hinside] at h
      cases h
      rfl
    | intr =>
      rw [writeLoop, if_neg hinside] at h
      cases h
      rfl
    | error =>
      rw [writeLoop, if_neg hinside] at h
      cases h
      rfl

/-- After `handwrite` so many bytes fewer wait as the kernel has accepted. -/
theorem handwrite_unsent (hcursor : c.Cursor) (hidx : c.idx < 2 ^ 31)
    (hdrain : c.DrainsInTime script) (h : c.handwrite script = some (c', taken, ok)) :
    c'.unsent.length = c.unsent.length - (acceptedCounts script).sum := by
  unfold handwrite at h
  split at h
  · rename_i hout
    cases h
    rw [unsent_of_nil hout, List.length_nil, Nat.zero_sub]
  · rename_i hout
    exact writeLoop_unsent hcursor hidx hout hdrain h

/-! ## The direct send -/

/-- After a direct send that fits the bytes wait that the kernel did not take. -/
theorem senddata_unsent (hout : c.outbuffer = []) (hidx : c.idx = 0)
    (hfits : DirectFits (encode resp).length script)
    (h : c.senddata resp script = some (c', taken, true)) :
    c'.unsent.length = refused (encode resp).length script := by
  -- along the `send` calls: only an interrupted one is made again
  induction script with
  | nil =>
    rw [senddata.eq_def] at h
    simp [hout] at h
  | cons o script ih =>
    cases o with
    | accepted n =>
      have hbytes := (senddata_accepted hout hidx h).2.mpr hfits
      have htaken : taken = (encode resp).take n := by
        rw [senddata_cons hout] at h
        simp only [SendOutcome.taken] at h
        split at h
        · cases h
          rfl
        · split at h
          · cases h
          · split at h <;> cases h
            rfl
      have hsplit := congrArg List.length hbytes
      rw [if_pos rfl, htaken, List.length_append, List.length_take] at hsplit
      rw [refused]
      omega
    | again =>
      rw [senddata_again hout hfits] at h
      cases h
      have hcursor := cursor_of_nil hout hidx
      rw [hcursor.unsent_queue, unsent_of_nil hout]
      rfl
    | intr =>
      obtain ⟨hne, hfits⟩ := hfits
      rw [senddata_cons hout] at h
      simp only [SendOutcome.result, toInt_neg_one, if_neg hne.symm, if_true] at h
      exact ih hfits h
    | error =>
      have hne : toInt (encode resp).length ≠ -1 := hfits
      rw [senddata_cons hout] at h
      simp only [SendOutcome.result, toInt_neg_one, if_neg hne.symm, if_true] at h
      cases h

end Connection

/-! ## Both together -/

/-- What was sent and what is queued are the responses, in order. -/
structure Delivers (sent : List UInt8) (resps : List (List UInt8)) (c : Connection) : Prop where
  cursor : c.Cursor
  idx_lt : c.idx < 2 ^ 31
  bytes_eq : sent ++ c.unsent = resps.flatMap encode

namespace Delivers

variable {sent taken resp : List UInt8} {resps : List (List UInt8)} {c c' : Connection}
  {script : List SendOutcome} {ok : Bool}

theorem fresh (connId : Nat) : Delivers [] [] { connId } :=
  ⟨Connection.cursor_of_nil rfl rfl, by norm_num, rfl⟩

/-- Only the buffer and its cursor matter. -/
theorem of_output (h : Delivers sent resps c) (hout : c'.outbuffer = c.outbuffer)
    (hidx : c'.idx = c.idx) : Delivers sent resps c' where
  cursor := by
    obtain ⟨hnonneg, hlt, hzero⟩ := h.cursor
    rw [← hidx] at hnonneg hlt hzero
    rw [← hout] at hlt hzero
    exact ⟨hnonneg, hlt, hzero⟩
  idx_lt := by
    rw [hidx]
    exact h.idx_lt
  bytes_eq := by
    rw [Connection.unsent, hout, hidx]
    exact h.bytes_eq

/-- With nothing queued all responses are sent. -/
theorem sent_eq (h : Delivers sent resps c) (hout : c.outbuffer = []) :
    sent = resps.flatMap encode := by
  rw [← h.bytes_eq, Connection.unsent_of_nil hout, List.append_nil]

theorem outbuffer_nil_iff (h : Delivers sent resps c) :
    c.outbuffer = [] ↔ c.unsent.length = 0 := by
  rw [List.length_eq_zero_iff]
  refine ⟨Connection.unsent_of_nil, fun hunsent => ?_⟩
  -- bytes in the buffer lie behind the cursor
  by_contra hout
  have hlt := h.cursor.idx_lt hout
  have hnonneg := h.cursor.idx_nonneg
  have hbehind := List.drop_eq_nil_iff.mp hunsent
  omega

/-- A call of `handwrite` keeps the order exactly where an `int` holds the cursor. -/
theorem handwrite_iff (h : Delivers sent resps c)
    (hcall : c.handwrite script = some (c', taken, ok)) :
    (sent ++ taken) ++ c'.unsent = resps.flatMap encode ↔ c.DrainsInTime script := by
  rw [← h.bytes_eq, List.append_assoc, List.append_cancel_left_eq]
  exact Connection.handwrite_order_iff h.cursor h.idx_lt hcall

theorem handwrite (h : Delivers sent resps c) (hdrain : c.DrainsInTime script)
    (hcall : c.handwrite script = some (c', taken, ok)) : Delivers (sent ++ taken) resps c' := by
  obtain ⟨hcursor, hidx⟩ := Connection.handwrite_cursor h.cursor h.idx_lt hdrain hcall
  exact ⟨hcursor, hidx, (h.handwrite_iff hcall).mpr hdrain⟩

/-- A response passed to `senddata` comes in order exactly where its direct send fits. -/
theorem senddata_iff (h : Delivers sent resps c)
    (hcall : c.senddata resp script = some (c', taken, true)) :
    (sent ++ taken) ++ c'.unsent = (resps ++ [resp]).flatMap encode ↔
      (c.outbuffer = [] → DirectFits (encode resp).length script) := by
  have hflat : (resps ++ [resp]).flatMap encode = resps.flatMap encode ++ encode resp := by simp
  rw [hflat, ← h.bytes_eq, List.append_assoc, List.append_assoc, List.append_cancel_left_eq]
  by_cases hout : c.outbuffer = []
  · -- nothing was queued: the response is what is sent and queued
    have hdirect := (Connection.senddata_direct hout (h.cursor.idx_eq_zero hout) hcall).2
    rw [Connection.unsent_of_nil hout, List.nil_append]
    rw [if_pos rfl] at hdirect
    rw [hdirect]
    exact ⟨fun hfits _ => hfits, fun hfits => hfits hout⟩
  · -- something was queued: the response goes behind it
    rw [Connection.senddata_queued hout] at hcall
    cases hcall
    exact iff_of_true (h.cursor.unsent_queue _) fun hnil => absurd hnil hout

theorem senddata (h : Delivers sent resps c)
    (hfits : c.outbuffer = [] → DirectFits (encode resp).length script)
    (hcall : c.senddata resp script = some (c', taken, true)) :
    Delivers (sent ++ taken) (resps ++ [resp]) c' where
  cursor := Connection.senddata_cursor h.cursor hcall
  idx_lt := by
    rw [Connection.senddata_idx hcall]
    exact h.idx_lt
  bytes_eq := (h.senddata_iff hcall).mpr hfits

end Delivers

end ServiceInfra.Net
