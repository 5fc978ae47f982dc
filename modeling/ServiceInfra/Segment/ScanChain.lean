import ServiceInfra.Library.Chain
import ServiceInfra.Segment.Recovery

/-!
# What a scan accepts

The abstract reading of a segment: from offset 32 and epoch 0, frame after frame that
`check_frame` accepts at the expected offset with the epoch of the frame before. The
scan computes the longest such chain, whatever its buffer held, and calls the end of
the file clean, torn or corrupt by what stands after it.

Main results:
- `scanTurn_accepted`, `scanTurn_rejected`: one turn against one step of the chain
- `segmentScanner_chain`: soundness and completeness of the scan
-/

namespace ServiceInfra

open Library
open Net (messagemaxlen messagemaxlen_toNat)

/-! ## Chains of frames -/

/-- A frame found in a file. -/
structure ScannedFrame where
  /-- Its position in the file. -/
  pos : Nat
  len : UInt32
  epoch : UInt32
  deriving DecidableEq, Repr

/-- One step of the chain: the frame that `check_frame` accepts at a position after a
frame of a given epoch, with the position and the epoch after it. -/
def nextFrame (Z : Zlib) (base : UInt64) (file : List UInt8) (at_ : Nat × UInt32) :
    Option (ScannedFrame × (Nat × UInt32)) :=
  let result := checkFrame Z (file.drop at_.1) (base + UInt64.ofNat at_.1 - 32) at_.2
  match result.kind with
  | .valid =>
      some (⟨at_.1, result.len, result.epoch⟩, (at_.1 + (result.len.toNat + 20), result.epoch))
  | _ => none

/-- The epoch of the last frame, 0 when there is none. -/
def lastEpochOf (frames : List ScannedFrame) : UInt32 :=
  (frames.getLast?.map ScannedFrame.epoch).getD 0

section NextFrame

variable {Z : Zlib} {base : UInt64} {file : List UInt8}

theorem nextFrame_of_accepted {p : Nat} {e : UInt32}
    (h : FrameAccepted Z (file.drop p) (base + UInt64.ofNat p - 32) e) :
    nextFrame Z base file (p, e) =
      some (⟨p, frameLen (file.drop p), frameEpoch (file.drop p)⟩,
        (p + ((frameLen (file.drop p)).toNat + 20), frameEpoch (file.drop p))) := by
  simp only [nextFrame, h.checkFrame_eq]

theorem nextFrame_eq_none_iff {p : Nat} {e : UInt32} :
    nextFrame Z base file (p, e) = none ↔
      ¬ FrameAccepted Z (file.drop p) (base + UInt64.ofNat p - 32) e := by
  rw [← checkFrame_valid_iff]
  unfold nextFrame
  simp only
  split
  · rename_i h
    simp [h]
  · rename_i h
    simpa using h

theorem nextFrame_eq_some {p : Nat} {e : UInt32} {f : ScannedFrame} {t : Nat × UInt32}
    (h : nextFrame Z base file (p, e) = some (f, t)) :
    FrameAccepted Z (file.drop p) (base + UInt64.ofNat p - 32) e ∧
      f = ⟨p, frameLen (file.drop p), frameEpoch (file.drop p)⟩ ∧
      t = (p + ((frameLen (file.drop p)).toNat + 20), frameEpoch (file.drop p)) := by
  -- the step succeeded, so the frame was accepted
  have ha : FrameAccepted Z (file.drop p) (base + UInt64.ofNat p - 32) e := by
    by_contra hn
    rw [nextFrame_eq_none_iff.mpr hn] at h
    cases h
  rw [nextFrame_of_accepted ha] at h
  simp only [Option.some.injEq, Prod.mk.injEq] at h
  exact ⟨ha, h.1.symm, h.2.symm⟩

/-- A frame moves the chain forward. -/
theorem nextFrame_pos_lt (s : Nat × UInt32) (f : ScannedFrame) (t : Nat × UInt32)
    (h : nextFrame Z base file s = some (f, t)) : s.1 < t.1 := by
  obtain ⟨-, -, rfl⟩ := nextFrame_eq_some h
  simp only
  omega

/-- A chain never goes back. -/
theorem chain_start_le {s t : Nat × UInt32} {frames : List ScannedFrame}
    (h : Chain (nextFrame Z base file) s frames t) : s.1 ≤ t.1 := by
  have hle := h.measure_le nextFrame_pos_lt
  omega

/-- Nothing is accepted at the end of the file. -/
theorem nextFrame_end (e : UInt32) : nextFrame Z base file (file.length, e) = none := by
  refine nextFrame_eq_none_iff.mpr fun ha => ?_
  have hcomplete := ha.complete
  rw [List.drop_length, List.length_nil, frameHead] at hcomplete
  omega

/-- The second component of a chain's end is the epoch of its last frame. -/
theorem chain_epoch {frames : List ScannedFrame} {p q : Nat} {e e' : UInt32}
    (h : Chain (nextFrame Z base file) (p, e) frames (q, e')) :
    e' = (frames.getLast?.map ScannedFrame.epoch).getD e := by
  -- along the chain, from any epoch in front of it
  generalize hs : (p, e) = s at h
  generalize ht : (q, e') = t at h
  induction h generalizing p e with
  | nil s =>
    cases hs
    cases ht
    rfl
  | @cons s s' t f frames hnext htail ih =>
    subst hs
    obtain ⟨-, rfl, rfl⟩ := nextFrame_eq_some hnext
    rw [ih rfl ht]
    cases frames with
    | nil => rfl
    | cons g gs => rfl

end NextFrame

/-! ## One turn against one step -/

/-- What stands at the end of a torn file: less than a frame header, or a header whose
payload is cut off. -/
def IncompleteTail (rest : List UInt8) : Prop :=
  rest.length < 20 ∨ frameLen rest ≤ messagemaxlen ∧ rest.length < 20 + (frameLen rest).toNat

instance (rest : List UInt8) : Decidable (IncompleteTail rest) :=
  inferInstanceAs (Decidable (_ ∨ _))

namespace ScanState

/-- The state after a faultless turn that accepted the frame at the front of the rest. -/
def moved (s : ScanState) (file : List UInt8) (base : UInt64) : ScanState :=
  { s.afterRead file with ans := { s.ans with corruptAt := .atLen } }.accept base
    (frameLen (s.rest file)).toNat
    { kind := .valid, epoch := frameEpoch (s.rest file), len := frameLen (s.rest file) }

variable (s : ScanState) (file : List UInt8) (base : UInt64)

@[simp] theorem moved_offset :
    (s.moved file base).offset = s.offset + ((frameLen (s.rest file)).toNat + 20) := rfl

@[simp] theorem moved_prevEpoch : (s.moved file base).prevEpoch = frameEpoch (s.rest file) := rfl

@[simp] theorem moved_buf :
    (s.moved file base).buf = stored s.buf (scanWindow (s.rest file)) := rfl

end ScanState

section Turn

variable {Z : Zlib} {file : List UInt8} {base : UInt64} {s : ScanState}

/-- A turn at an accepted frame moves past it, and leaves when that is the end of the file. -/
theorem scanTurn_accepted
    (h : FrameAccepted Z (s.rest file) (s.expected base) s.prevEpoch) :
    scanTurn Z file base (fun _ => .full) s =
      if (s.moved file base).offset = file.length then
        .inr ({ (s.moved file base).ans with kind := .clean },
          (s.moved file base).toSegmentRecovery)
      else .inl (s.moved file base) := by
  have hcomplete := h.complete
  unfold frameHead at hcomplete
  -- the frame is complete, so the length field was read and no test before `check_frame` fails
  have hseen : seenLen s.buf (s.rest file) = frameLen (s.rest file) :=
    seenLen_eq_frameLen (by omega) _
  have hor : ¬ ((s.rest file).length < 20 ∨
      (s.rest file).length < 20 + (frameLen (s.rest file)).toNat) := by omega
  rw [scanTurn_full]
  simp only [hseen, if_neg (UInt32.not_lt.mpr h.len_le), if_neg hor]
  rw [h.checkFrame_eq]
  rfl

/-- A turn at anything else leaves: torn, at the end of an incomplete tail, or corrupt. -/
theorem scanTurn_rejected
    (h : ¬ FrameAccepted Z (s.rest file) (s.expected base) s.prevEpoch) :
    ∃ ans r, scanTurn Z file base (fun _ => .full) s = .inr (ans, r) ∧
      (ans.kind = .corrupt ∨
        ans.kind = .tornTail ∧ ans.vaildEnd = s.offset ∧ ans.lastEpoch = s.ans.lastEpoch ∧
          IncompleteTail (s.rest file)) := by
  rw [scanTurn_full]
  simp only
  split
  · -- a length above the limit
    exact ⟨_, _, rfl, .inl rfl⟩
  · rename_i hbig
    split
    · -- too few bytes for a header, or for the payload it announces
      rename_i hshort
      refine ⟨_, _, rfl, .inr ⟨rfl, rfl, rfl, ?_⟩⟩
      by_cases h20 : (s.rest file).length < 20
      · exact .inl h20
      · have hseen : seenLen s.buf (s.rest file) = frameLen (s.rest file) :=
          seenLen_eq_frameLen (by omega) _
        rw [hseen] at hbig hshort
        exact .inr ⟨UInt32.not_lt.mp hbig, by omega⟩
    · rename_i hlong
      have hseen : seenLen s.buf (s.rest file) = frameLen (s.rest file) :=
        seenLen_eq_frameLen (by omega) _
      rw [hseen] at hlong
      -- a complete frame: `check_frame` found it corrupt
      have hvalid : (checkFrame Z (s.rest file) (s.expected base) s.prevEpoch).kind ≠ .valid :=
        fun hv => h (checkFrame_valid_iff.mp hv)
      have htorn : (checkFrame Z (s.rest file) (s.expected base) s.prevEpoch).kind ≠ .torn :=
        checkFrame_ne_torn (by rw [frameHead]; omega)
      simp only [ScanState.afterRead]
      split
      · exact ⟨_, _, rfl, .inl rfl⟩
      · rename_i hk
        exact absurd hk htorn
      · rename_i hk
        exact absurd hk hvalid

end Turn

/-! ## The whole scan -/

/-- A file that begins with a valid header of a nonzero base offset. -/
structure HasHead (Z : Zlib) (file : List UInt8) (base : UInt64) : Prop where
  len_le : 32 ≤ file.length
  valid : ∃ wall, compareMagicCrc Z (file.take 32) = some (base, wall)
  base_ne : base ≠ 0

theorem HasHead.readSegment32 {Z : Zlib} {file : List UInt8} {base : UInt64}
    (h : HasHead Z file base) : readSegment32 Z file .full = base := by
  obtain ⟨wall, hwall⟩ := h.valid
  have hlen : (file.take 32).length = 32 := by
    rw [List.length_take]
    have := h.len_le
    omega
  simp only [ServiceInfra.readSegment32, pread, List.drop_zero, hlen, ne_eq, not_true_eq_false,
    if_false, hwall]

theorem HasHead.of_header {Z : Zlib} {header : List UInt8} {base wall : UInt64}
    (hlen : header.length = 32) (hvalid : compareMagicCrc Z header = some (base, wall))
    (hbase : base ≠ 0) (body : List UInt8) : HasHead Z (header ++ body) base where
  len_le := by
    rw [List.length_append]
    omega
  valid := ⟨wall, by rw [List.take_left' hlen, hvalid]⟩
  base_ne := hbase

/-- The scan's first state. -/
def scanStart (inteval : ℕ+) (buf : List UInt8) : ScanState :=
  { SegmentRecovery.fresh inteval buf with }

theorem segmentScanner_eq {Z : Zlib} {file : List UInt8} {base : UInt64}
    (h : HasHead Z file base) (inteval : ℕ+) (buf : List UInt8) :
    (SegmentRecovery.fresh inteval buf).segmentScanner Z file {} =
      (scanLoop Z file base fun _ => .full).exec (scanStart inteval buf) := by
  unfold SegmentRecovery.segmentScanner
  simp only [h.readSegment32, h.base_ne, if_false, Bool.true_eq_false]
  rfl

section Scan

variable (Z : Zlib) (file : List UInt8) (base : UInt64)

/-- The loop invariant: what was accepted so far is a chain, and some of the file is left
unless nothing was read yet. -/
structure ScanInv (s : ScanState) : Prop where
  chain : ∃ frames, Chain (nextFrame Z base file) (32, 0) frames (s.offset, s.prevEpoch) ∧
    (frames = [] ∨ s.offset < file.length)
  lastEpoch_eq : s.ans.lastEpoch = s.prevEpoch

/-- How a scan ends: at the end of a chain of frames, clean when that is the end of the
file, and otherwise where no frame is accepted. -/
inductive ScanResult : ScanEnd → Prop where
  | clean {ans : ScanEnd} (frames : List ScannedFrame) :
      ans.kind = .clean → frames ≠ [] → ans.vaildEnd = file.length →
      Chain (nextFrame Z base file) (32, 0) frames (file.length, ans.lastEpoch) →
      ScanResult ans
  | torn {ans : ScanEnd} (frames : List ScannedFrame) :
      ans.kind = .tornTail →
      Chain (nextFrame Z base file) (32, 0) frames (ans.vaildEnd, ans.lastEpoch) →
      nextFrame Z base file (ans.vaildEnd, ans.lastEpoch) = none →
      IncompleteTail (file.drop ans.vaildEnd) →
      (frames = [] ∨ ans.vaildEnd < file.length) →
      ScanResult ans
  | corrupt {ans : ScanEnd} (frames : List ScannedFrame) (p : Nat) (e : UInt32) :
      ans.kind = .corrupt →
      Chain (nextFrame Z base file) (32, 0) frames (p, e) →
      nextFrame Z base file (p, e) = none →
      (frames = [] ∨ p < file.length) →
      ScanResult ans

variable {Z file base}

theorem scanInv_start (inteval : ℕ+) (buf : List UInt8) :
    ScanInv Z file base (scanStart inteval buf) :=
  ⟨⟨[], .nil _, .inl rfl⟩, rfl⟩

/-- One turn keeps the invariant, or ends the scan as a `ScanResult`. -/
theorem ScanInv.turn {s : ScanState} (h : ScanInv Z file base s) :
    (∃ s', scanTurn Z file base (fun _ => .full) s = .inl s' ∧ ScanInv Z file base s') ∨
      ∃ ans r, scanTurn Z file base (fun _ => .full) s = .inr (ans, r) ∧
        ScanResult Z file base ans := by
  obtain ⟨⟨frames, hchain, hleft⟩, hlast⟩ := h
  -- the turn follows the next step of the chain
  by_cases ha : FrameAccepted Z (s.rest file) (s.expected base) s.prevEpoch
  · have hnext : Chain (nextFrame Z base file) (32, 0) (frames ++ [_])
        ((s.moved file base).offset, (s.moved file base).prevEpoch) :=
      hchain.snoc (nextFrame_of_accepted ha)
    -- the frame lies inside the file, so past it the scan is not past the end
    have hle : (s.moved file base).offset ≤ file.length := by
      have hcomplete := ha.complete
      rw [ScanState.rest, List.length_drop] at hcomplete
      simp only [ScanState.moved_offset, frameHead, ScanState.rest] at hcomplete ⊢
      omega
    rw [scanTurn_accepted ha]
    split
    · rename_i hend
      exact .inr ⟨_, _, rfl, .clean _ rfl (by simp) hend (hend ▸ hnext)⟩
    · rename_i hend
      exact .inl ⟨_, rfl, ⟨_, hnext, .inr (lt_of_le_of_ne hle hend)⟩, rfl⟩
  · -- nothing is accepted here, so the chain cannot go on
    have hstuck : nextFrame Z base file (s.offset, s.prevEpoch) = none :=
      nextFrame_eq_none_iff.mpr ha
    obtain ⟨ans, r, hturn, hkind⟩ := scanTurn_rejected ha
    refine .inr ⟨ans, r, hturn, ?_⟩
    rcases hkind with hcorrupt | ⟨htorn, hend, hepoch, htail⟩
    · exact .corrupt _ _ _ hcorrupt hchain hstuck hleft
    · rw [hlast] at hepoch
      exact .torn _ htorn (hend ▸ hepoch ▸ hchain) (hend ▸ hepoch ▸ hstuck) (hend ▸ htail)
        (hend ▸ hleft)

theorem scanLoop_result {s : ScanState} (h : ScanInv Z file base s) :
    ScanResult Z file base ((scanLoop Z file base fun _ => .full).exec s).1 := by
  refine Loop.exec_induction _ (ScanInv Z file base)
    (fun r : ScanEnd × SegmentRecovery => ScanResult Z file base r.1) ?_ h
  intro s hs
  rcases hs.turn with hgoes | ⟨ans, r, hleaves, hres⟩
  · exact .inl hgoes
  · exact .inr ⟨(ans, r), hleaves, hres⟩

/-- A faultless scan behind a valid header ends as a `ScanResult`. -/
theorem segmentScanner_result (hhead : HasHead Z file base) (inteval : ℕ+) (buf : List UInt8) :
    ScanResult Z file base ((SegmentRecovery.fresh inteval buf).segmentScanner Z file {}).1 := by
  rw [segmentScanner_eq hhead]
  exact scanLoop_result (scanInv_start inteval buf)

/-- A nonempty chain to the end of the file leaves no other end than that. -/
theorem chain_end_of_stuck {frames whole : List ScannedFrame} {p : Nat} {e e' : UInt32}
    (h : Chain (nextFrame Z base file) (32, 0) frames (p, e))
    (hstuck : nextFrame Z base file (p, e) = none) (hne : whole ≠ [])
    (hwhole : Chain (nextFrame Z base file) (32, 0) whole (file.length, e')) :
    frames ≠ [] ∧ file.length ≤ p := by
  -- the stuck chain extends the whole one, which already ends at the end of the file
  obtain ⟨tail, rfl, htail⟩ := h.extends_of_stuck hstuck hwhole
  have hle := htail.measure_le nextFrame_pos_lt
  exact ⟨by simp [hne], by simp only at hle; omega⟩

theorem ScanResult.clean_of_chain {ans : ScanEnd} (h : ScanResult Z file base ans)
    {frames : List ScannedFrame} {e : UInt32} (hne : frames ≠ [])
    (hchain : Chain (nextFrame Z base file) (32, 0) frames (file.length, e)) :
    ans.kind = .clean ∧ ans.vaildEnd = file.length ∧ ans.lastEpoch = e := by
  cases h with
  | clean _ hkind _ hvaild hscanned =>
    -- both chains are stuck at the end of the file, so they are one
    have hsame := hscanned.stuck_unique (nextFrame_end _) hchain (nextFrame_end _)
    exact ⟨hkind, hvaild, congrArg Prod.snd hsame.2⟩
  -- the other ends are in front of the end of the file
  | torn _ _ hscanned hstuck _ hleft =>
    obtain ⟨hnonempty, hle⟩ := chain_end_of_stuck hscanned hstuck hne hchain
    rcases hleft with hnil | hlt
    · exact absurd hnil hnonempty
    · omega
  | corrupt _ _ _ _ hscanned hstuck hleft =>
    obtain ⟨hnonempty, hle⟩ := chain_end_of_stuck hscanned hstuck hne hchain
    rcases hleft with hnil | hlt
    · exact absurd hnil hnonempty
    · omega

end Scan

/-- Soundness and completeness of the scan on arbitrary bytes behind a valid header. The
loop leaves after at most as many turns as the file has bytes. The scan is clean exactly
when a nonempty chain of accepted frames reaches the end of the file, and then reports
that end and the last epoch. When it finds a torn tail, it reports the end of the longest
chain and its last epoch, and what follows is not a complete frame. -/
theorem segmentScanner_chain {Z : Zlib} {file : List UInt8} {base : UInt64}
    (hhead : HasHead Z file base) (inteval : ℕ+) (buf : List UInt8) :
    let r := ((SegmentRecovery.fresh inteval buf).segmentScanner Z file {}).1
    (∃ n ≤ file.length, ∃ r', (scanLoop Z file base fun _ => .full).turns n
        (scanStart inteval buf) = some (r, r')) ∧
      (r.kind = .clean ↔ ∃ frames e, frames ≠ [] ∧
        Chain (nextFrame Z base file) (32, 0) frames (file.length, e)) ∧
      (∀ frames e, frames ≠ [] →
        Chain (nextFrame Z base file) (32, 0) frames (file.length, e) →
        r.vaildEnd = file.length ∧ r.lastEpoch = lastEpochOf frames) ∧
      (r.kind = .tornTail → ∃ frames,
        Chain (nextFrame Z base file) (32, 0) frames (r.vaildEnd, r.lastEpoch) ∧
          r.lastEpoch = lastEpochOf frames ∧
          (∀ frames' p e, Chain (nextFrame Z base file) (32, 0) frames' (p, e) →
            p ≤ r.vaildEnd) ∧
          IncompleteTail (file.drop r.vaildEnd)) := by
  intro r
  -- the scan is the loop from its first state, and it ends as a `ScanResult`
  have hexec : r = ((scanLoop Z file base fun _ => .full).exec (scanStart inteval buf)).1 := by
    simp only [r, segmentScanner_eq hhead]
  have hres : ScanResult Z file base r := segmentScanner_result hhead inteval buf
  refine ⟨⟨file.length, le_rfl,
    ((scanLoop Z file base fun _ => .full).exec (scanStart inteval buf)).2, ?_⟩,
    ⟨?_, ?_⟩, ?_, ?_⟩
  · have hturns : (scanLoop Z file base fun _ => .full).turns file.length
        (scanStart inteval buf) =
          some ((scanLoop Z file base fun _ => .full).exec (scanStart inteval buf)) := by
      -- every turn but the last moves forward by a frame header at least
      refine Loop.turns_eq_some_exec _ ?_
      have hlen := hhead.len_le
      show file.length - 32 < file.length
      omega
    rw [hturns, hexec]
  · intro hclean
    cases hres with
    | clean _ _ hne _ hchain => exact ⟨_, _, hne, hchain⟩
    | torn _ hkind => rw [hkind] at hclean; cases hclean
    | corrupt _ _ _ hkind => rw [hkind] at hclean; cases hclean
  · rintro ⟨frames, e, hne, hchain⟩
    exact (hres.clean_of_chain hne hchain).1
  · intro frames e hne hchain
    obtain ⟨-, hvaild, hepoch⟩ := hres.clean_of_chain hne hchain
    exact ⟨hvaild, hepoch.trans (chain_epoch hchain)⟩
  · intro htorn
    cases hres with
    | clean _ hkind => rw [hkind] at htorn; cases htorn
    | corrupt _ _ _ hkind => rw [hkind] at htorn; cases htorn
    | torn frames _ hchain hstuck htail hleft =>
      refine ⟨frames, hchain, chain_epoch hchain, ?_, htail⟩
      intro frames' p e hother
      -- every other chain is a part of the one that is stuck here
      obtain ⟨tail, -, htail'⟩ := hchain.extends_of_stuck hstuck hother
      have hle := htail'.measure_le nextFrame_pos_lt
      simp only at hle
      omega

theorem segmentScanner_chain_written :
    let file := writeSegheadBg zlib 1 1000 0 ++ encodeFrame zlib 1000 1 [0x41]
    let r := ((SegmentRecovery.fresh 4 []).segmentScanner zlib file {}).1
    r.kind = .clean ↔ ∃ frames e, frames ≠ [] ∧
      Chain (nextFrame zlib 1000 file) (32, 0) frames (file.length, e) :=
  (segmentScanner_chain (HasHead.of_header rfl (compareMagicCrc_writeSegheadBg zlib 1000 0)
    (by decide) _) 4 []).2.1

end ServiceInfra
