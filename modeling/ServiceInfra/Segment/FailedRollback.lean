import ServiceInfra.Segment.AppendFaults
import ServiceInfra.Segment.ReadErrors
import ServiceInfra.Segment.Sessions

/-!
# Rollbacks that fail

`append` and `write_len` do not look at what their `ftruncate` returns. When it fails, the
bytes of the failed append stay in the file behind the segment's offset, and a later append
that succeeds covers only the first of them. The scan of such a file passes all acknowledged
frames and then reads the remaining bytes as the next frame. `LeftSafe` is the condition,
on the calls and their outcomes, that they are nothing it would call corrupt.

Main results:
- `chain_frames`: frames laid in a file are a chain that the scan accepts
- `written_frames`: the acknowledged calls of a run as frames
- `failed_rollback_iff`: no poisoned segment exactly when `LeftSafe` holds
-/

namespace ServiceInfra

open Library
open Net (messagemaxlen messagemaxlen_toNat)

/-! ## Definitions -/

/-- Along the run, every call gives the offset at which its frame will stand. -/
def OffsetsKept (Z : Zlib) : Segment → List AppendCall → Prop
  | _, [] => True
  | s, c :: calls =>
      c.byteOff = s.baseOffset + UInt64.ofNat s.offset - 32 ∧ OffsetsKept Z (s.call Z c).1 calls

/-- The calls that pass the checks and whose writes are whole. -/
def writtenCalls (Z : Zlib) : UInt32 → List AppendCall → List AppendCall
  | _, [] => []
  | lastEpoch, c :: calls =>
      if c.Passes lastEpoch ∧ c.Written Z then c :: writtenCalls Z c.epoch calls
      else writtenCalls Z lastEpoch calls

/-- What the failed calls of a run leave behind the frames can be read: frames that
`check_frame` accepts, and behind them nothing (where a frame stands in front of it), or a
tail that is no complete frame and whose length field, as the scanner sees it, is at most
the limit. `buf` is what the scanner's buffer was made with. -/
def LeftSafe (Z : Zlib) (base : UInt64) (buf : List UInt8) (frames : List Frame)
    (calls : List AppendCall) : Prop :=
  let written := writtenCalls Z 0 calls
  let left := leftBehind Z 0 [] calls
  let before := frames.map (Frame.bytes Z) ++ written.map (AppendCall.bytes Z)
  let next := nextFrame Z (base + UInt64.ofNat (32 + before.flatten.length)) left
  ∃ more t, Chain next (0, lastCallEpoch (lastStored frames) written) more t ∧
    (t.1 = left.length ∧ (before ≠ [] ∨ more ≠ []) ∨
      next t = none ∧ IncompleteTail (left.drop t.1) ∧
        seenLen (bufferAfter left (before.getLast?.getD buf) more) (left.drop t.1) ≤ messagemaxlen)

/-- What a failed rollback must not break: the scan does not call the file corrupt, and the
acknowledged frames lie inside the valid prefix it reports. -/
structure Unpoisoned (file acked : List UInt8) (r : ScanEnd) : Prop where
  not_corrupt : r.kind ≠ .corrupt
  acked_prefix : acked <+: file.take r.vaildEnd

/-! ## Frames in a file as a chain -/

/-- The frames as the scan finds them from `pos` on. -/
def scannedFrames : Nat → List Frame → List ScannedFrame
  | _, [] => []
  | pos, f :: frames =>
      ⟨pos, UInt32.ofNat f.payload.length, f.epoch⟩ :: scannedFrames (pos + f.size) frames

/-- The epoch of the last frame, `e` when there is none. -/
def lastFrameEpoch (e : UInt32) (frames : List Frame) : UInt32 :=
  (frames.getLast?.map Frame.epoch).getD e

theorem lastFrameEpoch_cons (e : UInt32) (f : Frame) (frames : List Frame) :
    lastFrameEpoch e (f :: frames) = lastFrameEpoch f.epoch frames := by
  rw [lastFrameEpoch, lastFrameEpoch, List.getLast?_cons]
  cases frames.getLast? with
  | none => rfl
  | some last => rfl

section Frames

variable {Z : Zlib} {base : UInt64} {file rest : List UInt8}

/-- Frames that stand at their offsets, with epochs that do not go back, are accepted one
after the other. -/
theorem chain_frames {frames : List Frame} {pos : Nat} {e : UInt32}
    (hfile : file.drop pos = frameBytes Z frames ++ rest) (hplaced : Placed base pos frames)
    (hepochs : (e :: frames.map Frame.epoch).Pairwise (· ≤ ·)) :
    Chain (nextFrame Z base file) (pos, e) (scannedFrames pos frames)
      (pos + (frameBytes Z frames).length, lastFrameEpoch e frames) := by
  induction frames generalizing pos e with
  | nil => exact .nil _
  | cons f frames ih =>
    rw [frameBytes_cons, List.append_assoc] at hfile
    have hle : e ≤ f.epoch := List.rel_of_pairwise_cons hepochs List.mem_cons_self
    have ha : FrameAccepted Z (file.drop pos) (base + UInt64.ofNat pos - 32) e := by
      rw [hfile, ← hplaced.1]
      exact frameAccepted_encodeFrame Z f.payload_le hle _
    have hnext := nextFrame_of_accepted ha
    rw [hfile, f.frameLen_bytes, f.frameEpoch_bytes] at hnext
    have hsize : (UInt32.ofNat f.payload.length).toNat + 20 = f.size := by
      rw [f.size_eq_len, frameHead]
      omega
    rw [hsize] at hnext
    -- the frames behind the first stand behind it
    have hbehind : file.drop (pos + f.size) = frameBytes Z frames ++ rest := by
      rw [← List.drop_drop, hfile, List.drop_left' (f.length_bytes Z)]
    have htail := ih hbehind hplaced.2 hepochs.of_cons
    rw [frameBytes_cons, List.length_append, f.length_bytes, lastFrameEpoch_cons, ← Nat.add_assoc]
    exact .cons hnext htail

theorem Placed.append {frames gs : List Frame} {pos : Nat} (h : Placed base pos frames)
    (h' : Placed base (pos + (frameBytes Z frames).length) gs) :
    Placed base pos (frames ++ gs) := by
  induction frames generalizing pos with
  | nil => exact h'
  | cons f frames ih =>
    refine ⟨h.1, ih h.2 ?_⟩
    rw [frameBytes_cons, List.length_append, f.length_bytes, ← Nat.add_assoc] at h'
    exact h'

/-- Behind these frames the scanner's buffer starts with the last of them. -/
theorem seenLen_scannedFrames {frames : List Frame} {pos : Nat} (buf : List UInt8)
    (hfile : file.drop pos = frameBytes Z frames ++ rest) (bytes : List UInt8) :
    seenLen (bufferAfter file buf (scannedFrames pos frames)) bytes =
      seenLen ((frames.map (Frame.bytes Z)).getLast?.getD buf) bytes := by
  induction frames generalizing pos with
  | nil => rfl
  | cons f frames ih =>
    rw [frameBytes_cons, List.append_assoc] at hfile
    have hbehind : file.drop (pos + f.size) = frameBytes Z frames ++ rest := by
      rw [← List.drop_drop, hfile, List.drop_left' (f.length_bytes Z)]
    have hrest := ih hbehind
    cases frames with
    | nil =>
      -- the file goes on behind the frame, but not in its first 12 bytes
      refine seenLen_congr _ fun i hi => ?_
      show (file.drop pos).getD i 0 = (f.bytes Z).getD i 0
      have hhead := f.frameHead_le_size
      rw [frameHead] at hhead
      rw [hfile, List.getD_eq_getElem?_getD, List.getD_eq_getElem?_getD,
        List.getElem?_append_left (by rw [f.length_bytes]; omega)]
    | cons g frames =>
      have hlast : bufferAfter file buf (scannedFrames pos (f :: g :: frames)) =
          bufferAfter file buf (scannedFrames (pos + f.size) (g :: frames)) := by
        simp only [scannedFrames, bufferAfter, List.getLast?_cons_cons]
      rw [hlast, hrest]
      simp only [List.map_cons, List.getLast?_cons_cons]

end Frames

/-! ## The run -/

section Run

variable {Z : Zlib} {s : Segment} {held left : List UInt8}

/-- The calls that return true are those that pass the checks and write everything. -/
theorem ackedCalls_eq (h : s.Holds held left) (calls : List AppendCall) :
    ackedCalls Z s calls = writtenCalls Z s.lastEpoch calls := by
  induction calls generalizing s held left with
  | nil => rfl
  | cons c calls ih =>
    rw [ackedCalls, writtenCalls]
    by_cases hp : c.Passes s.lastEpoch
    · by_cases hw : c.Written Z
      · have hcall := Segment.append_written h hp hw
        have hok : (s.call Z c).2 = true := by rw [hcall]
        have hepoch : (s.call Z c).1.lastEpoch = c.epoch := by rw [hcall]
        rw [if_pos hok, if_pos (show _ ∧ _ from ⟨hp, hw⟩), ih (h.written hp hw), hepoch]
      · have hcall := Segment.append_failed h hp hw
        have hok : (s.call Z c).2 = false := by rw [hcall]
        have hepoch : (s.call Z c).1.lastEpoch = s.lastEpoch := by rw [hcall]
        have hnot : ¬ (c.Passes s.lastEpoch ∧ c.Written Z) := fun hboth => hw hboth.2
        rw [hok, if_neg Bool.false_ne_true, if_neg hnot, ih (h.failed hp hw), hepoch]
    · have hnot : ¬ (c.Passes s.lastEpoch ∧ c.Written Z) := fun hboth => hp hboth.1
      rw [Segment.call_refused hp, if_neg Bool.false_ne_true, if_neg hnot, ih h]

theorem writtenCalls_subset (lastEpoch : UInt32) (calls : List AppendCall) :
    writtenCalls Z lastEpoch calls ⊆ calls := by
  induction calls generalizing lastEpoch with
  | nil => exact List.Subset.refl _
  | cons c calls ih =>
    rw [writtenCalls]
    split
    · exact List.cons_subset_cons c (ih _)
    · exact fun c' hc' => List.mem_cons_of_mem c (ih _ hc')

/-- The acknowledged calls of a run, as frames that stand at their offsets. -/
theorem written_frames {calls : List AppendCall} (h : s.Holds held left)
    (hoffsets : OffsetsKept Z s calls) :
    ∃ gs : List Frame,
      gs.map (Frame.bytes Z) = (writtenCalls Z s.lastEpoch calls).map (AppendCall.bytes Z) ∧
      gs.map Frame.epoch = (writtenCalls Z s.lastEpoch calls).map AppendCall.epoch ∧
      Placed s.baseOffset s.offset gs ∧
      (s.lastEpoch :: gs.map Frame.epoch).Pairwise (· ≤ ·) := by
  induction calls generalizing s held left with
  | nil => exact ⟨[], rfl, rfl, trivial, List.pairwise_singleton _ _⟩
  | cons c calls ih =>
    obtain ⟨hoffset, htail⟩ := hoffsets
    rw [writtenCalls]
    by_cases hp : c.Passes s.lastEpoch
    · by_cases hw : c.Written Z
      · -- the frame of this call in front of the others
        have hcall := Segment.append_written h hp hw
        obtain ⟨gs, hbytes, hepochs, hplaced, hsorted⟩ := ih (h.written hp hw) htail
        rw [hcall] at hbytes hepochs hplaced hsorted
        simp only at hbytes hepochs hplaced hsorted
        rw [if_pos ⟨hp, hw⟩]
        refine ⟨⟨c.byteOff, c.epoch, c.payload, hp.1⟩ :: gs, ?_, ?_, ⟨hoffset, hplaced⟩, ?_⟩
        · rw [List.map_cons, List.map_cons, hbytes]
          rfl
        · rw [List.map_cons, List.map_cons, hepochs]
        · rw [List.map_cons]
          refine List.pairwise_cons.mpr ⟨?_, hsorted⟩
          intro e he
          rcases List.mem_cons.mp he with rfl | hmem
          · exact hp.2
          · exact UInt32.le_trans hp.2 (List.rel_of_pairwise_cons hsorted hmem)
      · have hcall := Segment.append_failed h hp hw
        have hrest := ih (h.failed hp hw) htail
        rw [hcall] at hrest
        rw [if_neg fun hboth => hw hboth.2]
        exact hrest
    · rw [Segment.call_refused hp] at htail
      rw [if_neg fun hboth => hp hboth.1]
      exact ih h htail

end Run

/-! ## The bytes behind the frames -/

section Left

variable {Z : Zlib} {base : UInt64} {file left : List UInt8} {n : Nat}

/-- A frame found in the bytes left, as a frame of the file. -/
def ScannedFrame.shift (n : Nat) (f : ScannedFrame) : ScannedFrame := { f with pos := n + f.pos }

/-- Reading the file from `n` on is reading what stands there, with the offsets expected
there. -/
theorem nextFrame_shift (hleft : file.drop n = left) (s : Nat × UInt32) :
    nextFrame Z base file (n + s.1, s.2) =
      (nextFrame Z (base + UInt64.ofNat n) left s).map
        (Prod.map (ScannedFrame.shift n) fun t => (n + t.1, t.2)) := by
  have hrest : file.drop (n + s.1) = left.drop s.1 := by
    rw [← hleft, List.drop_drop]
  have hexpected : base + UInt64.ofNat (n + s.1) - 32 =
      base + UInt64.ofNat n + UInt64.ofNat s.1 - 32 := by
    rw [UInt64.ofNat_add, UInt64.add_assoc]
  simp only [nextFrame, hrest, hexpected]
  split
  · simp only [Option.map_some, Prod.map, ScannedFrame.shift, Nat.add_assoc]
  · rfl

/-- The frames of a file stop well exactly when those found in the bytes left do, behind
the frames in front of them. -/
theorem stopsWell_shift (Z : Zlib) (base : UInt64) (hleft : file.drop n = left)
    (hn : n + left.length = file.length) {buf buf' : List UInt8} {pre : List ScannedFrame}
    (more : List ScannedFrame) (t : Nat × UInt32)
    (hbuf : ∀ bytes, seenLen (bufferAfter file buf pre) bytes = seenLen buf' bytes) :
    StopsWell Z base file buf (pre ++ more.map (ScannedFrame.shift n)) (n + t.1, t.2) ↔
      t.1 = left.length ∧ (pre ≠ [] ∨ more ≠ []) ∨
        nextFrame Z (base + UInt64.ofNat n) left t = none ∧ IncompleteTail (left.drop t.1) ∧
          seenLen (bufferAfter left buf' more) (left.drop t.1) ≤ messagemaxlen := by
  have hrest : file.drop (n + t.1) = left.drop t.1 := by
    rw [← hleft, List.drop_drop]
  -- the last frame read is one of those left, or one in front of them
  have hseen : ∀ bytes,
      seenLen (bufferAfter file buf (pre ++ more.map (ScannedFrame.shift n))) bytes =
        seenLen (bufferAfter left buf' more) bytes := by
    intro bytes
    cases more using List.reverseRecOn with
    | nil =>
      rw [List.map_nil, List.append_nil]
      exact hbuf bytes
    | append_singleton more f =>
      rw [List.map_append, ← List.append_assoc]
      simp only [bufferAfter, List.map_cons, List.map_nil, List.getLast?_concat,
        ScannedFrame.shift, ← hleft, List.drop_drop]
  have hnonempty : pre ++ more.map (ScannedFrame.shift n) ≠ [] ↔ pre ≠ [] ∨ more ≠ [] := by
    rw [Ne, List.append_eq_nil_iff, List.map_eq_nil_iff, not_and_or]
  have hend : n + t.1 = file.length ↔ t.1 = left.length := by omega
  rw [StopsWell, hnonempty, hend, nextFrame_shift hleft t, hrest, hseen, Option.map_eq_none_iff]

end Left

/-! ## The verdict -/

section Verdict

variable {Z : Zlib}

theorem scannedFrames_eq_nil {pos : Nat} {frames : List Frame} :
    scannedFrames pos frames = [] ↔ frames = [] := by
  cases frames with
  | nil => exact iff_of_true rfl rfl
  | cons f frames => exact iff_of_false (List.cons_ne_nil _ _) (List.cons_ne_nil _ _)

theorem frameBytes_eq_flatten (frames : List Frame) :
    frameBytes Z frames = (frames.map (Frame.bytes Z)).flatten := List.flatMap_def ..

/-- The scan of frames with other bytes behind them is not corrupt exactly when those bytes
can be read. -/
theorem segmentScanner_left_iff {header left : List UInt8} {base : UInt64} {frames : List Frame}
    (hlen : header.length = 32)
    (hhead : HasHead Z (header ++ frameBytes Z frames ++ left) base)
    (hplaced : Placed base 32 frames) (hepochs : (frames.map Frame.epoch).Pairwise (· ≤ ·))
    (inteval : ℕ+) (buf : List UInt8) :
    let file := header ++ frameBytes Z frames ++ left
    let n := 32 + (frameBytes Z frames).length
    let next := nextFrame Z (base + UInt64.ofNat n) left
    ((SegmentRecovery.fresh inteval buf).segmentScanner Z file {}).1.kind ≠ .corrupt ↔
      ∃ more t, Chain next (0, lastStored frames) more t ∧
        (t.1 = left.length ∧ (frames ≠ [] ∨ more ≠ []) ∨
          next t = none ∧ IncompleteTail (left.drop t.1) ∧
            seenLen (bufferAfter left ((frames.map (Frame.bytes Z)).getLast?.getD buf) more)
              (left.drop t.1) ≤ messagemaxlen) := by
  intro file n next
  have hbody : file.drop 32 = frameBytes Z frames ++ left := by
    rw [show file = header ++ (frameBytes Z frames ++ left) from List.append_assoc _ _ _,
      List.drop_left' hlen]
  have hleft : file.drop n = left := by
    rw [← List.drop_drop, hbody, List.drop_left]
  have hn : n + left.length = file.length := by
    show 32 + _ + _ = _
    rw [List.length_append, List.length_append, hlen]
  -- the frames themselves are passed
  have hpre : Chain (nextFrame Z base file) (32, 0) (scannedFrames 32 frames)
      (n + 0, lastStored frames) :=
    chain_frames hbody hplaced (List.pairwise_cons.mpr ⟨fun e _ => UInt32.zero_le, hepochs⟩)
  have hstop := fun (more : List ScannedFrame) (t : Nat × UInt32) =>
    stopsWell_shift Z base hleft hn more t (seenLen_scannedFrames buf hbody)
  simp only [Ne, scannedFrames_eq_nil] at hstop
  rw [segmentScanner_not_corrupt_iff hhead]
  constructor
  · rintro ⟨found, u, hfound, hwell⟩
    -- whatever the scan finds goes on behind the frames
    have hstuck : nextFrame Z base file u = none := by
      rcases hwell with ⟨hend, -⟩ | ⟨hnone, -⟩
      · obtain ⟨p, e⟩ := u
        rw [show p = file.length from hend]
        exact nextFrame_end e
      · exact hnone
    obtain ⟨behind, rfl, hbehind⟩ := hfound.extends_of_stuck hstuck hpre
    obtain ⟨more, t, rfl, rfl, hmore⟩ :=
      Chain.of_map (s := (0, lastStored frames)) (nextFrame_shift hleft) hbehind
    exact ⟨more, t, hmore, (hstop more t).mp hwell⟩
  · rintro ⟨more, t, hmore, hwell⟩
    exact ⟨_, _, hpre.append (hmore.map (nextFrame_shift hleft)), (hstop more t).mpr hwell⟩

/-- A scan that is not corrupt has passed every chain of frames. -/
theorem ScanResult.chain_le {base : UInt64} {file : List UInt8} {ans : ScanEnd}
    (h : ScanResult Z file base ans) (hnot : ans.kind ≠ .corrupt) {frames : List ScannedFrame}
    {t : Nat × UInt32} (hchain : Chain (nextFrame Z base file) (32, 0) frames t) :
    t.1 ≤ ans.vaildEnd := by
  cases h with
  | clean _ _ _ hvaild hscanned =>
    obtain ⟨_, -, hbehind⟩ := hscanned.extends_of_stuck (nextFrame_end _) hchain
    rw [hvaild]
    exact chain_start_le hbehind
  | torn _ _ hscanned hstuck =>
    obtain ⟨_, -, hbehind⟩ := hscanned.extends_of_stuck hstuck hchain
    exact chain_start_le hbehind
  | corrupt _ _ _ hkind => exact absurd hkind hnot

/-- Frames of calls whose epochs are not below those on file keep the epochs in order. -/
theorem pairwise_epochs_append {frames gs : List Frame} {calls : List AppendCall}
    (hframes : (frames.map Frame.epoch).Pairwise (· ≤ ·))
    (hgs : (gs.map Frame.epoch).Pairwise (· ≤ ·))
    (hcalls : gs.map Frame.epoch = calls.map AppendCall.epoch)
    (habove : ∀ c ∈ calls, ∀ f ∈ frames, f.epoch ≤ c.epoch) :
    ((frames ++ gs).map Frame.epoch).Pairwise (· ≤ ·) := by
  rw [List.map_append]
  refine List.pairwise_append.mpr ⟨hframes, hgs, ?_⟩
  intro e he e' he'
  obtain ⟨f, hf, rfl⟩ := List.mem_map.mp he
  rw [hcalls] at he'
  obtain ⟨c, hc, rfl⟩ := List.mem_map.mp he'
  exact habove c hc f hf

/-- The epoch stored last, where the last frames are those of the calls. -/
theorem lastStored_calls (frames : List Frame) {gs : List Frame} {calls : List AppendCall}
    (hcalls : gs.map Frame.epoch = calls.map AppendCall.epoch) :
    lastStored (frames ++ gs) = lastCallEpoch (lastStored frames) calls := by
  have hlast : gs.getLast?.map Frame.epoch = calls.getLast?.map AppendCall.epoch := by
    rw [← List.getLast?_map, hcalls, List.getLast?_map]
  rw [lastStored, lastCallEpoch, ← hlast, List.getLast?_append]
  cases gs.getLast? with
  | none => rfl
  | some g => rfl

/-- A segment of a nonzero base offset, re-opened by `open_append` on complete frames that
stand at their offsets, and then any run of appends, at the offsets where their frames will
stand and with epochs not below those on file, whatever their writes and cuts do: the scan
of the file is not corrupt and finds every acknowledged frame exactly when what the failed
appends left behind can be read. -/
theorem failed_rollback_iff {header : List UInt8} {base wall : UInt64} {frames : List Frame}
    (hlen : header.length = 32) (hvalid : compareMagicCrc Z header = some (base, wall))
    (hbase : base ≠ 0) (hplaced : Placed base 32 frames)
    (hepochs : (frames.map Frame.epoch).Pairwise (· ≤ ·)) {io : OpenIo} {s : Segment}
    (hopen : ({ file := some (header ++ frameBytes Z frames) } : Segment).openAppend Z io = (s, true))
    {calls : List AppendCall} (hoffsets : OffsetsKept Z s calls)
    (habove : ∀ c ∈ calls, ∀ f ∈ frames, f.epoch ≤ c.epoch) (inteval : ℕ+) (buf : List UInt8) :
    ∃ file, (runAppends Z s calls).file = some file ∧
      (Unpoisoned file (header ++ frameBytes Z frames ++ callBytes Z (ackedCalls Z s calls))
          ((SegmentRecovery.fresh inteval buf).segmentScanner Z file {}).1 ↔
        LeftSafe Z base buf frames calls) := by
  -- the segment stands at the end of its file
  obtain ⟨base', wall', -, hvalid', hopened⟩ :=
    Segment.openAppend_of_true (Z := Z) rfl (congrArg Prod.snd hopen)
  rw [List.take_left' hlen, hvalid] at hvalid'
  cases hvalid'
  rw [hopened] at hopen
  obtain ⟨hs, -⟩ := Prod.mk.inj hopen
  have hholds : s.Holds (header ++ frameBytes Z frames) [] := by
    rw [← hs]
    exact ⟨rfl, by rw [List.append_nil], rfl⟩
  have hzero : s.lastEpoch = 0 := by rw [← hs]
  have hsbase : s.baseOffset = base := by rw [← hs]
  have hsoffset : s.offset = 32 + (frameBytes Z frames).length := by
    rw [hholds.offset_eq, List.length_append, hlen]
  -- the acknowledged calls as frames behind those on file
  obtain ⟨gs, hbytes, hgepochs, hgplaced, hgsorted⟩ := written_frames hholds hoffsets
  rw [hzero] at hbytes hgepochs hgsorted
  rw [hsbase, hsoffset] at hgplaced
  have hall : frameBytes Z (frames ++ gs) =
      frameBytes Z frames ++ callBytes Z (writtenCalls Z 0 calls) := by
    rw [frameBytes_append, frameBytes_eq_flatten gs, hbytes, callBytes, List.flatMap_def]
  have hallbytes : (frames ++ gs).map (Frame.bytes Z) =
      frames.map (Frame.bytes Z) ++ (writtenCalls Z 0 calls).map (AppendCall.bytes Z) := by
    rw [List.map_append, hbytes]
  have hallplaced : Placed base 32 (frames ++ gs) := hplaced.append hgplaced
  have hallepochs := pairwise_epochs_append hepochs hgsorted.of_cons hgepochs
    fun c hc => habove c (writtenCalls_subset 0 calls hc)
  have hlast := lastStored_calls frames hgepochs
  -- the file of the run
  obtain ⟨hrun, -⟩ := runAppends_holds (Z := Z) hholds calls
  have hacked := ackedCalls_eq (Z := Z) hholds calls
  rw [hzero] at hrun hacked
  rw [hacked] at hrun ⊢
  rw [List.append_assoc header, ← hall] at hrun ⊢
  refine ⟨_, hrun.file_eq, ?_⟩
  have hhead :
      HasHead Z (header ++ frameBytes Z (frames ++ gs) ++ leftBehind Z 0 [] calls) base := by
    rw [List.append_assoc]
    exact .of_header hlen hvalid hbase _
  have hscan := segmentScanner_left_iff hlen hhead hallplaced hallepochs inteval buf
  have hne : frames ++ gs ≠ [] ↔ frames.map (Frame.bytes Z) ++
      (writtenCalls Z 0 calls).map (AppendCall.bytes Z) ≠ [] := by
    rw [← hallbytes, Ne, Ne, List.map_eq_nil_iff]
  have hlength : (frameBytes Z (frames ++ gs)).length = (frames.map (Frame.bytes Z) ++
      (writtenCalls Z 0 calls).map (AppendCall.bytes Z)).flatten.length := by
    rw [← hallbytes, frameBytes_eq_flatten]
  simp only [hlast, hallbytes, hne, hlength] at hscan
  refine Iff.trans ⟨Unpoisoned.not_corrupt, fun hnot => ⟨hnot, ?_⟩⟩ hscan
  -- the frames on file and the acknowledged ones are passed
  have hbody : (header ++ frameBytes Z (frames ++ gs) ++ leftBehind Z 0 [] calls).drop 32 =
      frameBytes Z (frames ++ gs) ++ leftBehind Z 0 [] calls := by
    rw [List.append_assoc, List.drop_left' hlen]
  have hpassed := chain_frames hbody hallplaced
    (List.pairwise_cons.mpr ⟨fun e _ => UInt32.zero_le, hallepochs⟩)
  have hres := segmentScanner_result hhead inteval buf
  refine List.prefix_take_iff.mpr ⟨List.prefix_append _ _, ?_⟩
  rw [List.length_append, hlen]
  exact hres.chain_le hnot hpassed

/-- With cuts that work, nothing is left to be read behind a frame. -/
theorem leftSafe_of_truncates {base : UInt64} {buf : List UInt8} {frames : List Frame}
    {calls : List AppendCall} (htrunc : ∀ c ∈ calls, c.io.Truncates)
    (hne : frames ≠ [] ∨ writtenCalls Z 0 calls ≠ []) : LeftSafe Z base buf frames calls := by
  have hbefore : frames.map (Frame.bytes Z) ++
      (writtenCalls Z 0 calls).map (AppendCall.bytes Z) ≠ [] := by
    rwa [Ne, List.append_eq_nil_iff, List.map_eq_nil_iff, List.map_eq_nil_iff, not_and_or]
  refine ⟨[], _, .nil _, .inl ⟨?_, .inl hbefore⟩⟩
  rw [leftBehind_nil htrunc]
  rfl

/-- On a segment of one frame a payload of two bytes is cut short after the first and neither
cut works; then one byte is appended without faults. -/
theorem failed_rollback_iff_short :
    let frames : List Frame := [⟨1000, 1, [0x41], by decide⟩]
    let s := (({ file := some (writeSegheadBg zlib 1 1000 0 ++ frameBytes zlib frames) } :
      Segment).openAppend zlib {}).1
    let calls : List AppendCall :=
      [⟨[0x42, 0x43], 1021, 2,
          { payload := { pwrite := .short 1, ftruncate := false }, ftruncate := false }⟩,
        ⟨[0x44], 1021, 2, {}⟩]
    ∃ file, (runAppends zlib s calls).file = some file ∧
      (Unpoisoned file (writeSegheadBg zlib 1 1000 0 ++ frameBytes zlib frames ++
            callBytes zlib (ackedCalls zlib s calls))
          ((SegmentRecovery.fresh 4 []).segmentScanner zlib file {}).1 ↔
        LeftSafe zlib 1000 [] frames calls) := by
  intro frames s calls
  have hplaced : Placed 1000 32 frames := ⟨by decide, trivial⟩
  have hoffsets : OffsetsKept zlib s calls := ⟨by decide +kernel, by decide +kernel, trivial⟩
  exact failed_rollback_iff rfl (compareMagicCrc_writeSegheadBg zlib 1000 0) (by decide) hplaced
    (by decide) (Prod.ext rfl (by decide +kernel)) hoffsets (by decide) 4 []

/-- A payload of 100 bytes `0xFF` is cut short after 50 of them and neither cut works; then
one byte is appended without faults. -/
theorem failed_rollback_poisons :
    let frames : List Frame := [⟨1000, 1, [0x41], by decide⟩]
    let s := (({ file := some (writeSegheadBg zlib 1 1000 0 ++ frameBytes zlib frames) } :
      Segment).openAppend zlib {}).1
    let calls : List AppendCall :=
      [⟨List.replicate 100 0xFF, 1021, 1,
          { payload := { pwrite := .short 50, ftruncate := false }, ftruncate := false }⟩,
        ⟨[0x42], 1021, 1, {}⟩]
    (({ file := some (writeSegheadBg zlib 1 1000 0 ++ frameBytes zlib frames) } :
        Segment).openAppend zlib {}).2 = true ∧
      Placed 1000 32 frames ∧ OffsetsKept zlib s calls ∧
      (∀ c ∈ calls, ∀ f ∈ frames, f.epoch ≤ c.epoch) ∧
      ((runAppends zlib s calls).file.map fun file =>
        ((SegmentRecovery.fresh 4 []).segmentScanner zlib file {}).1.kind) = some .corrupt := by
  intro frames s calls
  have hplaced : Placed 1000 32 frames := ⟨by decide, trivial⟩
  have hoffsets : OffsetsKept zlib s calls := ⟨by decide +kernel, by decide +kernel, trivial⟩
  exact ⟨by decide +kernel, hplaced, hoffsets, by decide, by decide +kernel⟩

end Verdict

end ServiceInfra
