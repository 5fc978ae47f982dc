import ServiceInfra.Segment.Recovery
import ServiceInfra.Segment.Writer

/-!
# Runs of one segment

A segment file over its life: `creat` on a fresh path, then appends, and re-opens of the
same file by a new `Segment`, all without faults. Two things go wrong.

- `creat` writes the base offset 0, which `read_segment32` takes for a header it could
  not read, so no file that `creat` began is ever scanned.
- `open_append` does not restore the last epoch, so the first append of a re-opened
  segment may go below the epochs on file. `EpochsKept` is the condition that none does.

Main results:
- `runOps_headBad`: a segment begun by `creat` is refused by the scan, after every run
- `runOps_ordered_iff`: the epochs stay ordered exactly when `EpochsKept` holds
-/

namespace ServiceInfra

open Net (messagemaxlen messagemaxlen_toNat)

/-! ## Definitions -/

/-- A step in the life of a segment. -/
inductive SegmentOp where
  /-- `append(payload, byte_off, epoch)`. -/
  | append (payload : List UInt8) (byteOff : UInt64) (epoch : UInt32)
  /-- The object is destroyed and a new one calls `open_append`. -/
  | reopen
  deriving DecidableEq, Repr

/-- One step, and what it returns. -/
def Segment.apply (Z : Zlib) (s : Segment) : SegmentOp → Segment × Bool
  | .append payload byteOff epoch => s.append Z payload byteOff epoch {}
  | .reopen => ({ file := s.file } : Segment).openAppend Z {}

/-- A run of steps. -/
def runOps (Z : Zlib) (s : Segment) (ops : List SegmentOp) : Segment :=
  ops.foldl (fun s op => (s.apply Z op).1) s

/-- The segment after `creat` on a fresh path. -/
def created (Z : Zlib) (now : UInt64) : Segment := (({ file := none } : Segment).creat Z now {}).1

/-- The file at the segment's path holds these frames behind a header. -/
def Stores (Z : Zlib) (s : Segment) (frames : List Frame) : Prop :=
  ∃ header : List UInt8, header.length = 32 ∧ s.file = some (header ++ frameBytes Z frames)

/-- The epoch of the last frame, 0 when there is none. -/
def lastStored (frames : List Frame) : UInt32 := (frames.getLast?.map Frame.epoch).getD 0

/-! ## Segments begun by `creat` -/

/-- A segment begun by `creat` at `now`, open, with these frames on file. -/
structure Session (Z : Zlib) (now : UInt64) (frames : List Frame) (s : Segment) : Prop where
  isOpen : s.isOpen = true
  file_eq : s.file = some (writeSegheadBg Z 1 0 now ++ frameBytes Z frames)
  offset_eq : s.offset = (writeSegheadBg Z 1 0 now ++ frameBytes Z frames).length

section Session

variable {Z : Zlib} {now : UInt64} {frames : List Frame} {s : Segment}

theorem session_created (Z : Zlib) (now : UInt64) : Session Z now [] (created Z now) := by
  have hcreat := Segment.creat_full (Z := Z) (s := { file := none }) rfl rfl now
  rw [created, hcreat]
  exact ⟨rfl, by rw [frameBytes_nil, List.append_nil], rfl⟩

theorem Session.stores (h : Session Z now frames s) : Stores Z s frames :=
  ⟨_, length_writeSegheadBg Z 1 0 now, h.file_eq⟩

/-- The frames a file stores are determined by its bytes. -/
theorem Session.stores_iff (h : Session Z now frames s) {gs : List Frame} :
    Stores Z s gs ↔ gs = frames := by
  constructor
  · rintro ⟨header, hlen, hfile⟩
    -- two headers of 32 bytes, so the bytes of the frames agree as well
    rw [h.file_eq, Option.some.injEq] at hfile
    exact (frameBytes_inj (List.append_inj hfile (by rw [hlen, length_writeSegheadBg])).2).symm
  · rintro rfl
    exact h.stores

theorem Session.append (h : Session Z now frames s) (f : Frame) (hepoch : s.lastEpoch ≤ f.epoch) :
    (s.append Z f.payload f.offset f.epoch {}).2 = true ∧
      (s.append Z f.payload f.offset f.epoch {}).1.lastEpoch = f.epoch ∧
      Session Z now (frames ++ [f]) (s.append Z f.payload f.offset f.epoch {}).1 := by
  rw [Segment.append_full h.isOpen h.file_eq h.offset_eq f.payload_le hepoch]
  have hbytes : frameBytes Z (frames ++ [f]) =
      frameBytes Z frames ++ encodeFrame Z f.offset f.epoch f.payload := by
    rw [frameBytes_append, frameBytes_cons, frameBytes_nil, List.append_nil]
    rfl
  refine ⟨rfl, rfl, h.isOpen, ?_, ?_⟩
  · rw [hbytes, List.append_assoc]
  · rw [hbytes, ← List.append_assoc, List.length_append, length_encodeFrame, ← h.offset_eq]

/-- A re-open leaves the file as it is and forgets the last epoch. -/
theorem Session.reopen (h : Session Z now frames s) :
    (s.apply Z .reopen).2 = true ∧ (s.apply Z .reopen).1.lastEpoch = 0 ∧
      Session Z now frames (s.apply Z .reopen).1 := by
  have hopened := Segment.openAppend_full (Z := Z) (s := { file := s.file }) h.file_eq
    (length_writeSegheadBg Z 1 0 now) (compareMagicCrc_writeSegheadBg Z 0 now)
  rw [Segment.apply, hopened]
  refine ⟨rfl, rfl, rfl, h.file_eq, ?_⟩
  rw [List.length_append, length_writeSegheadBg]

/-- Every step keeps a session, with at most one more frame on file. -/
theorem Session.apply (h : Session Z now frames s) (op : SegmentOp) :
    ∃ gs, Session Z now gs (s.apply Z op).1 := by
  cases op with
  | append payload byteOff epoch =>
    -- a refused append changes nothing
    by_cases hrefused : 1048576 < payload.length ∨ epoch < s.lastEpoch
    · rw [Segment.apply, Segment.append_refused hrefused]
      exact ⟨frames, h⟩
    · rw [not_or, Nat.not_lt, UInt32.not_lt] at hrefused
      exact ⟨_, (h.append ⟨byteOff, epoch, payload, hrefused.1⟩ hrefused.2).2.2⟩
  | reopen => exact ⟨frames, h.reopen.2.2⟩

theorem Session.runOps (h : Session Z now frames s) (ops : List SegmentOp) :
    ∃ gs, Session Z now gs (runOps Z s ops) := by
  induction ops generalizing s frames with
  | nil => exact ⟨frames, h⟩
  | cons op ops ih =>
    obtain ⟨gs, hgs⟩ := h.apply op
    exact ih hgs

end Session

/-! ## The base offset of a created segment -/

/-- What the scan of a written segment has to report. -/
structure WriterAgrees (file : List UInt8) (epoch : UInt32) (r : ScanEnd) : Prop where
  clean : r.kind = .clean
  vaildEnd_eq : r.vaildEnd = file.length
  lastEpoch_eq : r.lastEpoch = epoch

/-- A header of base offset 0 is taken for one that cannot be read. -/
theorem segmentScanner_headBad {Z : Zlib} {header body : List UInt8} {wall : UInt64}
    (hlen : header.length = 32) (hvalid : compareMagicCrc Z header = some (0, wall))
    (r : SegmentRecovery) : (r.segmentScanner Z (header ++ body) {}).1.kind = .headBad := by
  -- the header is valid, and its base offset 0 is what is returned for a bad one
  have hread : readSegment32 Z (header ++ body) .full = 0 := by
    simp only [readSegment32, pread, List.drop_zero, List.take_left' hlen, hlen, ne_eq,
      not_true_eq_false, if_false, hvalid]
  simp only [SegmentRecovery.segmentScanner, hread, Bool.true_eq_false, if_false, if_true]

/-- Whatever is appended to a segment that `creat` began, the scan refuses its header. -/
theorem runOps_headBad (Z : Zlib) (now : UInt64) (ops : List SegmentOp) (r : SegmentRecovery) :
    ∃ file, (runOps Z (created Z now) ops).file = some file ∧
      (r.segmentScanner Z file {}).1.kind = .headBad := by
  obtain ⟨frames, hsession⟩ := (session_created Z now).runOps ops
  exact ⟨_, hsession.file_eq, segmentScanner_headBad (length_writeSegheadBg Z 1 0 now)
    (compareMagicCrc_writeSegheadBg Z 0 now) r⟩

/-- So the writer and the scan agree on no run: neither after appends alone, nor after
re-opens between them. -/
theorem runOps_not_writerAgrees (Z : Zlib) (now : UInt64) (ops : List SegmentOp) (inteval : ℕ+)
    (buf : List UInt8) :
    ∃ file, (runOps Z (created Z now) ops).file = some file ∧
      ∀ epoch, ¬ WriterAgrees file epoch
        ((SegmentRecovery.fresh inteval buf).segmentScanner Z file {}).1 := by
  obtain ⟨file, hfile, hkind⟩ := runOps_headBad Z now ops (.fresh inteval buf)
  refine ⟨file, hfile, fun epoch h => ?_⟩
  have hclean := h.clean
  rw [hkind] at hclean
  cases hclean

/-- One append of one byte, at the offset of the segment's start. -/
theorem runOps_not_writerAgrees_one :
    let file := writeSegheadBg zlib 1 0 7 ++ encodeFrame zlib 0 1 [0x41]
    ((created zlib 7).append zlib [0x41] 0 1 {}).2 = true ∧
      (runOps zlib (created zlib 7) [.append [0x41] 0 1]).file = some file ∧
      ¬ WriterAgrees file 1 ((SegmentRecovery.fresh 4 []).segmentScanner zlib file {}).1 := by
  refine ⟨by decide +kernel, by decide +kernel, fun h => ?_⟩
  exact absurd h.clean (by decide +kernel)

/-! ## The order of the epochs -/

/-- The epochs stored in the file do not go backwards. -/
def EpochsOrdered (Z : Zlib) (s : Segment) : Prop :=
  ∃ frames, Stores Z s frames ∧ (frames.map Frame.epoch).Pairwise (· ≤ ·)

/-- An append below the epoch of the last stored frame returns false and writes nothing. -/
def RefusesBelow (Z : Zlib) (s : Segment) (op : SegmentOp) : Prop :=
  ∀ payload byteOff epoch frames, op = .append payload byteOff epoch → Stores Z s frames →
    epoch < lastStored frames → s.apply Z op = (s, false)

/-- What a run has to keep: ordered epochs in every state it reaches, and no append below
them. -/
def RunOrdered (Z : Zlib) (s : Segment) (ops : List SegmentOp) : Prop :=
  ∀ n, EpochsOrdered Z (runOps Z s (ops.take n)) ∧
    ∀ op, ops[n]? = some op → RefusesBelow Z (runOps Z s (ops.take n)) op

/-- Along the run, no append that `append` lets through goes below the epoch last stored.
`held` is the epoch it compares with: that of the last frame stored since the last
re-open, 0 when there is none. -/
def EpochsKept : (stored held : UInt32) → List SegmentOp → Prop
  | _, _, [] => True
  | stored, _, .reopen :: ops => EpochsKept stored 0 ops
  | stored, held, .append payload _ epoch :: ops =>
      if 1048576 < payload.length ∨ epoch < held then EpochsKept stored held ops
      else stored ≤ epoch ∧ EpochsKept epoch epoch ops

theorem runOrdered_cons {Z : Zlib} {s : Segment} {op : SegmentOp} {ops : List SegmentOp} :
    RunOrdered Z s (op :: ops) ↔
      (EpochsOrdered Z s ∧ RefusesBelow Z s op) ∧ RunOrdered Z (s.apply Z op).1 ops := by
  constructor
  · intro h
    refine ⟨⟨(h 0).1, (h 0).2 op rfl⟩, fun n => ?_⟩
    obtain ⟨hordered, hrefuses⟩ := h (n + 1)
    exact ⟨hordered, fun op' hop' => hrefuses op' (by simpa using hop')⟩
  · rintro ⟨⟨hordered, hrefuses⟩, htail⟩ n
    cases n with
    | zero =>
      refine ⟨hordered, fun op' hop' => ?_⟩
      obtain rfl : op = op' := by simpa using hop'
      exact hrefuses
    | succ n => exact ⟨(htail n).1, fun op' hop' => (htail n).2 op' (by simpa using hop')⟩

theorem lastStored_append (frames : List Frame) (f : Frame) :
    lastStored (frames ++ [f]) = f.epoch := by
  simp [lastStored]

theorem le_lastStored {frames : List Frame} (h : (frames.map Frame.epoch).Pairwise (· ≤ ·))
    {e : UInt32} (he : e ∈ frames.map Frame.epoch) : e ≤ lastStored frames := by
  -- the last frame is the one the others are compared with
  induction frames using List.reverseRecOn with
  | nil => cases he
  | append_singleton frames f _ =>
    rw [List.map_append, List.map_singleton] at h he
    rw [lastStored_append]
    rcases List.mem_append.mp he with hmem | hlast
    · exact (List.pairwise_append.mp h).2.2 e hmem f.epoch (List.mem_singleton_self _)
    · rw [List.mem_singleton.mp hlast]
      exact UInt32.le_refl _

/-- Ordered epochs stay ordered exactly with a frame that is not below the last. -/
theorem epochs_append_iff {frames : List Frame} {f : Frame}
    (h : (frames.map Frame.epoch).Pairwise (· ≤ ·)) :
    ((frames ++ [f]).map Frame.epoch).Pairwise (· ≤ ·) ↔ lastStored frames ≤ f.epoch := by
  rw [List.map_append, List.map_singleton, List.pairwise_append]
  constructor
  · rintro ⟨-, -, hle⟩
    -- the last frame stands in front of the new one
    rw [lastStored]
    cases hlast : frames.getLast? with
    | none => exact UInt32.zero_le
    | some g =>
      exact hle g.epoch (List.mem_map_of_mem (List.mem_of_getLast? hlast)) f.epoch
        (List.mem_singleton_self _)
  · intro hle
    refine ⟨h, List.pairwise_singleton _ _, fun e he e' he' => ?_⟩
    rw [List.mem_singleton.mp he']
    exact UInt32.le_trans (le_lastStored h he) hle

section Order

variable {Z : Zlib} {now : UInt64} {frames : List Frame} {s : Segment}

theorem Session.epochsOrdered_iff (h : Session Z now frames s) :
    EpochsOrdered Z s ↔ (frames.map Frame.epoch).Pairwise (· ≤ ·) := by
  constructor
  · rintro ⟨gs, hgs, hordered⟩
    rwa [h.stores_iff.mp hgs] at hordered
  · intro hordered
    exact ⟨frames, h.stores, hordered⟩

/-- The steps of a run, from a session whose stored epochs are ordered. -/
theorem Session.runOrdered_iff (h : Session Z now frames s)
    (hordered : (frames.map Frame.epoch).Pairwise (· ≤ ·)) (ops : List SegmentOp) :
    RunOrdered Z s ops ↔ EpochsKept (lastStored frames) s.lastEpoch ops := by
  have hhere : EpochsOrdered Z s := h.epochsOrdered_iff.mpr hordered
  -- along the steps; a step that goes below the stored epochs breaks the order in the
  -- state it reaches
  induction ops generalizing s frames with
  | nil =>
    refine iff_of_true (fun n => ⟨?_, fun op hop => ?_⟩) trivial
    · rw [List.take_nil]
      exact hhere
    · simp at hop
  | cons op ops ih =>
    rw [runOrdered_cons]
    cases op with
    | append payload byteOff epoch =>
      by_cases hrefused : 1048576 < payload.length ∨ epoch < s.lastEpoch
      · -- refused: nothing changes
        have happly : s.apply Z (.append payload byteOff epoch) = (s, false) :=
          Segment.append_refused hrefused byteOff {}
        have htail := ih h hordered hhere
        rw [happly, EpochsKept, if_pos hrefused]
        exact (and_iff_right ⟨hhere, fun _ _ _ _ _ _ _ => happly⟩).trans htail
      · -- stored: the order now depends on the epoch on file
        rw [EpochsKept, if_neg hrefused]
        rw [not_or, Nat.not_lt, UInt32.not_lt] at hrefused
        obtain ⟨hok, hlast, hstored⟩ := h.append ⟨byteOff, epoch, payload, hrefused.1⟩ hrefused.2
        simp only at hok hlast hstored
        have hnext := epochs_append_iff (f := ⟨byteOff, epoch, payload, hrefused.1⟩) hordered
        by_cases hle : lastStored frames ≤ epoch
        · have hkept := hnext.mpr hle
          have htail := ih hstored hkept (hstored.epochsOrdered_iff.mpr hkept)
          rw [lastStored_append, hlast] at htail
          refine and_congr (iff_of_true ⟨hhere, ?_⟩ hle) htail
          intro payload' byteOff' epoch' gs hop hgs hlt
          cases hop
          rw [h.stores_iff.mp hgs] at hlt
          exact absurd hlt (UInt32.not_lt.mpr hle)
        · refine iff_of_false ?_ fun hkept => hle hkept.1
          rintro ⟨-, htail⟩
          exact hle (hnext.mp (hstored.epochsOrdered_iff.mp (htail 0).1))
    | reopen =>
      -- a re-open changes no frame, but forgets the epoch
      obtain ⟨-, hlast, hopened⟩ := h.reopen
      have htail := ih hopened hordered (hopened.epochsOrdered_iff.mpr hordered)
      rw [hlast] at htail
      rw [EpochsKept]
      exact (and_iff_right ⟨hhere, fun _ _ _ _ hop => by cases hop⟩).trans htail

end Order

/-- Over every run from `creat` on, the stored epochs stay ordered, and no append below
them is let through, exactly when `EpochsKept` holds of the steps. -/
theorem runOps_ordered_iff (Z : Zlib) (now : UInt64) (ops : List SegmentOp) :
    RunOrdered Z (created Z now) ops ↔ EpochsKept 0 0 ops := by
  have hsession := session_created Z now
  have hlast : (created Z now).lastEpoch = 0 := by
    rw [created, Segment.creat_full rfl rfl]
  have hrun := hsession.runOrdered_iff List.Pairwise.nil ops
  rwa [hlast] at hrun

/-- Epoch 5, a re-open, then epoch 3: the last append is let through. -/
theorem runOps_not_ordered :
    let ops : List SegmentOp := [.append [0x41] 0 5, .reopen, .append [0x42] 21 3]
    (runOps zlib (created zlib 7) ops).file =
        some (writeSegheadBg zlib 1 0 7 ++
          frameBytes zlib [⟨0, 5, [0x41], by decide⟩, ⟨21, 3, [0x42], by decide⟩]) ∧
      ¬ RunOrdered zlib (created zlib 7) ops := by
  refine ⟨by decide +kernel, fun h => ?_⟩
  -- after the re-open the file holds epoch 5, and the append of epoch 3 returns true
  have hstores : Stores zlib (runOps zlib (created zlib 7) [.append [0x41] 0 5, .reopen])
      [⟨0, 5, [0x41], by decide⟩] :=
    ⟨writeSegheadBg zlib 1 0 7, rfl, by decide +kernel⟩
  have hrefused := (h 2).2 _ rfl [0x42] 21 3 _ rfl hstores (by decide)
  exact absurd (congrArg Prod.snd hrefused) (by decide +kernel)

end ServiceInfra
