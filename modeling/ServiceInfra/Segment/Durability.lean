import ServiceInfra.Library.TransitionSystem
import ServiceInfra.Segment.CrashTruncation
import ServiceInfra.Segment.InteriorDamage

/-!
# A segment over crashes

A segment file over many starts of the process: the scan and its cut, `open_append`, appends
and `sysnc`, and a crash at any point, also inside an append. A crash leaves a front of the
file that is not shorter than what the last `sysnc` secured. The caller goes on where the
scan told it to: behind `vaild_end`, and not below `last_epoch`.

Main results:
- `segmentScanner_front`: the scan of a front of a segment
- `synced_kept`: what was synced once stays in the file, whatever comes
- `recover_refused_iff`: when a recovery fails
-/

namespace ServiceInfra

open Library
open Net (messagemaxlen messagemaxlen_toNat)

/-! ## State -/

/-- A valid header, with a base offset that the scan does not refuse. -/
structure SegmentHead (Z : Zlib) where
  bytes : List UInt8
  base : UInt64
  wall : UInt64
  length_bytes : bytes.length = 32
  valid : compareMagicCrc Z bytes = some (base, wall)
  base_ne : base ≠ 0

/-- The header that `creat` writes. -/
def SegmentHead.creat (Z : Zlib) (base wall : UInt64) (h : base ≠ 0) : SegmentHead Z where
  bytes := writeSegheadBg Z 1 base wall
  base
  wall
  length_bytes := rfl
  valid := compareMagicCrc_writeSegheadBg Z base wall
  base_ne := h

/-- What has been done with the segment since the process started. -/
inductive StoreStatus where
  | down
  /-- Scanned, and cut where it was torn. -/
  | scanned
  | refused
  /-- Opened for appends. -/
  | up
  deriving DecidableEq, Repr

/-- A segment with what its caller knows, and with the history of its frames. -/
structure Store where
  status : StoreStatus := .down
  segment : Segment
  /-- How many bytes a crash leaves at least. -/
  secured : Nat
  /-- Where the caller expects the next frame to stand. -/
  next : Nat := 32
  /-- The epoch below which the caller does not go. -/
  epoch : UInt32 := 0
  /-- The frames of which the append was begun and that no recovery has missed. -/
  written : List Frame
  /-- Those at the last `sysnc` that succeeded. -/
  synced : List Frame

/-- The labels of the steps. -/
inductive StoreAction where
  /-- `segment_scanner` and, where it found a torn tail, `turncate_segment`. -/
  | recover (inteval : ℕ+) (buf : List UInt8)
  | openAppend (io : OpenIo)
  | append (c : AppendCall)
  | sysnc (ok : Bool)
  /-- The process ends, inside the append `flight` if there is one, and `n` bytes are left. -/
  | crash (flight : Option AppendCall) (n : Nat)

/-! ## Steps -/

/-- The frames that lie whole in the first `n` bytes. -/
def wholeFrames : Nat → List Frame → List Frame
  | _, [] => []
  | n, f :: frames => if f.size ≤ n then f :: wholeFrames (n - f.size) frames else []

/-- The call's frame; none where its payload is too long. -/
def AppendCall.frame (c : AppendCall) : List Frame :=
  if h : c.payload.length ≤ 1048576 then [⟨c.byteOff, c.epoch, c.payload, h⟩] else []

instance (io : AppendIo) : Decidable io.Truncates := inferInstanceAs (Decidable (_ ∧ _ ∧ _))

namespace Store

def file (s : Store) : List UInt8 := s.segment.file.getD []

/-- The caller gives the offset of the frame and keeps the epochs in order. -/
def Proper (s : Store) (c : AppendCall) : Prop :=
  c.byteOff = s.segment.baseOffset + UInt64.ofNat s.next - 32 ∧ s.epoch ≤ c.epoch

instance (s : Store) (c : AppendCall) : Decidable (s.Proper c) :=
  inferInstanceAs (Decidable (_ ∧ _))

/-- The scan has found the segment to end at `r.vaildEnd`. -/
def recovered (s : Store) (r : ScanEnd) (file : List UInt8) : Store :=
  { s with
    status := .scanned
    segment := { file := some file }
    next := r.vaildEnd
    epoch := r.lastEpoch
    written := wholeFrames (s.file.length - 32) s.written }

/-- `n` bytes of the file are left, and no object. -/
def crashed (s : Store) (file : List UInt8) (n : Nat) (flight : List Frame) : Store :=
  { s with
    status := .down
    segment := { file := some (file.take n) }
    written := s.written ++ flight }

variable (Z : Zlib)

def recover (s : Store) (inteval : ℕ+) (buf : List UInt8) : Option Store :=
  match s.status with
  | .down =>
      let r := ((SegmentRecovery.fresh inteval buf).segmentScanner Z s.file {}).1
      match r.kind with
      | .clean => some (s.recovered r s.file)
      | .tornTail =>
          some (s.recovered r (SegmentRecovery.turncateSegment s.file r.vaildEnd true))
      | .corrupt | .headBad => some { s with status := .refused }
  | _ => none

/-- `open_append` of a new object, which is given up where that fails. -/
def openAppend (s : Store) (io : OpenIo) : Option Store :=
  match s.status with
  | .scanned =>
      let (segment, ok) := ({ file := s.segment.file } : Segment).openAppend Z io
      some (if ok then { s with status := .up, segment } else s)
  | _ => none

def append (s : Store) (c : AppendCall) : Option Store :=
  match s.status with
  | .up =>
      if s.Proper c ∧ c.io.Truncates then
        let (segment, ok) := s.segment.call Z c
        some (if ok then
          { s with
            segment
            next := s.next + (frameHead + c.payload.length)
            epoch := c.epoch
            written := s.written ++ c.frame }
        else { s with segment })
      else none
  | _ => none

def sysnc (s : Store) (ok : Bool) : Option Store :=
  match s.status with
  | .up =>
      some (if s.segment.sysnc ok then
        { s with secured := s.file.length, synced := s.written }
      else s)
  | _ => none

def crash (s : Store) (n : Nat) : Option AppendCall → Option Store
  | none =>
      if s.secured ≤ n ∧ n ≤ s.file.length then some (s.crashed s.file n []) else none
  | some c =>
      let file := s.file ++ c.bytes Z
      if s.status = .up ∧ s.Proper c ∧ c.payload.length ≤ 1048576 ∧ s.secured ≤ n ∧
          n ≤ file.length then
        some (s.crashed file n c.frame)
      else none

/-- One step. -/
def step (s : Store) : StoreAction → Option Store
  | .recover inteval buf => s.recover Z inteval buf
  | .openAppend io => s.openAppend Z io
  | .append c => s.append Z c
  | .sysnc ok => s.sysnc ok
  | .crash flight n => s.crash Z n flight

end Store

variable {Z : Zlib}

/-- Frames that stand at their offsets, with epochs that do not go back. -/
structure Orderly (base : UInt64) (frames : List Frame) : Prop where
  placed : Placed base 32 frames
  ordered : (frames.map Frame.epoch).Pairwise (· ≤ ·)

/-- A segment with some frames on file, before the first start of the process. -/
def SegmentHead.store (head : SegmentHead Z) (frames : List Frame) : Store where
  segment := { file := some (head.bytes ++ frameBytes Z frames) }
  secured := 32 + (frameBytes Z frames).length
  written := frames
  synced := frames

/-- The segment over all starts of the process. -/
def store (head : SegmentHead Z) : TransitionSystem Store StoreAction where
  init s := ∃ frames, Orderly head.base frames ∧ s = head.store frames
  step s a t := s.step Z a = some t

/-! ## Frames in a front of the file -/

section Front

variable {base : UInt64}

theorem Orderly.of_front {gs frames : List Frame} (h : Orderly base frames)
    (hgs : gs <+: frames) : Orderly base gs := by
  obtain ⟨rest, rfl⟩ := hgs
  have hordered := h.ordered
  rw [List.map_append] at hordered
  exact ⟨(h.placed.split (Z := zlib)).1, (List.pairwise_append.mp hordered).1⟩

/-- A frame that stands behind the others and is not below the last of them. -/
theorem Orderly.snoc {frames : List Frame} {f : Frame} (h : Orderly base frames)
    (hoffset : f.offset = base + UInt64.ofNat (32 + (frameBytes Z frames).length) - 32)
    (hepoch : lastStored frames ≤ f.epoch) : Orderly base (frames ++ [f]) :=
  ⟨h.placed.append ⟨hoffset, trivial⟩, (epochs_append_iff h.ordered).mpr hepoch⟩

theorem wholeFrames_front (n : Nat) (frames : List Frame) : wholeFrames n frames <+: frames := by
  induction frames generalizing n with
  | nil => exact List.prefix_rfl
  | cons f frames ih =>
    rw [wholeFrames]
    split
    · exact (List.prefix_cons_inj f).mpr (ih _)
    · exact List.nil_prefix

theorem frameBytes_front {gs frames : List Frame} (h : gs <+: frames) :
    frameBytes Z gs <+: frameBytes Z frames := by
  obtain ⟨rest, rfl⟩ := h
  rw [frameBytes_append]
  exact List.prefix_append _ _

/-- Frames that lie in front of the end are among the whole ones. -/
theorem prefix_wholeFrames {gs frames : List Frame} {n : Nat} (h : gs <+: frames)
    (hle : (frameBytes Z gs).length ≤ n) : gs <+: wholeFrames n frames := by
  induction frames generalizing gs n with
  | nil => exact h
  | cons f frames ih =>
    cases gs with
    | nil => exact List.nil_prefix
    | cons g gs =>
      obtain ⟨rfl, htail⟩ := List.cons_prefix_cons.mp h
      rw [frameBytes_cons, List.length_append, g.length_bytes] at hle
      rw [wholeFrames, if_pos (by omega)]
      exact (List.prefix_cons_inj g).mpr (ih htail (by omega))

/-- What is left of a frame that was cut is not accepted. -/
theorem not_accepted_take {f : Frame} {n : Nat} (hn : n < f.size) (off : UInt64) (e : UInt32) :
    ¬ FrameAccepted Z ((f.bytes Z).take n) off e := by
  intro h
  have hcomplete := h.complete
  have hlength : ((f.bytes Z).take n).length = n := List.length_take_of_le (by
    rw [f.length_bytes]
    exact hn.le)
  -- the header is there, so the length is that of the frame
  have hlen : frameLen ((f.bytes Z).take n) = UInt32.ofNat f.payload.length := by
    rw [hlength, frameHead] at hcomplete
    rw [← frameLen_append (by omega) ((f.bytes Z).drop n), List.take_append_drop,
      ← List.append_nil (f.bytes Z), f.frameLen_bytes]
  rw [hlength, hlen] at hcomplete
  have hsize := f.size_eq_len
  omega

/-- A front of the frames is the whole ones, and behind them a tail that is no frame. -/
theorem take_frameBytes (n : Nat) (frames : List Frame) :
    ∃ tail, (frameBytes Z frames).take n = frameBytes Z (wholeFrames n frames) ++ tail ∧
      ∀ off e, ¬ FrameAccepted Z tail off e := by
  induction frames generalizing n with
  | nil =>
    refine ⟨[], by simp [wholeFrames], fun off e h => ?_⟩
    have hcomplete := h.complete
    rw [List.length_nil, frameHead] at hcomplete
    omega
  | cons f frames ih =>
    rw [wholeFrames]
    by_cases hn : f.size ≤ n
    · obtain ⟨tail, htake, hnone⟩ := ih (n - f.size)
      refine ⟨tail, ?_, hnone⟩
      rw [if_pos hn, frameBytes_cons, frameBytes_cons, List.append_assoc, ← htake,
        List.take_append, f.length_bytes, List.take_of_length_le]
      rw [f.length_bytes]
      exact hn
    · rw [Nat.not_le] at hn
      refine ⟨(f.bytes Z).take n, ?_, not_accepted_take hn⟩
      rw [if_neg (Nat.not_le.mpr hn), frameBytes_nil, List.nil_append, frameBytes_cons,
        List.take_append_of_le_length]
      rw [f.length_bytes]
      exact hn.le

end Front

/-! ## The scan of a front -/

section Scan

variable (head : SegmentHead Z) {frames : List Frame}

theorem SegmentHead.take_append {n : Nat} (hn : 32 ≤ n) (body : List UInt8) :
    (head.bytes ++ body).take n = head.bytes ++ body.take (n - 32) := by
  rw [List.take_append, head.length_bytes, List.take_of_length_le]
  rw [head.length_bytes]
  exact hn

/-- The scan ends as corrupt exactly where it cannot read the length field at the cut. -/
theorem segmentScanner_corrupt_iff (h : Orderly head.base frames) {m : Nat}
    (hm : m ≤ (frameBytes Z frames).length) (inteval : ℕ+) (buf : List UInt8) :
    ((SegmentRecovery.fresh inteval buf).segmentScanner Z
        (head.bytes ++ (frameBytes Z frames).take m) {}).1.kind = .corrupt ↔
      ¬ LenReadable (buf.drop 8) frames m := by
  have hstart : AtCut Z (head.bytes ++ (frameBytes Z frames).take m) head.base frames m
      (buf.drop 8) (scanStart inteval buf) :=
    { rest_eq := List.drop_left' head.length_bytes
      m_le := hm
      end_eq := by
        rw [List.length_append, head.length_bytes, List.length_take_of_le hm]
        rfl
      placed := h.placed
      epochs := List.pairwise_cons.mpr ⟨fun _ _ => UInt32.zero_le, h.ordered⟩
      held_eq := fun _ _ => rfl }
  obtain ⟨hrecovered, hcorrupt⟩ := scanLoop_cut hstart
  rw [segmentScanner_eq (HasHead.of_header head.length_bytes head.valid head.base_ne _)]
  exact ⟨fun hkind hread => (hrecovered hread).not_corrupt hkind, hcorrupt⟩

/-- Any other end of the scan is behind the frames that lie whole in front of the cut. -/
theorem segmentScanner_front (h : Orderly head.base frames) (m : Nat) (inteval : ℕ+)
    (buf : List UInt8) :
    let file := head.bytes ++ (frameBytes Z frames).take m
    let r := ((SegmentRecovery.fresh inteval buf).segmentScanner Z file {}).1
    let whole := wholeFrames m frames
    r.kind = .corrupt ∨ r.kind ≠ .headBad ∧ r.vaildEnd = 32 + (frameBytes Z whole).length ∧
      r.lastEpoch = lastStored whole ∧ file.take r.vaildEnd = head.bytes ++ frameBytes Z whole ∧
      r.vaildEnd ≤ file.length ∧ (r.kind = .clean → r.vaildEnd = file.length) := by
  intro file r whole
  obtain ⟨tail, htake, hnone⟩ := take_frameBytes (Z := Z) m frames
  have hfile : file = head.bytes ++ frameBytes Z whole ++ tail := by
    rw [List.append_assoc, ← htake]
  have hlength : (head.bytes ++ frameBytes Z whole).length =
      32 + (frameBytes Z whole).length := by
    rw [List.length_append, head.length_bytes]
  -- the frames in front of the cut are a chain
  have hwhole : Orderly head.base whole := h.of_front (wholeFrames_front m frames)
  have hbody : file.drop 32 = frameBytes Z whole ++ tail := by
    rw [hfile, List.append_assoc, List.drop_left' head.length_bytes]
  have hchain := chain_frames hbody hwhole.placed
    (List.pairwise_cons.mpr ⟨fun _ _ => UInt32.zero_le, hwhole.ordered⟩)
  -- and nothing is accepted behind them
  have hstuck : nextFrame Z head.base file
      (32 + (frameBytes Z whole).length, lastFrameEpoch 0 whole) = none := by
    rw [nextFrame_eq_none_iff, hfile, List.drop_left' hlength]
    exact hnone _ _
  have hends : ∀ {e : Nat × UInt32} {found : List ScannedFrame},
      Chain (nextFrame Z head.base file) (32, 0) found e →
      nextFrame Z head.base file e = none →
      e = (32 + (frameBytes Z whole).length, lastFrameEpoch 0 whole) :=
    fun h hnext => (h.stuck_unique hnext hchain hstuck).2
  have hhead : HasHead Z file head.base :=
    HasHead.of_header head.length_bytes head.valid head.base_ne _
  have hfront : file.take (32 + (frameBytes Z whole).length) =
      head.bytes ++ frameBytes Z whole := by
    rw [hfile, List.take_left' hlength]
  have hle : 32 + (frameBytes Z whole).length ≤ file.length := by
    rw [hfile, List.length_append, hlength]
    exact Nat.le_add_right _ _
  cases segmentScanner_result hhead inteval buf with
  | corrupt _ _ _ hkind => exact .inl hkind
  | clean _ hkind _ hvaild hfound =>
    right
    have hend := hends hfound (nextFrame_end _)
    obtain ⟨hpos, hepoch⟩ := Prod.mk.inj hend
    refine ⟨?_, ?_, hepoch, ?_, hvaild.le, fun _ => hvaild⟩
    · rw [hkind]
      exact ScanKind.noConfusion
    · rw [hvaild, hpos]
    · rw [hvaild, hpos, hfront]
  | torn _ hkind hfound hnext =>
    right
    obtain ⟨hpos, hepoch⟩ := Prod.mk.inj (hends hfound hnext)
    refine ⟨?_, hpos, hepoch, ?_, ?_, fun hclean => ?_⟩
    · rw [hkind]
      exact ScanKind.noConfusion
    · rw [hpos, hfront]
    · rw [hpos]
      exact hle
    · cases hkind.symm.trans hclean

end Scan

/-! ## The invariant -/

/-- The file is a front of header and frames, and all of it where the segment was scanned. -/
structure StoreInv (head : SegmentHead Z) (s : Store) : Prop where
  orderly : Orderly head.base s.written
  kept : s.synced <+: s.written
  secured_eq : s.secured = 32 + (frameBytes Z s.synced).length
  front : ∃ n, s.secured ≤ n ∧ n ≤ 32 + (frameBytes Z s.written).length ∧
    s.segment.file = some ((head.bytes ++ frameBytes Z s.written).take n)
  whole : s.status = .scanned ∨ s.status = .up →
    s.segment.file = some (head.bytes ++ frameBytes Z s.written) ∧
      s.next = 32 + (frameBytes Z s.written).length ∧ s.epoch = lastStored s.written
  opened : s.status = .up → s.segment.isOpen = true ∧ s.segment.baseOffset = head.base ∧
    s.segment.offset = s.next ∧ s.segment.lastEpoch ≤ s.epoch

section Steps

variable {head : SegmentHead Z} {s t : Store}

theorem AppendCall.frame_of_le {c : AppendCall} (h : c.payload.length ≤ 1048576) :
    c.frame = [⟨c.byteOff, c.epoch, c.payload, h⟩] := dif_pos h

theorem SegmentHead.take_length (head : SegmentHead Z) (frames : List Frame) :
    (head.bytes ++ frameBytes Z frames).take (32 + (frameBytes Z frames).length) =
      head.bytes ++ frameBytes Z frames :=
  List.take_of_length_le (by rw [List.length_append, head.length_bytes])

theorem StoreInv.start {frames : List Frame} (h : Orderly head.base frames) :
    StoreInv head (head.store frames) where
  orderly := h
  kept := List.prefix_rfl
  secured_eq := rfl
  front := ⟨_, le_rfl, le_rfl, congrArg some (head.take_length frames).symm⟩
  whole hstatus := by simp [SegmentHead.store] at hstatus
  opened hstatus := by cases hstatus

/-- The file of a segment, as a front of header and frames. -/
theorem StoreInv.file_eq (h : StoreInv head s) :
    ∃ m, s.synced <+: wholeFrames m s.written ∧ m ≤ (frameBytes Z s.written).length ∧
      s.file.length - 32 = m ∧ s.file = head.bytes ++ (frameBytes Z s.written).take m := by
  obtain ⟨n, hn, hle, hfile⟩ := h.front
  have hsecured := h.secured_eq
  rw [head.take_append (by omega)] at hfile
  have hm : n - 32 ≤ (frameBytes Z s.written).length := by omega
  have hfile' : s.file = head.bytes ++ (frameBytes Z s.written).take (n - 32) := by
    rw [Store.file, hfile, Option.getD_some]
  refine ⟨n - 32, prefix_wholeFrames (Z := Z) h.kept (by omega), hm, ?_, hfile'⟩
  rw [hfile', List.length_append, head.length_bytes, List.length_take_of_le hm]
  omega

/-- What a recovery that is not refused leaves. -/
theorem StoreInv.recover_cases (h : StoreInv head s) {inteval : ℕ+} {buf : List UInt8}
    (hstep : s.recover Z inteval buf = some t) :
    t = { s with status := .refused } ∧
        ¬ LenReadable (buf.drop 8) s.written (s.file.length - 32) ∨
      LenReadable (buf.drop 8) s.written (s.file.length - 32) ∧
        ∃ r, t = s.recovered r
            (head.bytes ++ frameBytes Z (wholeFrames (s.file.length - 32) s.written)) ∧
          r.vaildEnd =
            32 + (frameBytes Z (wholeFrames (s.file.length - 32) s.written)).length ∧
          r.lastEpoch = lastStored (wholeFrames (s.file.length - 32) s.written) := by
  obtain ⟨m, -, hm, hlen, hfile⟩ := h.file_eq
  have hcorrupt := segmentScanner_corrupt_iff head h.orderly hm inteval buf
  have hscan := segmentScanner_front head h.orderly m inteval buf
  rw [Store.recover] at hstep
  split at hstep
  · simp only at hstep
    rw [hlen]
    rw [hfile] at hstep
    simp only at hscan
    generalize ((SegmentRecovery.fresh inteval buf).segmentScanner Z
      (head.bytes ++ (frameBytes Z s.written).take m) {}).1 = r at hcorrupt hscan hstep
    cases hkind : r.kind with
    | corrupt =>
      rw [hkind] at hstep
      cases hstep
      exact .inl ⟨rfl, hcorrupt.mp hkind⟩
    | headBad =>
      rcases hscan with hbad | ⟨hgood, -⟩
      · cases hkind.symm.trans hbad
      · exact absurd hkind hgood
    | clean =>
      have hread := not_not.mp (mt hcorrupt.mpr (by rw [hkind]; exact ScanKind.noConfusion))
      rcases hscan with hbad | ⟨-, hend, hepoch, hfront, -, hclean⟩
      · cases hkind.symm.trans hbad
      · rw [hkind] at hstep
        cases hstep
        rw [hclean hkind, List.take_length] at hfront
        exact .inr ⟨hread, r, by rw [hfront], hend, hepoch⟩
    | tornTail =>
      have hread := not_not.mp (mt hcorrupt.mpr (by rw [hkind]; exact ScanKind.noConfusion))
      rcases hscan with hbad | ⟨-, hend, hepoch, hfront, hle, -⟩
      · cases hkind.symm.trans hbad
      · rw [hkind] at hstep
        cases hstep
        refine .inr ⟨hread, r, ?_, hend, hepoch⟩
        rw [SegmentRecovery.turncateSegment, ftruncate_of_le hle, hfront]
  · cases hstep

theorem StoreInv.recover (h : StoreInv head s) {inteval : ℕ+} {buf : List UInt8}
    (hstep : s.recover Z inteval buf = some t) : StoreInv head t := by
  obtain ⟨m, hkept, -, hlen, -⟩ := h.file_eq
  rcases h.recover_cases hstep with ⟨rfl, -⟩ | ⟨-, r, rfl, hend, hepoch⟩
  · exact ⟨h.orderly, h.kept, h.secured_eq, h.front, by simp, by simp⟩
  · rw [hlen] at hend hepoch ⊢
    rw [Store.recovered, hlen]
    have hsecured := h.secured_eq
    have hle := (frameBytes_front (Z := Z) hkept).length_le
    refine ⟨h.orderly.of_front (wholeFrames_front _ _), hkept, h.secured_eq, ?_, ?_, by simp⟩
    · exact ⟨_, by simp only; omega, le_rfl, congrArg some (head.take_length _).symm⟩
    · exact fun _ => ⟨rfl, hend, hepoch⟩

theorem StoreInv.openAppend (h : StoreInv head s) {io : OpenIo}
    (hstep : s.openAppend Z io = some t) : StoreInv head t := by
  rw [Store.openAppend] at hstep
  split at hstep
  · rename_i hstatus
    obtain ⟨hfile, hnext, hepoch⟩ := h.whole (.inl hstatus)
    simp only [Option.some.injEq] at hstep
    subst hstep
    split
    · rename_i hok
      obtain ⟨base, wall, -, hvalid, hopened⟩ :=
        Segment.openAppend_of_true (s := { file := s.segment.file }) hfile hok
      rw [hopened]
      -- the header is the one the segment was made with
      rw [List.take_left' head.length_bytes, head.valid] at hvalid
      cases hvalid
      refine ⟨h.orderly, h.kept, h.secured_eq, h.front, fun _ => ⟨hfile, hnext, hepoch⟩,
        fun _ => ⟨rfl, rfl, ?_, UInt32.zero_le⟩⟩
      show (head.bytes ++ frameBytes Z s.written).length = s.next
      rw [hnext, List.length_append, head.length_bytes]
    · exact h
  · cases hstep

/-- What the open segment holds. -/
theorem StoreInv.holds (h : StoreInv head s) (hup : s.status = .up) :
    s.segment.Holds (head.bytes ++ frameBytes Z s.written) [] := by
  obtain ⟨hfile, hnext, -⟩ := h.whole (.inr hup)
  obtain ⟨hopen, -, hoffset, -⟩ := h.opened hup
  refine ⟨hopen, by rw [hfile, List.append_nil], ?_⟩
  rw [hoffset, hnext, List.length_append, head.length_bytes]

/-- The caller's frame stands behind the others. -/
theorem StoreInv.frame (h : StoreInv head s) (hup : s.status = .up) {c : AppendCall}
    (hproper : s.Proper c) (hlen : c.payload.length ≤ 1048576) :
    Orderly head.base (s.written ++ c.frame) ∧
      frameBytes Z (s.written ++ c.frame) = frameBytes Z s.written ++ c.bytes Z := by
  obtain ⟨-, hnext, hepoch⟩ := h.whole (.inr hup)
  obtain ⟨-, hbase, -, -⟩ := h.opened hup
  obtain ⟨hoffset, hle⟩ := hproper
  rw [hbase, hnext] at hoffset
  rw [AppendCall.frame_of_le hlen]
  refine ⟨h.orderly.snoc hoffset (hepoch ▸ hle), ?_⟩
  rw [frameBytes_append, frameBytes_cons, frameBytes_nil, List.append_nil]
  rfl

/-- A call with working cuts writes its frame, or leaves the segment as it was. -/
theorem Segment.call_cases {seg : Segment} {held : List UInt8} {c : AppendCall}
    (h : seg.Holds held []) (hcuts : c.io.Truncates) :
    seg.call Z c = (seg, false) ∨ c.Passes seg.lastEpoch ∧
      seg.call Z c =
        ({ seg with
            file := some (held ++ c.bytes Z)
            offset := seg.offset + (frameHead + c.payload.length)
            lastEpoch := c.epoch }, true) := by
  by_cases hp : c.Passes seg.lastEpoch
  · by_cases hw : c.Written Z
    · right
      rw [Segment.append_written h hp hw, AppendCall.leaves_nil hcuts, List.append_nil]
      exact ⟨hp, rfl⟩
    · left
      rw [Segment.append_failed h hp hw, AppendCall.leaves_nil hcuts, ← h.file_eq]
  · exact .inl (Segment.call_refused hp)

theorem StoreInv.append (h : StoreInv head s) {c : AppendCall}
    (hstep : s.append Z c = some t) : StoreInv head t := by
  rw [Store.append] at hstep
  split at hstep
  · rename_i hup
    split at hstep
    · rename_i hguard
      obtain ⟨hproper, hcuts⟩ := hguard
      simp only [Option.some.injEq] at hstep
      subst hstep
      rcases Segment.call_cases (h.holds hup) hcuts with hcall | ⟨hp, hcall⟩
      · rw [hcall]
        exact h
      · obtain ⟨-, hnext, -⟩ := h.whole (.inr hup)
        obtain ⟨hopen, hbase, hoffset, -⟩ := h.opened hup
        obtain ⟨horderly, hbytes⟩ := h.frame hup hproper hp.1
        have hlength : (frameBytes Z (s.written ++ c.frame)).length =
            (frameBytes Z s.written).length + (frameHead + c.payload.length) := by
          rw [hbytes, List.length_append, c.length_bytes]
        have hsecured := (frameBytes_front (Z := Z) h.kept).length_le
        have hfile : head.bytes ++ frameBytes Z s.written ++ c.bytes Z =
            head.bytes ++ frameBytes Z (s.written ++ c.frame) := by
          rw [hbytes, List.append_assoc]
        rw [hcall, if_pos rfl]
        simp only [hfile]
        refine ⟨horderly, h.kept.trans (List.prefix_append _ _), h.secured_eq, ?_, ?_, ?_⟩
        · refine ⟨_, ?_, le_rfl, congrArg some (head.take_length _).symm⟩
          rw [h.secured_eq, hlength]
          omega
        · refine fun _ => ⟨rfl, ?_, ?_⟩
          · rw [hnext, hlength, Nat.add_assoc]
          · rw [AppendCall.frame_of_le hp.1, lastStored_append]
        · exact fun _ => ⟨hopen, hbase, congrArg (· + _) hoffset, UInt32.le_refl _⟩
    · cases hstep
  · cases hstep

theorem StoreInv.sysnc (h : StoreInv head s) {ok : Bool} (hstep : s.sysnc ok = some t) :
    StoreInv head t := by
  rw [Store.sysnc] at hstep
  split at hstep
  · rename_i hup
    cases hstep
    split
    · obtain ⟨hfile, hnext, hepoch⟩ := h.whole (.inr hup)
      have hlength : s.file.length = 32 + (frameBytes Z s.written).length := by
        rw [Store.file, hfile, Option.getD_some, List.length_append, head.length_bytes]
      refine ⟨h.orderly, List.prefix_rfl, hlength, ⟨_, hlength.le, le_rfl, ?_⟩, h.whole, h.opened⟩
      rw [hfile, head.take_length]
    · exact h
  · cases hstep

theorem StoreInv.crash (h : StoreInv head s) {n : Nat} {flight : Option AppendCall}
    (hstep : s.crash Z n flight = some t) : StoreInv head t := by
  cases flight with
  | none =>
    rw [Store.crash] at hstep
    split at hstep
    · rename_i hn
      cases hstep
      obtain ⟨k, -, hk, hfile⟩ := h.front
      have hfile' : s.file = (head.bytes ++ frameBytes Z s.written).take k := by
        rw [Store.file, hfile, Option.getD_some]
      have hnk : n ≤ k := by
        have hle := hn.2
        rw [hfile', List.length_take] at hle
        omega
      rw [Store.crashed, List.append_nil]
      refine ⟨h.orderly, h.kept, h.secured_eq, ⟨n, hn.1, hnk.trans hk, ?_⟩, by simp, by simp⟩
      rw [hfile', List.take_take, min_eq_left hnk]
    · cases hstep
  | some c =>
    simp only [Store.crash] at hstep
    split at hstep
    · rename_i hguard
      obtain ⟨hup, hproper, hlen, hn, hle⟩ := hguard
      cases hstep
      obtain ⟨horderly, hbytes⟩ := h.frame hup hproper hlen
      obtain ⟨hfile, -, -⟩ := h.whole (.inr hup)
      have hfile' : s.file ++ c.bytes Z =
          head.bytes ++ frameBytes Z (s.written ++ c.frame) := by
        rw [Store.file, hfile, Option.getD_some, hbytes, List.append_assoc]
      rw [hfile'] at hle ⊢
      rw [List.length_append, head.length_bytes] at hle
      exact ⟨horderly, h.kept.trans (List.prefix_append _ _), h.secured_eq,
        ⟨n, hn, hle, rfl⟩, by simp [Store.crashed], by simp [Store.crashed]⟩
    · cases hstep

/-- Every step keeps the invariant. -/
theorem StoreInv.step (h : StoreInv head s) {a : StoreAction} (hstep : s.step Z a = some t) :
    StoreInv head t := by
  cases a with
  | recover inteval buf => exact h.recover hstep
  | openAppend io => exact h.openAppend hstep
  | append c => exact h.append hstep
  | sysnc ok => exact h.sysnc hstep
  | crash flight n => exact h.crash hstep

theorem storeInv_reachable (h : (store head).Reachable s) : StoreInv head s := by
  refine h.invariant (fun s hinit => ?_) fun s a t hs hstep => hs.step hstep
  obtain ⟨frames, horderly, rfl⟩ := hinit
  exact .start horderly

/-- What is synced stays synced. -/
theorem StoreInv.synced_step (h : StoreInv head s) {a : StoreAction}
    (hstep : s.step Z a = some t) : s.synced <+: t.synced := by
  cases a with
  | recover inteval buf =>
    rcases h.recover_cases hstep with ⟨rfl, -⟩ | ⟨-, r, rfl, -⟩
    · exact List.prefix_rfl
    · exact List.prefix_rfl
  | openAppend io =>
    rw [Store.step, Store.openAppend] at hstep
    split at hstep
    · simp only [Option.some.injEq] at hstep
      subst hstep
      split
      · exact List.prefix_rfl
      · exact List.prefix_rfl
    · cases hstep
  | append c =>
    rw [Store.step, Store.append] at hstep
    split at hstep
    · split at hstep
      · simp only [Option.some.injEq] at hstep
        subst hstep
        split
        · exact List.prefix_rfl
        · exact List.prefix_rfl
      · cases hstep
    · cases hstep
  | sysnc ok =>
    rw [Store.step, Store.sysnc] at hstep
    split at hstep
    · cases hstep
      split
      · exact h.kept
      · exact List.prefix_rfl
    · cases hstep
  | crash flight n =>
    cases flight with
    | none =>
      rw [Store.step, Store.crash] at hstep
      split at hstep
      · cases hstep
        exact List.prefix_rfl
      · cases hstep
    | some c =>
      simp only [Store.step, Store.crash] at hstep
      split at hstep
      · cases hstep
        exact List.prefix_rfl
      · cases hstep

theorem synced_run (h : (store head).Reachable s) {as : List StoreAction}
    (hrun : (store head).Run s as t) : s.synced <+: t.synced :=
  h.run_rel (R := fun s t => s.synced <+: t.synced) (fun _ => List.prefix_rfl)
    (fun _ _ _ => List.IsPrefix.trans)
    (fun _ _ _ hs hstep => (storeInv_reachable hs).synced_step hstep) hrun

/-! ## Main results -/

/-- The frames that were synced at some time stand at the front of the file ever after, in
the order of their epochs, each at its offset; behind the whole frames there is only a tail
that no scan accepts, and none once the segment was scanned. -/
theorem synced_kept (h : (store head).Reachable s) {as : List StoreAction}
    (hrun : (store head).Run s as t) :
    ∃ frames tail, t.segment.file = some (head.bytes ++ frameBytes Z frames ++ tail) ∧
      s.synced <+: frames ∧ frames <+: t.written ∧ Orderly head.base frames ∧
      (∀ off e, ¬ FrameAccepted Z tail off e) ∧
      (t.status = .scanned ∨ t.status = .up → frames = t.written ∧ tail = []) := by
  have hinv := storeInv_reachable (h.run hrun)
  have hsynced := synced_run h hrun
  by_cases hstatus : t.status = .scanned ∨ t.status = .up
  · obtain ⟨hfile, -⟩ := hinv.whole hstatus
    refine ⟨t.written, [], by rw [hfile, List.append_nil], hsynced.trans hinv.kept,
      List.prefix_rfl, hinv.orderly, ?_, fun _ => ⟨rfl, rfl⟩⟩
    intro off e haccepted
    have hcomplete := haccepted.complete
    rw [List.length_nil, frameHead] at hcomplete
    omega
  · obtain ⟨n, hn, -, hfile⟩ := hinv.front
    have hsecured := hinv.secured_eq
    rw [head.take_append (by omega)] at hfile
    obtain ⟨tail, htake, hnone⟩ := take_frameBytes (Z := Z) (n - 32) t.written
    have hfront := wholeFrames_front (n - 32) t.written
    refine ⟨wholeFrames (n - 32) t.written, tail, by rw [hfile, htake, List.append_assoc],
      hsynced.trans (prefix_wholeFrames (Z := Z) hinv.kept (by omega)), hfront,
      hinv.orderly.of_front hfront, hnone, fun h => absurd h hstatus⟩

/-- One frame is synced and one is not; the crash is inside the append of a third, and the
recovery finds the first two. -/
theorem synced_kept_torn :
    let head := SegmentHead.creat zlib 1000 0 (by decide)
    ∃ s t as, (store head).Reachable s ∧ (store head).Run s as t ∧
      (s.status = .up ∧ s.synced.length = 1 ∧ t.status = .scanned ∧ t.written.length = 2) ∧
      s.synced <+: t.written ∧
      t.segment.file = some (head.bytes ++ frameBytes zlib t.written) := by
  intro head
  let as : List StoreAction :=
    [.recover 4 (List.replicate 20 0), .openAppend {}, .append ⟨[1, 2, 3], 1000, 3, {}⟩,
      .sysnc true]
  let bs : List StoreAction :=
    [.append ⟨[4], 1023, 4, {}⟩, .crash (some ⟨[5, 6], 1044, 4, {}⟩) 88,
      .recover 4 (List.replicate 20 0)]
  have hinit : (store head).Reachable (head.store []) :=
    .of_init ⟨[], ⟨trivial, List.Pairwise.nil⟩, rfl⟩
  have hrun : (as.foldlM (Store.step zlib) (head.store [])).any (fun s =>
      decide (s.status = .up ∧ s.synced.length = 1) &&
        (bs.foldlM (Store.step zlib) s).any fun t =>
          decide (t.status = .scanned ∧ t.written.length = 2)) = true := by
    decide +kernel
  obtain ⟨s, hs, hfacts⟩ := (Option.any_eq_true _ _).mp hrun
  obtain ⟨hfirst, hrest⟩ := Bool.and_eq_true_iff.mp hfacts
  obtain ⟨hup, hone⟩ := of_decide_eq_true hfirst
  obtain ⟨t, ht, hlast⟩ := (Option.any_eq_true _ _).mp hrest
  obtain ⟨hscanned, htwo⟩ := of_decide_eq_true hlast
  have hreach := hinit.foldlM (f := Store.step zlib) (fun _ _ _ h => h) hs
  have hthen : (store head).Run s bs t := .of_foldlM (f := Store.step zlib) (fun _ _ _ h => h) ht
  obtain ⟨frames, tail, hfile, hkept, -, -, -, hwhole⟩ := synced_kept hreach hthen
  obtain ⟨rfl, rfl⟩ := hwhole (.inl hscanned)
  rw [List.append_nil] at hfile
  exact ⟨s, t, bs, hreach, hthen, ⟨hup, hone, hscanned, htwo⟩, hkept, hfile⟩

/-- A recovery is refused exactly where the length field at the cut cannot be read. Any other
leaves the whole frames of the file, the synced ones among them, and tells the caller to go on
behind the last of them. -/
theorem recover_refused_iff (h : (store head).Reachable s) {inteval : ℕ+} {buf : List UInt8}
    (hstep : s.recover Z inteval buf = some t) :
    (t.status = .refused ↔
        ¬ LenReadable (buf.drop 8) s.written (s.file.length - 32)) ∧
      (t.status ≠ .refused →
        t.segment.file = some (head.bytes ++ frameBytes Z t.written) ∧
          s.synced <+: t.written ∧ t.written = wholeFrames (s.file.length - 32) s.written ∧
          t.next = t.file.length ∧ t.epoch = lastStored t.written) := by
  have hinv := storeInv_reachable h
  obtain ⟨m, hkept, -, hlen, -⟩ := hinv.file_eq
  rcases hinv.recover_cases hstep with ⟨rfl, hread⟩ | ⟨hread, r, rfl, hend, hepoch⟩
  · exact ⟨by simp [hread], by simp⟩
  · refine ⟨by simp [Store.recovered, hread], fun _ => ⟨rfl, ?_, rfl, ?_, hepoch⟩⟩
    · show s.synced <+: wholeFrames (s.file.length - 32) s.written
      rwa [hlen]
    · show r.vaildEnd = (head.bytes ++ frameBytes Z _).length
      rw [hend, List.length_append, head.length_bytes]

/-- Of the second frame only the first twelve bytes are left. -/
theorem recover_refused_iff_torn :
    let head := SegmentHead.creat zlib 1000 0 (by decide)
    ∃ s t, (store head).Reachable s ∧ s.file.length = 67 ∧
      s.recover zlib 4 (List.replicate 20 0) = some t ∧ t.status ≠ .refused ∧
      t.segment.file = some (head.bytes ++ frameBytes zlib t.written) ∧ t.next = 55 := by
  intro head
  let as : List StoreAction :=
    [.recover 4 (List.replicate 20 0), .openAppend {}, .append ⟨[1, 2, 3], 1000, 3, {}⟩,
      .crash (some ⟨[4], 1023, 4, {}⟩) 67]
  have hinit : (store head).Reachable (head.store []) :=
    .of_init ⟨[], ⟨trivial, List.Pairwise.nil⟩, rfl⟩
  have hrun : (as.foldlM (Store.step zlib) (head.store [])).any (fun s =>
      decide (s.file.length = 67 ∧
        LenReadable ((List.replicate 20 0).drop 8) s.written (s.file.length - 32)) &&
        (s.recover zlib 4 (List.replicate 20 0)).any fun t => decide (t.next = 55)) = true := by
    decide +kernel
  obtain ⟨s, hs, hfacts⟩ := (Option.any_eq_true _ _).mp hrun
  obtain ⟨hfirst, hrest⟩ := Bool.and_eq_true_iff.mp hfacts
  obtain ⟨hlength, hread⟩ := of_decide_eq_true hfirst
  obtain ⟨t, ht, hnext⟩ := (Option.any_eq_true _ _).mp hrest
  have hreach := hinit.foldlM (f := Store.step zlib) (fun _ _ _ h => h) hs
  obtain ⟨hiff, hgood⟩ := recover_refused_iff hreach ht
  have hrefused : t.status ≠ .refused := fun h => hiff.mp h hread
  exact ⟨s, t, hreach, hlength, ht, hrefused, (hgood hrefused).1, of_decide_eq_true hnext⟩

end Steps

end ServiceInfra
