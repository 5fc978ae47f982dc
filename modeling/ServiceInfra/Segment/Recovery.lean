import Mathlib.Data.PNat.Basic
import ServiceInfra.FileIo
import ServiceInfra.Library.Loop
import ServiceInfra.Segment.Format

/-!
# Segment recovery

`Segment_recovery` walks a segment file frame by frame and ends in one of four ways:
clean, a torn tail that may be cut off, corrupt, or a bad header. One read buffer
serves every turn of the walk; `new uint8_t[...]` leaves its first contents undefined,
so they are an argument here, and what a read does not overwrite stays.

The walk is a `Loop`: every accepted frame moves `offset` towards the end of the file,
so `filelen - offset` never wraps and bounds the turns.
-/

namespace ServiceInfra

open Library
open Net (messagemaxlen messagemaxlen_toNat)

/-! ## Definitions -/

/-- `Scan_end::kind`. -/
inductive ScanKind where
  | clean
  | tornTail
  | corrupt
  | headBad
  deriving DecidableEq, Repr

/-- `Scan_end`. -/
structure ScanEnd where
  kind : ScanKind
  vaildEnd : Nat := 0
  tornEnd : Nat := 0
  corruptAt : CorruptAt := .atLen
  lastEpoch : UInt32 := 0
  deriving DecidableEq, Repr

/-- The members of `Segment_recovery` that a scan uses. -/
structure SegmentRecovery where
  /-- The read buffer. -/
  buf : List UInt8
  /-- The anchors recorded so far. -/
  idx : List UInt64 := []
  /-- Frames between anchors, converted to `uint64_t` as in `times % inteval`. It is not 0,
  by which that would divide. -/
  inteval : ℕ+
  offset : Nat := 32
  prevEpoch : UInt32 := 0

/-- The outcomes of the calls one scan makes. -/
structure ScanIo where
  /-- The `pread` of the header. -/
  head : ReadOutcome := .full
  fstat : Bool := true
  /-- The `pread` of each turn of the loop. -/
  read : Nat → ReadOutcome := fun _ => .full

/-- `read_segment32`: the base offset of a valid header, 0 when it cannot be read or is
not valid. -/
def readSegment32 (Z : Zlib) (file : List UInt8) (o : ReadOutcome) : UInt64 :=
  match pread file 32 0 o with
  | none => 0
  | some buf =>
      if buf.length ≠ 32 then 0
      else
        match compareMagicCrc Z buf with
        | none => 0
        | some (baseOffset, _) => baseOffset

/-- The scanner with the local variables of its loop. `ans.kind` is set at each return. -/
structure ScanState extends SegmentRecovery where
  times : Nat := 0
  byteSince : Nat := 0
  ans : ScanEnd := { kind := .corrupt }
  /-- How many reads the loop has made. -/
  reads : Nat := 0

namespace ScanState

/-- `ans.torn_end=offset; ans.vaild_end=offset; ans.kind=torn_tail`. -/
def torn (s : ScanState) : ScanEnd :=
  { s.ans with tornEnd := s.offset, vaildEnd := s.offset, kind := .tornTail }

/-- The branch of an accepted frame: count it, record an anchor when one is due
(`server_idx`), and move past it. -/
def accept (s : ScanState) (base : UInt64) (len : Nat) (result : Framecheck) : ScanState :=
  let times := s.times + 1
  let byteSince := s.byteSince + (20 + len)
  let due := times % s.inteval = 0 ∨ 1024 * 64 ≤ byteSince
  let offset := s.offset + (result.len.toNat + 20)
  { s with
    times := if due then 0 else times
    byteSince := if due then 0 else byteSince
    idx := if due then s.idx ++ [base + (UInt64.ofNat s.offset - 32)] else s.idx
    offset
    prevEpoch := result.epoch
    ans := { s.ans with lastEpoch := result.epoch, vaildEnd := offset } }

end ScanState

/-- One turn of the scan loop. -/
def scanTurn (Z : Zlib) (file : List UInt8) (base : UInt64) (read : Nat → ReadOutcome)
    (s : ScanState) : ScanState ⊕ (ScanEnd × SegmentRecovery) :=
  let want := 20 + min messagemaxlen.toNat (file.length - s.offset)
  let got := pread file want s.offset (read s.reads)
  let n := ssize got
  let s := { s with buf := stored s.buf (got.getD []), reads := s.reads + 1 }
  -- an `int` compared with a `uint32_t`: a negative `len` is above the limit too
  let len := readCrcBig (s.buf.drop 8)
  if messagemaxlen < len then
    .inr ({ s.ans with kind := .corrupt, corruptAt := .atLen }, s.toSegmentRecovery)
  else if n < 20 then .inr (s.torn, s.toSegmentRecovery)
  else if 20 + len.toNat ≤ n then
    let result := checkFrame Z (s.buf.take n.toNat) (base + UInt64.ofNat s.offset - 32) s.prevEpoch
    let s := { s with ans := { s.ans with corruptAt := result.corruptAt } }
    match result.kind with
    | .corrupt => .inr ({ s.ans with kind := .corrupt }, s.toSegmentRecovery)
    | .torn => .inr (s.torn, s.toSegmentRecovery)
    | .valid =>
        let s := s.accept base len.toNat result
        if s.ans.vaildEnd = file.length then
          .inr ({ s.ans with kind := .clean }, s.toSegmentRecovery)
        else .inl s
  else .inr (s.torn, s.toSegmentRecovery)

/-- A turn that goes on has read a whole frame and moved past it. -/
theorem scanTurn_inl {Z : Zlib} {file : List UInt8} {base : UInt64} {read : Nat → ReadOutcome}
    {s s' : ScanState} (h : scanTurn Z file base read s = .inl s') :
    s.offset + 20 ≤ s'.offset ∧ s.offset < file.length := by
  have hle := ssize_pread_le file (20 + min messagemaxlen.toNat (file.length - s.offset))
    s.offset (read s.reads)
  unfold scanTurn at h
  simp only at h
  -- only the branch of a valid frame goes on, and it needs 20 bytes read
  split at h
  · cases h
  · split at h
    · cases h
    · rename_i hn
      split at h
      · split at h
        · cases h
        · cases h
        · split at h
          · cases h
          · cases h
            refine ⟨?_, by omega⟩
            simp only [ScanState.accept]
            omega
      · cases h

/-- The loop of `segment_scanner` on a file of which `fstat` told the length. -/
def scanLoop (Z : Zlib) (file : List UInt8) (base : UInt64) (read : Nat → ReadOutcome) :
    Loop ScanState (ScanEnd × SegmentRecovery) where
  body := scanTurn Z file base read
  variant s := file.length - s.offset
  variant_lt s s' h := by
    have hmove := scanTurn_inl h
    omega

namespace SegmentRecovery

/-- A scanner just constructed over a buffer whose contents are whatever they are. -/
def fresh (inteval : ℕ+) (buf : List UInt8) : SegmentRecovery := { buf, inteval }

/-- `segment_scanner`. -/
def segmentScanner (Z : Zlib) (r : SegmentRecovery) (file : List UInt8) (io : ScanIo) :
    ScanEnd × SegmentRecovery :=
  let base := readSegment32 Z file io.head
  if io.fstat = false then ({ kind := .corrupt }, r)
  else if base = 0 then ({ kind := .headBad }, r)
  else (scanLoop Z file base io.read).exec { r with }

/-- `turncate_segment`: cut the file at `offset`. -/
def turncateSegment (file : List UInt8) (offset : Nat) (ok : Bool) : List UInt8 :=
  ftruncate file offset ok

end SegmentRecovery

/-! ## One turn -/

/-- The bytes that the `i`-th read of the loop returns at `p`; none for -1. -/
def readAt (file : List UInt8) (read : Nat → ReadOutcome) (i p : Nat) : List UInt8 :=
  (pread file (20 + min messagemaxlen.toNat (file.length - p)) p (read i)).getD []

/-- The value a read returns, against the bytes it stored. -/
theorem ssize_readAt (file : List UInt8) (read : Nat → ReadOutcome) (i p : Nat) :
    ssize (pread file (20 + min messagemaxlen.toNat (file.length - p)) p (read i)) =
        (readAt file read i p).length ∨
      ssize (pread file (20 + min messagemaxlen.toNat (file.length - p)) p (read i)) = -1 ∧
        readAt file read i p = [] := by
  rw [readAt]
  cases read i with
  | full => exact .inl rfl
  | short k => exact .inl rfl
  | fail => exact .inr ⟨rfl, rfl⟩

/-- The length field the scanner looks at after reading `rest` into its buffer; when
`rest` ends inside the field, the missing bytes are those the buffer held before. -/
def seenLen (buf rest : List UInt8) : UInt32 := readCrcBig ((stored buf rest).drop 8)

/-- The offset the scan expects the next frame to carry. -/
def ScanState.expected (s : ScanState) (base : UInt64) : UInt64 :=
  base + UInt64.ofNat s.offset - 32

/-- The bytes the next turn reads. -/
def ScanState.got (s : ScanState) (file : List UInt8) (read : Nat → ReadOutcome) : List UInt8 :=
  readAt file read s.reads s.offset

/-- The state after that read. -/
def ScanState.afterGot (s : ScanState) (file : List UInt8) (read : Nat → ReadOutcome) : ScanState :=
  { s with buf := stored s.buf (s.got file read), reads := s.reads + 1 }

/-- A turn in terms of the bytes it read: with -1 it decides as if it had read nothing. -/
theorem scanTurn_eq (Z : Zlib) (file : List UInt8) (base : UInt64) (read : Nat → ReadOutcome)
    (s : ScanState) :
    scanTurn Z file base read s =
      let bytes := s.got file read
      let len := seenLen s.buf bytes
      let result := checkFrame Z bytes (s.expected base) s.prevEpoch
      let s := s.afterGot file read
      if messagemaxlen < len then
        .inr ({ s.ans with kind := .corrupt, corruptAt := .atLen }, s.toSegmentRecovery)
      else if bytes.length < 20 + len.toNat then .inr (s.torn, s.toSegmentRecovery)
      else
        let s := { s with ans := { s.ans with corruptAt := result.corruptAt } }
        match result.kind with
        | .corrupt => .inr ({ s.ans with kind := .corrupt }, s.toSegmentRecovery)
        | .torn => .inr (s.torn, s.toSegmentRecovery)
        | .valid =>
            let s := s.accept base len.toNat result
            if s.ans.vaildEnd = file.length then
              .inr ({ s.ans with kind := .clean }, s.toSegmentRecovery)
            else .inl s := by
  have hbytes : (pread file (20 + min messagemaxlen.toNat (file.length - s.offset)) s.offset
      (read s.reads)).getD [] = s.got file read := rfl
  have hseen : readCrcBig ((stored s.buf (s.got file read)).drop 8) =
      seenLen s.buf (s.got file read) := rfl
  have hssize := ssize_readAt file read s.reads s.offset
  rw [show readAt file read s.reads s.offset = s.got file read from rfl] at hssize
  unfold scanTurn
  simp only [hbytes, hseen]
  generalize ssize (pread file (20 + min messagemaxlen.toNat (file.length - s.offset)) s.offset
    (read s.reads)) = n at hssize ⊢
  by_cases hbig : messagemaxlen < seenLen s.buf (s.got file read)
  · simp only [if_pos hbig, ScanState.afterGot]
  · simp only [if_neg hbig]
    by_cases hshort : (s.got file read).length < 20 + (seenLen s.buf (s.got file read)).toNat
    · -- both tests on the value returned end as torn
      rw [if_pos hshort]
      split
      · rfl
      · rw [if_neg (by omega)]
        rfl
    · -- the read did not fail, and the buffer up to the value returned is what it stored
      rcases hssize with hn | ⟨-, hnil⟩
      · have htake : (stored s.buf (s.got file read)).take (s.got file read).length =
            s.got file read := List.take_left
        rw [if_neg hshort, if_neg (by omega), if_pos (by omega), hn, Int.toNat_natCast, htake]
        rfl
      · rw [hnil] at hshort
        exact absurd (by simp) hshort

/-! ## One faultless turn -/

theorem seenLen_eq_frameLen {rest : List UInt8} (h : 12 ≤ rest.length) (buf : List UInt8) :
    seenLen buf rest = frameLen rest := frameLen_append h _

/-- The bytes a turn reads: the rest of the file up to the size of the buffer. -/
def scanWindow (rest : List UInt8) : List UInt8 :=
  rest.take (20 + min messagemaxlen.toNat rest.length)

theorem length_scanWindow (rest : List UInt8) :
    (scanWindow rest).length = min (20 + min 1048576 rest.length) rest.length := by
  rw [scanWindow, List.length_take, messagemaxlen_toNat]

theorem scanWindow_append (rest : List UInt8) :
    scanWindow rest ++ rest.drop (20 + min messagemaxlen.toNat rest.length) = rest :=
  List.take_append_drop _ _

/-- Capping the window does not change the length field seen. -/
theorem seenLen_scanWindow (buf rest : List UInt8) :
    seenLen buf (scanWindow rest) = seenLen buf rest := by
  -- a rest of 12 bytes or more keeps its length field in the window, a shorter one is not capped
  by_cases h : 12 ≤ rest.length
  · have hw : 12 ≤ (scanWindow rest).length := by rw [length_scanWindow]; omega
    rw [seenLen_eq_frameLen h, seenLen_eq_frameLen hw, ← frameLen_append hw, scanWindow_append]
  · have hw : scanWindow rest = rest := by
      rw [scanWindow, List.take_of_length_le (by omega)]
    rw [hw]

/-- Capping the window never makes a complete frame look incomplete. -/
theorem scanWindow_complete {len : UInt32} (h : len ≤ messagemaxlen) (rest : List UInt8) :
    20 + len.toNat ≤ (scanWindow rest).length ↔ 20 + len.toNat ≤ rest.length := by
  -- the window is 20 bytes above the largest payload
  have hlen : len.toNat ≤ 1048576 := by
    rw [← messagemaxlen_toNat]
    exact UInt32.le_iff_toNat_le.mp h
  rw [length_scanWindow]
  omega

section Faultless

variable (Z : Zlib) (file : List UInt8) (base : UInt64) (s : ScanState)

/-- The bytes from where the scan stands to the end of the file. -/
def ScanState.rest (s : ScanState) (file : List UInt8) : List UInt8 := file.drop s.offset

/-- The state after the read of a faultless turn. -/
def ScanState.afterRead (s : ScanState) (file : List UInt8) : ScanState :=
  { s with buf := stored s.buf (scanWindow (s.rest file)), reads := s.reads + 1 }

/-- A faultless turn in terms of the rest of the file: what it reads is capped, but it
decides as if it had read everything. -/
theorem scanTurn_full :
    scanTurn Z file base (fun _ => .full) s =
      let rest := s.rest file
      let len := seenLen s.buf rest
      let result := checkFrame Z rest (s.expected base) s.prevEpoch
      let s := s.afterRead file
      if messagemaxlen < len then
        .inr ({ s.ans with kind := .corrupt, corruptAt := .atLen }, s.toSegmentRecovery)
      else if rest.length < 20 ∨ rest.length < 20 + len.toNat then
        .inr (s.torn, s.toSegmentRecovery)
      else
        let s := { s with ans := { s.ans with corruptAt := result.corruptAt } }
        match result.kind with
        | .corrupt => .inr ({ s.ans with kind := .corrupt }, s.toSegmentRecovery)
        | .torn => .inr (s.torn, s.toSegmentRecovery)
        | .valid =>
            let s := s.accept base len.toNat result
            if s.ans.vaildEnd = file.length then
              .inr ({ s.ans with kind := .clean }, s.toSegmentRecovery)
            else .inl s := by
  -- what the turn reads, and which length field it sees
  have hgot : s.got file (fun _ => .full) = scanWindow (s.rest file) := by
    rw [ScanState.got, readAt, scanWindow, ScanState.rest, List.length_drop]
    rfl
  have hseen : seenLen s.buf (scanWindow (s.rest file)) = seenLen s.buf (s.rest file) :=
    seenLen_scanWindow _ _
  rw [scanTurn_eq]
  simp only [ScanState.afterGot, ScanState.afterRead, hgot, hseen]
  by_cases hbig : messagemaxlen < seenLen s.buf (s.rest file)
  · simp only [if_pos hbig]
  · simp only [if_neg hbig]
    have hcomplete := scanWindow_complete (UInt32.not_lt.mp hbig) (s.rest file)
    by_cases hshort :
        (scanWindow (s.rest file)).length < 20 + (seenLen s.buf (s.rest file)).toNat
    · rw [if_pos hshort, if_pos (by omega)]
    · -- the window holds the whole frame, so the rest of the file adds nothing to its verdict
      have hcheck : checkFrame Z (scanWindow (s.rest file)) (s.expected base) s.prevEpoch =
          checkFrame Z (s.rest file) (s.expected base) s.prevEpoch := by
        have hlen : frameLen (scanWindow (s.rest file)) = seenLen s.buf (s.rest file) := by
          rw [← hseen, seenLen_eq_frameLen (by omega)]
        rw [← checkFrame_append (by rw [hlen, frameHead]; omega), scanWindow_append]
      have hlong : ¬ ((s.rest file).length < 20 ∨
          (s.rest file).length < 20 + (seenLen s.buf (s.rest file)).toNat) := by omega
      rw [if_neg hshort, if_neg hlong, hcheck]
      rfl

end Faultless

end ServiceInfra
