import ServiceInfra.FileIo
import ServiceInfra.Segment.Layout

/-!
# Segment

The writer of segment files. A `Segment` opens its file with `creat` or `open_append`
and keeps the file position, the base offset and the last epoch it wrote in memory. Each
method returns whether it succeeded; the outcomes of its `File_io` calls are arguments.

Main results:
- `Segment.writeLen_full`: a faultless write at the end of the file
- `Segment.append_full`, `Segment.append_refused`: the two ends of a faultless append
- `Segment.openAppend_full`: what a faultless re-open restores
-/

namespace ServiceInfra

open Net (messagemaxlen messagemaxlen_toNat)

/-! ## Definitions -/

/-- The members of `Segment`, with the file at its path. -/
structure Segment where
  /-- `fd >= 0`. -/
  isOpen : Bool := false
  offset : Nat := 0
  baseOffset : UInt64 := 0
  walltime : UInt64 := 0
  /-- The epoch last written through this object. -/
  lastEpoch : UInt32 := 0
  /-- The bytes at `path`; `none` when there is no file. -/
  file : Option (List UInt8)
  deriving DecidableEq, Repr

/-- The outcomes of the calls of `write_len`. -/
structure WriteIo where
  pwrite : WriteOutcome := .full
  ftruncate : Bool := true

/-- The outcomes of the calls of `creat`. -/
structure CreatIo where
  open_ : Bool := true
  head : WriteIo := {}
  ftruncate : Bool := true
  fdatasync : Bool := true
  fsyncDir : Bool := true

/-- The outcomes of the calls of `open_append`. -/
structure OpenIo where
  open_ : Bool := true
  head : ReadOutcome := .full
  fstat : Bool := true

/-- The outcomes of the calls of `append`. -/
structure AppendIo where
  header : WriteIo := {}
  payload : WriteIo := {}
  ftruncate : Bool := true

namespace Segment

/-- `io_.ftruncate(fd, offset)`. -/
def cut (s : Segment) (ok : Bool) : Segment :=
  if s.isOpen then { s with file := s.file.map fun file => ftruncate file s.offset ok } else s

/-- `write_len`, of either buffer type. -/
def writeLen (s : Segment) (buf : List UInt8) (io : WriteIo) : Segment × Bool :=
  match s.isOpen, s.file with
  | true, some file =>
      let (file, n) := pwrite file buf s.offset io.pwrite
      if n = -1 then ({ s with file := some file }, false)
      else if n < buf.length then (({ s with file := some file } : Segment).cut io.ftruncate, false)
      else ({ s with file := some file, offset := s.offset + buf.length }, true)
  | _, _ => (s, false)

/-- `creat`, at wall time `now`. -/
def creat (Z : Zlib) (s : Segment) (now : UInt64) (io : CreatIo) : Segment × Bool :=
  if io.open_ = false ∨ s.file.isSome then ({ s with isOpen := false }, false)
  else
    let (s, ok) := ({ s with isOpen := true, file := some [] } : Segment).writeLen
      (writeSegheadBg Z 1 s.baseOffset now) io.head
    if ok = false then (s.cut io.ftruncate, false)
    else if io.fdatasync = false then (s, false)
    else if io.fsyncDir = false then (s, false)
    else (s, true)

/-- `open_append`. -/
def openAppend (Z : Zlib) (s : Segment) (io : OpenIo) : Segment × Bool :=
  match io.open_, s.file with
  | true, some file =>
      let s := { s with isOpen := true }
      match pread file 32 0 io.head with
      | none => (s, false)
      | some buf =>
          if buf.length ≠ 32 then (s, false)
          else
            match compareMagicCrc Z buf with
            | none => (s, false)
            | some (baseOffset, walltime) =>
                let s := { s with baseOffset, walltime }
                if io.fstat = false then (s, false)
                else ({ s with offset := file.length }, true)
  | _, _ => ({ s with isOpen := false }, false)

/-- `append`. -/
def append (Z : Zlib) (s : Segment) (payload : List UInt8) (byteOff : UInt64) (epoch : UInt32)
    (io : AppendIo) : Segment × Bool :=
  if messagemaxlen.toNat < payload.length then (s, false)
  else if epoch < s.lastEpoch then (s, false)
  else
    let (s, ok) := s.writeLen (writeFrameBg Z byteOff epoch payload) io.header
    if ok then
      let (s, ok) := s.writeLen payload io.payload
      if ok then ({ s with lastEpoch := epoch }, true)
      else (({ s with offset := s.offset - frameHead } : Segment).cut io.ftruncate, false)
    else (s, false)

/-- `sysnc`. -/
def sysnc (s : Segment) (fdatasync : Bool) : Bool := s.isOpen && fdatasync

end Segment

/-! ## Faultless calls -/

namespace Segment

variable {Z : Zlib} {s : Segment} {file : List UInt8}

theorem writeLen_full (hopen : s.isOpen = true) (hfile : s.file = some file)
    (hoffset : s.offset = file.length) (buf : List UInt8) :
    s.writeLen buf {} =
      ({ s with file := some (file ++ buf), offset := s.offset + buf.length }, true) := by
  have hne : ¬ (buf.length : Int) = -1 := by omega
  simp only [writeLen, hopen, hfile, hoffset, pwrite, writeAt_length, if_neg hne, lt_self_iff_false,
    if_false]

/-- An append that passes both checks adds one frame at the end of the file. -/
theorem append_full (hopen : s.isOpen = true) (hfile : s.file = some file)
    (hoffset : s.offset = file.length) {payload : List UInt8} {epoch : UInt32}
    (hlen : payload.length ≤ 1048576) (hepoch : s.lastEpoch ≤ epoch) (byteOff : UInt64) :
    s.append Z payload byteOff epoch {} =
      ({ s with
          file := some (file ++ encodeFrame Z byteOff epoch payload)
          offset := s.offset + (frameHead + payload.length)
          lastEpoch := epoch }, true) := by
  -- both checks pass
  have hmax : ¬ messagemaxlen.toNat < payload.length := by
    rw [messagemaxlen_toNat]
    omega
  have hlast : ¬ epoch < s.lastEpoch := UInt32.not_lt.mpr hepoch
  -- the payload is written behind the frame header
  have hpayload := writeLen_full
    (s := { s with
      file := some (file ++ writeFrameBg Z byteOff epoch payload)
      offset := s.offset + (writeFrameBg Z byteOff epoch payload).length })
    hopen rfl (by rw [hoffset, List.length_append]) payload
  simp only [append, if_neg hmax, if_neg hlast, writeLen_full hopen hfile hoffset, if_true]
  rw [hpayload]
  simp only [if_true, encodeFrame, List.append_assoc, length_writeFrameBg, frameHead, Nat.add_assoc]

/-- An append that fails a check changes nothing. -/
theorem append_refused {payload : List UInt8} {epoch : UInt32}
    (h : 1048576 < payload.length ∨ epoch < s.lastEpoch) (byteOff : UInt64) (io : AppendIo) :
    s.append Z payload byteOff epoch io = (s, false) := by
  unfold append
  rw [messagemaxlen_toNat]
  -- either check returns before anything is written
  rcases h with hlen | hepoch
  · rw [if_pos hlen]
  · rw [if_pos hepoch, ite_self]

/-- A re-open restores the position and the header fields; the last epoch is the new
object's own. -/
theorem openAppend_full {base wall : UInt64} {header body : List UInt8}
    (hfile : s.file = some (header ++ body)) (hlen : header.length = 32)
    (hvalid : compareMagicCrc Z header = some (base, wall)) :
    s.openAppend Z {} =
      ({ s with
          isOpen := true
          baseOffset := base
          walltime := wall
          offset := 32 + body.length }, true) := by
  -- the header is read whole
  have hread : pread (header ++ body) 32 0 .full = some header := by
    rw [pread, List.drop_zero, List.take_left' hlen]
  simp only [openAppend, hfile, hread, hlen, ne_eq, not_true_eq_false, if_false, hvalid,
    Bool.true_eq_false, List.length_append]

theorem creat_full (hfile : s.file = none) (hoffset : s.offset = 0) (now : UInt64) :
    s.creat Z now {} =
      ({ s with
          isOpen := true
          file := some (writeSegheadBg Z 1 s.baseOffset now)
          offset := 32 }, true) := by
  have hwrite := writeLen_full (s := { s with isOpen := true, file := some [] }) rfl rfl hoffset
    (writeSegheadBg Z 1 s.baseOffset now)
  simp only [creat, hfile, Option.isSome_none, Bool.true_eq_false, Bool.false_eq_true, or_self,
    if_false]
  rw [hwrite]
  simp only [Bool.true_eq_false, if_false, List.nil_append, hoffset, length_writeSegheadBg,
    Nat.zero_add]

end Segment

end ServiceInfra
