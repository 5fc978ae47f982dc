import ServiceInfra.ByteOrder
import ServiceInfra.FileIo
import ServiceInfra.Library.Loop
import ServiceInfra.Zlib

/-!
# Commitlog

The commit log is a file of 36-byte records: batch number, candidate high water mark,
epoch and state of an entry, and the checksum of these. `open_or_create` replays the
file into a `Reply` and cuts off an incomplete record, `append` writes the entry in `log`
at `offset`. The outcomes of the `File_io` calls are arguments.

Main results:
- `readEntry_encodeEntry`, `sound_encodeEntry`: a written record is read back
- `Commitlog.append_full`: a faultless append at the end of the file
-/

namespace ServiceInfra

open Library

/-! ## Definitions -/

/-- `commitEntry`. -/
structure CommitEntry where
  batchNo : UInt64 := 0
  candidateHw : UInt64 := 0
  epoch : UInt64 := 0
  state : UInt8 := 0
  deriving DecidableEq, Repr

/-- `Commitlog::Reply`. -/
structure Reply where
  lastBatchNo : UInt64 := 0
  creditHw : UInt64 := 0
  lastEpoch : UInt64 := 0
  corrupt : Bool := false
  deriving DecidableEq, Repr

/-- The members of `Commitlog`, with the file at its path. -/
structure Commitlog where
  /-- The entry `append` writes. -/
  log : CommitEntry := {}
  /-- `fd >= 0`. -/
  isOpen : Bool := false
  offset : Nat := 0
  /-- The bytes at `path`; `none` when there is no file. -/
  file : Option (List UInt8)
  deriving DecidableEq, Repr

/-- The outcomes of the calls of `open_or_create`. -/
structure OpenOrCreateIo where
  /-- The first `open` finds the path free or taken; `false` for any other error. -/
  creat : Bool := true
  /-- The second `open`. -/
  open_ : Bool := true
  fsyncDir : Bool := true
  fstat : Bool := true
  /-- The `pread` of each turn of the loop. -/
  read : Nat → ReadOutcome := fun _ => .full
  ftruncate : Bool := true

/-- The outcomes of the calls of `Commitlog::append`. -/
structure CommitIo where
  pwrite : WriteOutcome := .full
  ftruncate : Bool := true

/-- The first 32 bytes of a record, as `append` lays them out. -/
def entryFields (e : CommitEntry) : List UInt8 :=
  writeU64Be e.batchNo ++ writeU64Be e.candidateHw ++ writeU64Be e.epoch ++
    (e.state :: List.replicate 7 0)

/-- The record `append` writes: the fields, then their checksum. -/
def encodeEntry (Z : Zlib) (e : CommitEntry) : List UInt8 :=
  entryFields e ++ writeU32Be (Z.crc32 (Z.crc32 0 []) (entryFields e))

/-- The fields `open_or_create` reads from its buffer. -/
def readEntry (buf : List UInt8) : CommitEntry where
  batchNo := readU64Be buf
  candidateHw := readU64Be (buf.drop 8)
  epoch := readU64Be (buf.drop 16)
  state := buf.getD 24 0

/-- The checksum in the buffer is that of its first 32 bytes. -/
def Sound (Z : Zlib) (buf : List UInt8) : Prop :=
  Z.crc32 (Z.crc32 0 []) (buf.take 32) = readCrcBig (buf.drop 32)

instance (Z : Zlib) (buf : List UInt8) : Decidable (Sound Z buf) :=
  inferInstanceAs (Decidable (_ = _))

/-- The updates of `out` by an accepted record, the same in both branches. -/
def Reply.record (out : Reply) (e : CommitEntry) : Reply :=
  let out := { out with lastBatchNo := e.batchNo }
  let out :=
    if 1 ≤ e.state ∧ out.creditHw < e.candidateHw then { out with creditHw := e.candidateHw }
    else out
  { out with lastEpoch := e.epoch }

/-- The local variables of the replay loop. -/
structure ReplayState where
  buf : List UInt8 := List.replicate 36 0
  offset : Nat
  prevBatchNo : UInt64 := 0
  prevState : UInt8 := 0
  out : Reply
  /-- How many reads the loop has made. -/
  reads : Nat := 0

namespace ReplayState

/-- `out.corrupt=true; return false`. -/
def corrupted (s : ReplayState) : ReplayState × Bool :=
  ({ s with out := { s.out with corrupt := true } }, false)

/-- The branch of a record that keeps the batch or begins the next one. -/
def accept (s : ReplayState) (e : CommitEntry) : ReplayState :=
  { s with prevBatchNo := e.batchNo, prevState := e.state, out := s.out.record e }

end ReplayState

/-- One turn of the replay loop; it leaves with `true` where less than a record is left. -/
def replayTurn (Z : Zlib) (file : List UInt8) (read : Nat → ReadOutcome) (s : ReplayState) :
    ReplayState ⊕ (ReplayState × Bool) :=
  if file.length < s.offset + 36 then .inr (s, true)
  else
    match pread file 36 s.offset (read s.reads) with
    | none => .inr { s with reads := s.reads + 1 }.corrupted
    | some bytes =>
        let s := { s with buf := stored s.buf bytes, reads := s.reads + 1 }
        if ¬ Sound Z s.buf then .inr s.corrupted
        else
          let s := { s with offset := s.offset + 36 }
          let e := readEntry s.buf
          if s.prevBatchNo = e.batchNo then
            if e.state < s.prevState ∨ 2 < e.state then .inr s.corrupted
            else .inl (s.accept e)
          else if s.prevBatchNo + 1 = e.batchNo then
            let s := { s with prevState := e.state, prevBatchNo := e.batchNo }
            if 2 < e.state then .inr s.corrupted else .inl (s.accept e)
          else .inr s.corrupted

/-- A turn that goes on has moved past a record. -/
theorem replayTurn_inl {Z : Zlib} {file : List UInt8} {read : Nat → ReadOutcome}
    {s s' : ReplayState} (h : replayTurn Z file read s = .inl s') :
    s'.offset = s.offset + 36 ∧ s.offset + 36 ≤ file.length := by
  unfold replayTurn at h
  simp only at h
  -- only the two branches of an accepted record go on
  split at h
  · cases h
  · rename_i hlen
    split at h
    · cases h
    · split at h
      · cases h
      · split at h
        · split at h
          · cases h
          · cases h
            exact ⟨rfl, by omega⟩
        · split at h
          · split at h
            · cases h
            · cases h
              exact ⟨rfl, by omega⟩
          · cases h

/-- The loop of `open_or_create` on a file of which `fstat` told the length. -/
def replayLoop (Z : Zlib) (file : List UInt8) (read : Nat → ReadOutcome) :
    Loop ReplayState (ReplayState × Bool) where
  body := replayTurn Z file read
  variant s := file.length - s.offset
  variant_lt s s' h := by
    have hmove := replayTurn_inl h
    omega

namespace Commitlog

/-- `open_or_create` from the `fstat` of the opened file on. -/
def replay (Z : Zlib) (c : Commitlog) (file : List UInt8) (out : Reply) (io : OpenOrCreateIo) :
    Commitlog × Reply × Bool :=
  if io.fstat = false then (c, out, false)
  else
    let (s, ok) := (replayLoop Z file io.read).exec { offset := c.offset, out }
    if ok then
      ({ c with offset := s.offset, file := some (ftruncate file s.offset io.ftruncate) },
        s.out, true)
    else ({ c with offset := s.offset }, s.out, false)

/-- `open_or_create(out)`: the object, `out` and the value returned. -/
def openOrCreate (Z : Zlib) (c : Commitlog) (out : Reply) (io : OpenOrCreateIo) :
    Commitlog × Reply × Bool :=
  if io.creat = false then ({ c with isOpen := false }, out, false)
  else
    match c.file with
    | none =>
        let c := { c with isOpen := true, file := some [] }
        if io.fsyncDir = false then (c, out, false) else c.replay Z [] out io
    | some file =>
        if io.open_ = false then ({ c with isOpen := false }, out, false)
        else ({ c with isOpen := true } : Commitlog).replay Z file out io

/-- `append`. -/
def append (Z : Zlib) (c : Commitlog) (io : CommitIo) : Commitlog × Bool :=
  match c.isOpen, c.file with
  | true, some file =>
      let (file, n) := pwrite file (encodeEntry Z c.log) c.offset io.pwrite
      if n = 36 then ({ c with file := some file, offset := c.offset + 36 }, true)
      else if n = -1 then ({ c with file := some file }, false)
      else ({ c with file := some (ftruncate file c.offset io.ftruncate) }, false)
  | _, _ => (c, false)

/-- `sync`. -/
def sync (c : Commitlog) (fdatasync : Bool) : Bool := c.isOpen && fdatasync

end Commitlog

/-! ## Records -/

@[simp] theorem length_entryFields (e : CommitEntry) : (entryFields e).length = 32 := rfl

@[simp] theorem length_encodeEntry (Z : Zlib) (e : CommitEntry) :
    (encodeEntry Z e).length = 36 := rfl

theorem readEntry_encodeEntry (Z : Zlib) (e : CommitEntry) : readEntry (encodeEntry Z e) = e := by
  -- each field stands where it is read
  have hbatch : readU64Be (encodeEntry Z e) = e.batchNo := readU64Be_writeU64Be _ _
  have hhw : readU64Be ((encodeEntry Z e).drop 8) = e.candidateHw := readU64Be_writeU64Be _ _
  have hepoch : readU64Be ((encodeEntry Z e).drop 16) = e.epoch := readU64Be_writeU64Be _ _
  rw [readEntry, hbatch, hhw, hepoch]
  rfl

theorem sound_encodeEntry (Z : Zlib) (e : CommitEntry) : Sound Z (encodeEntry Z e) := by
  have hstored : readCrcBig (writeU32Be (Z.crc32 (Z.crc32 0 []) (entryFields e)) ++ []) =
      Z.crc32 (Z.crc32 0 []) (entryFields e) := readCrcBig_writeU32Be _ _
  rw [List.append_nil] at hstored
  rw [Sound, encodeEntry, List.take_left' (length_entryFields e),
    List.drop_left' (length_entryFields e), hstored]

/-- A faultless append at the end of the file adds one record. -/
theorem Commitlog.append_full {Z : Zlib} {c : Commitlog} {file : List UInt8}
    (hopen : c.isOpen = true) (hfile : c.file = some file) (hoffset : c.offset = file.length) :
    c.append Z {} =
      ({ c with file := some (file ++ encodeEntry Z c.log), offset := c.offset + 36 }, true) := by
  simp only [append, hopen, hfile, hoffset, pwrite, writeAt_length, length_encodeEntry,
    Nat.cast_ofNat, if_true]

end ServiceInfra
