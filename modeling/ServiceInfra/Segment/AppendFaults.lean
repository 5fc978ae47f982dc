import ServiceInfra.Segment.Writer

/-!
# Appends under faults

`append` makes two writes, and a write may be cut short or fail. `write_len` and `append`
then put the offset back and cut the file. What a file holds behind the offset of its
segment is named `left` here: none of it belongs to an acknowledged frame, and it is there
only when a cut failed. `AppendCall.leaves` says, on the arguments and outcomes of one
call alone, what is left after the call.

Main results:
- `Segment.append_written`, `Segment.append_failed`: the two ends of an append under faults
- `Segment.Holds.call_iff`: when an append returns true
- `runAppends_holds`: a run keeps the acknowledged frames in front of what is left
- `appends_all_or_nothing`: with working cuts, nothing is ever left
-/

namespace ServiceInfra

open Net (messagemaxlen messagemaxlen_toNat)

/-! ## Definitions -/

/-- One call of `append`, with the outcomes of the system calls it makes. -/
structure AppendCall where
  payload : List UInt8
  byteOff : UInt64
  epoch : UInt32
  io : AppendIo := {}

/-- The call on a segment. -/
def Segment.call (Z : Zlib) (s : Segment) (c : AppendCall) : Segment × Bool :=
  s.append Z c.payload c.byteOff c.epoch c.io

/-- A run of calls. -/
def runAppends (Z : Zlib) (s : Segment) (calls : List AppendCall) : Segment :=
  calls.foldl (fun s c => (s.call Z c).1) s

/-- The calls of a run that returned true, in order. -/
def ackedCalls (Z : Zlib) : Segment → List AppendCall → List AppendCall
  | _, [] => []
  | s, c :: calls =>
      if (s.call Z c).2 then c :: ackedCalls Z (s.call Z c).1 calls
      else ackedCalls Z (s.call Z c).1 calls

/-- The frame that the call has to write. -/
def AppendCall.bytes (Z : Zlib) (c : AppendCall) : List UInt8 :=
  encodeFrame Z c.byteOff c.epoch c.payload

/-- The frames that these calls have to write, laid end to end. -/
def callBytes (Z : Zlib) (calls : List AppendCall) : List UInt8 :=
  calls.flatMap (AppendCall.bytes Z)

/-- Every `ftruncate` that the call may make succeeds. -/
def AppendIo.Truncates (io : AppendIo) : Prop :=
  io.header.ftruncate = true ∧ io.payload.ftruncate = true ∧ io.ftruncate = true

/-- The segments that `creat` or `open_append` of a new object opened, whatever their
system calls did on the way. -/
inductive Opened (Z : Zlib) : Segment → Prop where
  | creat (file : Option (List UInt8)) (now : UInt64) (io : CreatIo) :
      (({ file } : Segment).creat Z now io).2 = true →
      Opened Z (({ file } : Segment).creat Z now io).1
  | openAppend (file : Option (List UInt8)) (io : OpenIo) :
      (({ file } : Segment).openAppend Z io).2 = true →
      Opened Z (({ file } : Segment).openAppend Z io).1

/-- An open segment; its file holds `held` up to the segment's offset and `left` behind it. -/
structure Segment.Holds (s : Segment) (held left : List UInt8) : Prop where
  isOpen : s.isOpen = true
  file_eq : s.file = some (held ++ left)
  offset_eq : s.offset = held.length

namespace AppendCall

variable (Z : Zlib) (c : AppendCall)

/-- The frame header the call writes. -/
def header : List UInt8 := writeFrameBg Z c.byteOff c.epoch c.payload

/-- The call passes both checks of `append`, for the last epoch the segment remembers. -/
def Passes (lastEpoch : UInt32) : Prop := c.payload.length ≤ 1048576 ∧ lastEpoch ≤ c.epoch

/-- Both writes of the call are whole. -/
def Written : Prop :=
  c.io.header.pwrite.Whole (c.header Z) ∧ c.io.payload.pwrite.Whole c.payload

/-- What stands behind the offset after the call, when `left` stood there before. -/
def leaves (left : List UInt8) : List UInt8 :=
  if ¬ c.io.header.pwrite.Whole (c.header Z) then
    c.io.header.pwrite.leaves c.io.header.ftruncate (c.header Z) left
  else if c.io.payload.pwrite.Whole c.payload then left.drop (frameHead + c.payload.length)
  else if c.io.ftruncate then []
  else c.header Z ++
    c.io.payload.pwrite.leaves c.io.payload.ftruncate c.payload (left.drop frameHead)

instance (lastEpoch : UInt32) : Decidable (c.Passes lastEpoch) :=
  inferInstanceAs (Decidable (_ ∧ _))

instance : Decidable (c.Written Z) := inferInstanceAs (Decidable (_ ∧ _))

@[simp] theorem length_header : (c.header Z).length = frameHead := rfl

@[simp] theorem length_bytes : (c.bytes Z).length = frameHead + c.payload.length :=
  length_encodeFrame Z _ _ _

end AppendCall

/-! ## One write -/

namespace Segment

variable {Z : Zlib} {s : Segment} {held left buf : List UInt8}

/-- A write of all bytes moves past them, over the bytes left there. -/
theorem writeLen_written (h : s.Holds held left) {io : WriteIo} (hw : io.pwrite.Whole buf) :
    s.writeLen buf io =
      ({ s with file := some (held ++ stored left buf), offset := s.offset + buf.length },
        true) := by
  have hne : ¬ (buf.length : Int) = -1 := by omega
  simp only [writeLen, h.isOpen, h.file_eq, h.offset_eq, pwrite_whole held left hw,
    if_neg hne, lt_self_iff_false,
    if_false]

/-- Any other write returns false, and changes no byte in front of the offset. -/
theorem writeLen_failed (h : s.Holds held left) {io : WriteIo} (hw : ¬ io.pwrite.Whole buf) :
    s.writeLen buf io =
      ({ s with file := some (held ++ io.pwrite.leaves io.ftruncate buf left) }, false) := by
  rcases pwrite_not_whole held left hw with hfail | ⟨k, hk, hlt, hwrite⟩
  · simp only [writeLen, h.isOpen, h.file_eq, h.offset_eq, hfail, pwrite, if_true,
      WriteOutcome.leaves]
  · -- the count is below the length, so the file is cut at the offset
    have hne : ¬ (k : Int) = -1 := by omega
    have hshort : (k : Int) < buf.length := by omega
    rw [hk] at hwrite
    simp only [writeLen, h.isOpen, h.file_eq, h.offset_eq, hk, hwrite, if_neg hne, if_pos hshort,
      cut, if_true, Option.map_some, WriteOutcome.leaves]
    cases io.ftruncate with
    | true => rw [ftruncate_held, if_pos rfl, List.append_nil]
    | false => rfl

/-! ## One append -/

variable {c : AppendCall}

/-- An append that passes the checks and writes everything puts its frame at the offset. -/
theorem append_written (h : s.Holds held left) (hp : c.Passes s.lastEpoch) (hw : c.Written Z) :
    s.call Z c =
      ({ s with
          file := some (held ++ c.bytes Z ++ c.leaves Z left)
          offset := s.offset + (frameHead + c.payload.length)
          lastEpoch := c.epoch }, true) := by
  have hmax : ¬ messagemaxlen.toNat < c.payload.length := by
    rw [messagemaxlen_toNat]
    exact Nat.not_lt.mpr hp.1
  have hlast : ¬ c.epoch < s.lastEpoch := UInt32.not_lt.mpr hp.2
  have hheader := writeLen_written h hw.1
  rw [AppendCall.length_header] at hheader
  -- the payload follows the header
  have hbehind : ({ s with
      file := some (held ++ stored left (c.header Z))
      offset := s.offset + frameHead } : Segment).Holds (held ++ c.header Z)
        (left.drop frameHead) :=
    { isOpen := h.isOpen
      file_eq := by rw [stored, ← List.append_assoc, AppendCall.length_header]
      offset_eq := by rw [List.length_append, h.offset_eq, AppendCall.length_header] }
  have hpayload := writeLen_written hbehind hw.2
  have hleaves : c.leaves Z left = (left.drop frameHead).drop c.payload.length := by
    rw [AppendCall.leaves, if_neg (not_not.mpr hw.1), if_pos hw.2, List.drop_drop]
  rw [AppendCall.header] at hheader hpayload
  simp only [call, append, if_neg hmax, if_neg hlast, hheader, if_true]
  rw [hpayload]
  simp only [if_true, hleaves, stored, AppendCall.bytes, encodeFrame, List.append_assoc,
    Nat.add_assoc]

/-- An append that passes the checks and does not write everything returns false; the bytes
in front of the offset, the offset and the last epoch stay. -/
theorem append_failed (h : s.Holds held left) (hp : c.Passes s.lastEpoch) (hw : ¬ c.Written Z) :
    s.call Z c = ({ s with file := some (held ++ c.leaves Z left) }, false) := by
  have hmax : ¬ messagemaxlen.toNat < c.payload.length := by
    rw [messagemaxlen_toNat]
    exact Nat.not_lt.mpr hp.1
  have hlast : ¬ c.epoch < s.lastEpoch := UInt32.not_lt.mpr hp.2
  by_cases hw₁ : c.io.header.pwrite.Whole (c.header Z)
  · have hw₂ : ¬ c.io.payload.pwrite.Whole c.payload := fun hw₂ => hw ⟨hw₁, hw₂⟩
    have hheader := writeLen_written h hw₁
    rw [AppendCall.length_header] at hheader
    -- the payload fails behind the header: `write_len` cuts there, `append` at the header
    have hbehind : ({ s with
        file := some (held ++ stored left (c.header Z))
        offset := s.offset + frameHead } : Segment).Holds (held ++ c.header Z)
          (left.drop frameHead) :=
      { isOpen := h.isOpen
        file_eq := by rw [stored, ← List.append_assoc, AppendCall.length_header]
        offset_eq := by rw [List.length_append, h.offset_eq, AppendCall.length_header] }
    have hpayload := writeLen_failed hbehind hw₂
    rw [AppendCall.header] at hheader hpayload
    simp only [call, append, if_neg hmax, if_neg hlast, hheader, if_true]
    rw [hpayload]
    simp only [Bool.false_eq_true, if_false, cut, h.isOpen, if_true, Option.map_some,
      Nat.add_sub_cancel, AppendCall.leaves, if_neg (not_not.mpr hw₁), if_neg hw₂,
      List.append_assoc, h.offset_eq]
    cases c.io.ftruncate with
    | true => rw [ftruncate_held, if_pos rfl, List.append_nil]
    | false => rfl
  · -- the header fails, and the payload is not tried
    have hheader := writeLen_failed h hw₁
    rw [AppendCall.header] at hheader
    simp only [call, append, if_neg hmax, if_neg hlast, hheader, Bool.false_eq_true, if_false,
      AppendCall.leaves, if_pos hw₁]
    rfl

end Segment

/-! ## Runs -/

/-- What a run leaves behind the offset: of the calls that pass the checks, each acts on
what the one before left. -/
def leftBehind (Z : Zlib) : UInt32 → List UInt8 → List AppendCall → List UInt8
  | _, left, [] => left
  | lastEpoch, left, c :: calls =>
      if c.Passes lastEpoch then
        leftBehind Z (if c.Written Z then c.epoch else lastEpoch) (c.leaves Z left) calls
      else leftBehind Z lastEpoch left calls

/-- The epoch of the last of these calls, `initial` when there is none. -/
def lastCallEpoch (initial : UInt32) (calls : List AppendCall) : UInt32 :=
  (calls.getLast?.map AppendCall.epoch).getD initial

theorem lastCallEpoch_cons (initial : UInt32) (c : AppendCall) (calls : List AppendCall) :
    lastCallEpoch initial (c :: calls) = lastCallEpoch c.epoch calls := by
  rw [lastCallEpoch, lastCallEpoch, List.getLast?_cons]
  cases calls.getLast? with
  | none => rfl
  | some last => rfl

section Runs

variable {Z : Zlib} {s : Segment} {held left : List UInt8}

theorem Segment.call_refused {c : AppendCall} (h : ¬ c.Passes s.lastEpoch) :
    s.call Z c = (s, false) := by
  apply append_refused
  rw [AppendCall.Passes, not_and_or, Nat.not_le, UInt32.not_le] at h
  exact h

/-- An append returns true exactly when it passes the checks and writes everything. -/
theorem Segment.Holds.call_iff {c : AppendCall} (h : s.Holds held left) :
    (s.call Z c).2 = true ↔ c.Passes s.lastEpoch ∧ c.Written Z := by
  by_cases hp : c.Passes s.lastEpoch
  · by_cases hw : c.Written Z
    · rw [append_written h hp hw]
      exact iff_of_true rfl ⟨hp, hw⟩
    · rw [append_failed h hp hw]
      exact iff_of_false Bool.false_ne_true fun hboth => hw hboth.2
  · rw [Segment.call_refused hp]
    exact iff_of_false Bool.false_ne_true fun hboth => hp hboth.1

/-- An acknowledged append adds its frame to the bytes held. -/
theorem Segment.Holds.written {c : AppendCall} (h : s.Holds held left)
    (hp : c.Passes s.lastEpoch) (hw : c.Written Z) :
    (s.call Z c).1.Holds (held ++ c.bytes Z) (c.leaves Z left) := by
  rw [append_written h hp hw]
  refine ⟨h.isOpen, rfl, ?_⟩
  rw [List.length_append, c.length_bytes, ← h.offset_eq]

/-- A failed append changes only what is left. -/
theorem Segment.Holds.failed {c : AppendCall} (h : s.Holds held left)
    (hp : c.Passes s.lastEpoch) (hw : ¬ c.Written Z) :
    (s.call Z c).1.Holds held (c.leaves Z left) := by
  rw [append_failed h hp hw]
  exact ⟨h.isOpen, rfl, h.offset_eq⟩

/-- A run keeps the bytes in front of the offset, with the acknowledged frames behind them
in order, and remembers the epoch of the last of them. -/
theorem runAppends_holds (h : s.Holds held left) (calls : List AppendCall) :
    (runAppends Z s calls).Holds (held ++ callBytes Z (ackedCalls Z s calls))
        (leftBehind Z s.lastEpoch left calls) ∧
      (runAppends Z s calls).lastEpoch = lastCallEpoch s.lastEpoch (ackedCalls Z s calls) := by
  -- along the calls, by how each of them ends
  induction calls generalizing s held left with
  | nil =>
    refine ⟨?_, rfl⟩
    rw [ackedCalls, callBytes, List.flatMap_nil, List.append_nil]
    exact h
  | cons c calls ih =>
    have hrun : runAppends Z s (c :: calls) = runAppends Z (s.call Z c).1 calls := rfl
    rw [hrun, ackedCalls, leftBehind]
    by_cases hp : c.Passes s.lastEpoch
    · rw [if_pos hp]
      by_cases hw : c.Written Z
      · -- acknowledged: the frame joins the bytes held
        have hcall := Segment.append_written h hp hw
        have hepoch : (s.call Z c).1.lastEpoch = c.epoch := by rw [hcall]
        have hok : (s.call Z c).2 = true := h.call_iff.mpr ⟨hp, hw⟩
        obtain ⟨hholds, hlast⟩ := ih (h.written hp hw)
        rw [hepoch] at hholds hlast
        rw [if_pos hw, if_pos hok, callBytes, List.flatMap_cons, ← List.append_assoc,
          lastCallEpoch_cons]
        exact ⟨hholds, hlast⟩
      · -- failed: only what is left changes
        have hcall := Segment.append_failed h hp hw
        have hepoch : (s.call Z c).1.lastEpoch = s.lastEpoch := by rw [hcall]
        have hok : ¬ (s.call Z c).2 = true := fun hok => hw (h.call_iff.mp hok).2
        obtain ⟨hholds, hlast⟩ := ih (h.failed hp hw)
        rw [hepoch] at hholds hlast
        rw [if_neg hw, if_neg hok]
        exact ⟨hholds, hlast⟩
    · -- refused: nothing changes
      have hok : ¬ (s.call Z c).2 = true := fun hok => hp (h.call_iff.mp hok).1
      rw [if_neg hp, if_neg hok, Segment.call_refused hp]
      exact ih h

end Runs

/-! ## Working cuts -/

/-- A call whose cuts all work leaves nothing where nothing was left. -/
theorem AppendCall.leaves_nil {Z : Zlib} {c : AppendCall} (h : c.io.Truncates) :
    c.leaves Z [] = [] := by
  obtain ⟨hheader, -, houter⟩ := h
  rw [AppendCall.leaves, if_pos houter]
  split
  · -- a header that failed: nothing was written, or `write_len` cut it
    rw [hheader, WriteOutcome.leaves_nil]
  · split
    · exact List.drop_nil
    · rfl

theorem leftBehind_nil {Z : Zlib} {calls : List AppendCall}
    (h : ∀ c ∈ calls, c.io.Truncates) (lastEpoch : UInt32) :
    leftBehind Z lastEpoch [] calls = [] := by
  induction calls generalizing lastEpoch with
  | nil => rfl
  | cons c calls ih =>
    obtain ⟨hc, hcalls⟩ := List.forall_mem_cons.mp h
    rw [leftBehind, AppendCall.leaves_nil hc]
    split
    · exact ih hcalls _
    · exact ih hcalls _

/-- An `open_append` that returns true read a valid header, and went to the end of the file. -/
theorem Segment.openAppend_of_true {Z : Zlib} {s : Segment} {file : List UInt8} {io : OpenIo}
    (hfile : s.file = some file) (hok : (s.openAppend Z io).2 = true) :
    ∃ base wall, 32 ≤ file.length ∧ compareMagicCrc Z (file.take 32) = some (base, wall) ∧
      s.openAppend Z io =
        ({ s with
            isOpen := true
            baseOffset := base
            walltime := wall
            offset := file.length }, true) := by
  unfold openAppend at hok ⊢
  rw [hfile] at hok ⊢
  split at hok
  · rename_i bytes hio hbytes
    cases hbytes
    simp only at hok ⊢
    -- each test that is passed is passed again
    split at hok
    · cases hok
    · rename_i buf hread
      split at hok
      · cases hok
      · rename_i hlen
        rw [not_not] at hlen
        split at hok
        · cases hok
        · rename_i base wall hvalid
          split at hok
          · cases hok
          · rename_i hfstat
            -- 32 bytes were read, so they are the first 32 of the file
            have hbuf : buf = file.take 32 ∧ 32 ≤ file.length := by
              cases hhead : io.head with
              | full =>
                rw [hhead, pread, List.drop_zero] at hread
                cases hread
                rw [List.length_take] at hlen
                exact ⟨rfl, by omega⟩
              | short k =>
                rw [hhead, pread, List.drop_zero] at hread
                cases hread
                rw [List.length_take] at hlen
                exact ⟨by rw [Nat.min_eq_right (by omega : 32 ≤ k)], by omega⟩
              | fail =>
                rw [hhead, pread] at hread
                cases hread
            rw [if_neg (not_not.mpr hlen)]
            refine ⟨base, wall, hbuf.2, by rw [← hbuf.1, hvalid], ?_⟩
            simp only [if_neg hfstat]
  · cases hok

/-- Both ways to open a segment put its offset at the end of its file. -/
theorem Opened.holds {Z : Zlib} {s : Segment} (h : Opened Z s) :
    ∃ file, s.Holds file [] ∧ s.lastEpoch = 0 := by
  cases h with
  | creat file now io hok =>
    have hstart : ({ isOpen := true, file := some [] } : Segment).Holds [] [] := ⟨rfl, rfl, rfl⟩
    revert hok
    unfold Segment.creat
    split
    · intro hok
      cases hok
    · by_cases hw : io.head.pwrite.Whole (writeSegheadBg Z 1 0 now)
      · -- the header is written; what can still fail changes nothing
        simp only [Segment.writeLen_written hstart hw, Bool.true_eq_false, if_false]
        have hheld : ({
            isOpen := true
            offset := 0 + (writeSegheadBg Z 1 0 now).length
            file := some ([] ++ stored [] (writeSegheadBg Z 1 0 now)) } : Segment).Holds
              (writeSegheadBg Z 1 0 now) [] := ⟨rfl, rfl, rfl⟩
        intro _
        split
        · exact ⟨_, hheld, rfl⟩
        · split
          · exact ⟨_, hheld, rfl⟩
          · exact ⟨_, hheld, rfl⟩
      · -- without its header the segment is not open
        simp only [Segment.writeLen_failed hstart hw, if_true]
        intro hok
        cases hok
  | openAppend path io hok =>
    cases path with
    | none =>
      unfold Segment.openAppend at hok
      split at hok
      · rename_i hnone
        cases hnone
      · cases hok
    | some file =>
      obtain ⟨base, wall, -, -, hopened⟩ := Segment.openAppend_of_true rfl hok
      rw [hopened]
      exact ⟨file, ⟨rfl, by rw [List.append_nil], rfl⟩, rfl⟩

/-- From a segment that `creat` or `open_append` opened, over every run of appends whose
cuts work: the file is what it was at open followed by the frames of the appends that
returned true, the offset is its length, and the last epoch is that of the last of these
appends. A further append that fails changes nothing at all. -/
theorem appends_all_or_nothing {Z : Zlib} {s : Segment} {calls : List AppendCall}
    (hopen : Opened Z s) (htrunc : ∀ c ∈ calls, c.io.Truncates) :
    ∃ file file', s.file = some file ∧
      file' = file ++ callBytes Z (ackedCalls Z s calls) ∧
      (runAppends Z s calls).file = some file' ∧
      (runAppends Z s calls).offset = file'.length ∧
      (runAppends Z s calls).lastEpoch = lastCallEpoch s.lastEpoch (ackedCalls Z s calls) ∧
      ∀ c : AppendCall, c.io.Truncates → ((runAppends Z s calls).call Z c).2 = false →
        ((runAppends Z s calls).call Z c).1 = runAppends Z s calls := by
  obtain ⟨file, hfile, -⟩ := hopen.holds
  obtain ⟨hholds, hlast⟩ := runAppends_holds (Z := Z) hfile calls
  rw [leftBehind_nil htrunc] at hholds
  have hfile₀ : s.file = some file := by rw [hfile.file_eq, List.append_nil]
  have hfile' := hholds.file_eq
  rw [List.append_nil] at hfile'
  refine ⟨file, _, hfile₀, rfl, hfile', hholds.offset_eq, hlast, ?_⟩
  intro c hc hfalse
  by_cases hp : c.Passes (runAppends Z s calls).lastEpoch
  · by_cases hw : c.Written Z
    · rw [Segment.append_written hholds hp hw] at hfalse
      cases hfalse
    · -- the cut takes away what the failed writes wrote
      rw [Segment.append_failed hholds hp hw, AppendCall.leaves_nil hc, List.append_nil, ← hfile']
  · rw [Segment.call_refused hp]

/-- Two appends of a new segment, the second cut short within its payload. -/
theorem appends_all_or_nothing_short :
    let s := (({ file := none } : Segment).creat zlib 7 {}).1
    let calls : List AppendCall :=
      [⟨[0x41], 0, 1, {}⟩, ⟨[0x42, 0x43], 21, 2, { payload := { pwrite := .short 1 } }⟩]
    ∃ file file', s.file = some file ∧
      file' = file ++ callBytes zlib (ackedCalls zlib s calls) ∧
      (runAppends zlib s calls).file = some file' ∧
      (runAppends zlib s calls).offset = file'.length ∧
      (runAppends zlib s calls).lastEpoch = lastCallEpoch s.lastEpoch (ackedCalls zlib s calls) ∧
      ∀ c : AppendCall, c.io.Truncates → ((runAppends zlib s calls).call zlib c).2 = false →
        ((runAppends zlib s calls).call zlib c).1 = runAppends zlib s calls := by
  refine appends_all_or_nothing (.creat none 7 {} rfl) ?_
  simp [AppendIo.Truncates]

end ServiceInfra
