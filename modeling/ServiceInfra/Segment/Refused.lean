import ServiceInfra.Segment.AppendFaults

/-!
# Refused segments

`creat` and `open_append` return false from many places. Only the first, where `open`
itself returns -1, leaves the object without a descriptor; all others keep the file open at
whatever offset the object has, and `append` looks at neither. A `Segment` whose header was
refused is therefore still written by its next append.

Main results:
- `Segment.opened_isOpen_iff`: the descriptor a call leaves
- `refused_unwritten_iff`: a refused segment is left alone exactly when `open` failed
-/

namespace ServiceInfra

/-! ## Definitions -/

/-- A call that opens a segment, with the outcomes of its system calls. -/
inductive OpenCall where
  /-- `creat`, at wall time `now`. -/
  | creat (now : UInt64) (io : CreatIo)
  /-- `open_append`. -/
  | openAppend (io : OpenIo)

/-- The call on a segment. -/
def Segment.opened (Z : Zlib) (s : Segment) : OpenCall → Segment × Bool
  | .creat now io => s.creat Z now io
  | .openAppend io => s.openAppend Z io

/-- `open` returns -1: for `creat` also when there is a file already, for `open_append`
also when there is none. -/
def OpenCall.FailsToOpen (s : Segment) : OpenCall → Prop
  | .creat _ io => io.open_ = false ∨ s.file.isSome
  | .openAppend io => io.open_ = false ∨ s.file = none

/-- No run of appends changes the file. -/
def Segment.Unwritten (Z : Zlib) (s : Segment) : Prop :=
  ∀ calls, (runAppends Z s calls).file = s.file

/-! ## The descriptor a call leaves -/

namespace Segment

variable {Z : Zlib} {s : Segment} {buf file : List UInt8}

theorem cut_isOpen (s : Segment) (ok : Bool) : (s.cut ok).isOpen = s.isOpen := by
  unfold cut
  split <;> rfl

theorem cut_file_isSome (s : Segment) (ok : Bool) : (s.cut ok).file.isSome = s.file.isSome := by
  unfold cut
  split
  · rw [Option.isSome_map]
  · rfl

/-- A write keeps the descriptor, and the file stays there. -/
theorem writeLen_keeps (s : Segment) (buf : List UInt8) (io : WriteIo) :
    (s.writeLen buf io).1.isOpen = s.isOpen ∧
      (s.writeLen buf io).1.file.isSome = s.file.isSome := by
  unfold writeLen
  split
  · rename_i hopen hfile
    dsimp only
    split
    · exact ⟨rfl, by rw [hfile]; rfl⟩
    · split
      · rw [cut_isOpen, cut_file_isSome, hfile]
        exact ⟨rfl, rfl⟩
      · exact ⟨rfl, by rw [hfile]; rfl⟩
  · exact ⟨rfl, rfl⟩

/-- `creat` leaves a descriptor unless `open` failed, whatever it returns. -/
theorem creat_isOpen (now : UInt64) (io : CreatIo) (h : ¬ (io.open_ = false ∨ s.file.isSome)) :
    (s.creat Z now io).1.isOpen = true ∧ (s.creat Z now io).1.file.isSome = true := by
  obtain ⟨hopen, hfile⟩ := writeLen_keeps
    ({ s with isOpen := true, file := some [] } : Segment) (writeSegheadBg Z 1 s.baseOffset now)
    io.head
  simp only [creat, if_neg h]
  split
  · rw [cut_isOpen, cut_file_isSome]
    exact ⟨hopen, hfile⟩
  · split
    · exact ⟨hopen, hfile⟩
    · split <;> exact ⟨hopen, hfile⟩

theorem openAppend_isOpen (io : OpenIo) (h : ¬ (io.open_ = false ∨ s.file = none)) :
    (s.openAppend Z io).1.isOpen = true ∧ (s.openAppend Z io).1.file.isSome = true := by
  obtain ⟨hio, hfile⟩ := not_or.mp h
  obtain ⟨file, hfile⟩ := Option.ne_none_iff_exists'.mp hfile
  have hio : io.open_ = true := by simpa using hio
  simp only [openAppend, hio, hfile]
  -- every exit behind `open` keeps the descriptor
  split
  · exact ⟨rfl, rfl⟩
  · split
    · exact ⟨rfl, rfl⟩
    · split
      · exact ⟨rfl, rfl⟩
      · split
        · exact ⟨rfl, rfl⟩
        · exact ⟨rfl, rfl⟩

/-- A call leaves the object without a descriptor exactly when its `open` failed. -/
theorem opened_isOpen_iff (c : OpenCall) :
    (s.opened Z c).1.isOpen = false ↔ c.FailsToOpen s := by
  cases c with
  | creat now io =>
    by_cases h : io.open_ = false ∨ s.file.isSome
    · have hclosed : (s.creat Z now io).1.isOpen = false := by rw [creat, if_pos h]
      exact iff_of_true hclosed h
    · refine iff_of_false ?_ h
      rw [opened, (creat_isOpen now io h).1]
      exact Bool.true_eq_false_eq_False
  | openAppend io =>
    by_cases h : io.open_ = false ∨ s.file = none
    · have hclosed : (s.openAppend Z io).1.isOpen = false := by
        unfold openAppend
        split
        · rename_i hopen hfile
          rcases h with h | h
          · rw [hopen] at h
            cases h
          · rw [hfile] at h
            cases h
        · rfl
      exact iff_of_true hclosed h
    · refine iff_of_false ?_ h
      rw [opened, (openAppend_isOpen io h).1]
      exact Bool.true_eq_false_eq_False

theorem opened_file_isSome {c : OpenCall} (h : ¬ c.FailsToOpen s) :
    (s.opened Z c).1.file.isSome = true := by
  cases c with
  | creat now io => exact (creat_isOpen now io h).2
  | openAppend io => exact (openAppend_isOpen io h).2

/-! ## Appends without a descriptor -/

theorem writeLen_closed (h : s.isOpen = false) (io : WriteIo) : s.writeLen buf io = (s, false) := by
  unfold writeLen
  split
  · rename_i hopen _
    rw [h] at hopen
    cases hopen
  · rfl

/-- Without a descriptor every append fails and changes nothing. -/
theorem call_closed (h : s.isOpen = false) (c : AppendCall) : s.call Z c = (s, false) := by
  unfold call append
  split
  · rfl
  · split
    · rfl
    · simp only [writeLen_closed h, Bool.false_eq_true, if_false]

theorem runAppends_closed (h : s.isOpen = false) (calls : List AppendCall) :
    runAppends Z s calls = s := by
  induction calls with
  | nil => rfl
  | cons c calls ih =>
    have hrun : runAppends Z s (c :: calls) = runAppends Z (s.call Z c).1 calls := rfl
    rw [hrun, call_closed h c]
    exact ih

/-! ## Appends with a descriptor -/

/-- An empty frame of the last epoch, which no check of `append` refuses. -/
def emptyFrame (s : Segment) (byteOff : UInt64) : AppendCall :=
  { payload := [], byteOff, epoch := s.lastEpoch }

/-- It is written at the offset, whatever stands there. -/
theorem call_emptyFrame (hopen : s.isOpen = true) (hfile : s.file = some file) (byteOff : UInt64) :
    (s.call Z (s.emptyFrame byteOff)).1.file =
      some (writeAt file (writeFrameBg Z byteOff s.lastEpoch []) s.offset) := by
  have hepoch : ¬ s.lastEpoch < s.lastEpoch := UInt32.lt_irrefl _
  have hwritten (buf : List UInt8) : ¬ (buf.length : Int) = -1 := by omega
  have hnil (file : List UInt8) (offset : Nat) : writeAt file [] offset = file := if_pos rfl
  have hnone : ¬ ((0 : Nat) : Int) = -1 := by decide
  simp only [call, emptyFrame, append, List.length_nil, Nat.not_lt_zero, if_false, if_neg hepoch,
    writeLen, hopen, hfile, pwrite, if_neg (hwritten _), lt_self_iff_false, if_true, hnil,
    if_neg hnone]

/-- An open segment does not keep its file: the empty frames of two offsets that differ in
their first byte cannot both be what stands there. -/
theorem not_unwritten (hopen : s.isOpen = true) (hfile : s.file = some file) :
    ¬ s.Unwritten Z := by
  intro hkeeps
  have hfirst (byteOff : UInt64) : file[s.offset]? = some ((byteOff >>> 56) &&& 0xFF).toUInt8 := by
    have hcall := hkeeps [s.emptyFrame byteOff]
    have hrun : runAppends Z s [s.emptyFrame byteOff] = (s.call Z (s.emptyFrame byteOff)).1 := rfl
    rw [hrun, call_emptyFrame hopen hfile, hfile, Option.some_inj] at hcall
    have hframe : writeFrameBg Z byteOff s.lastEpoch [] ≠ [] := List.cons_ne_nil _ _
    rw [← hcall, getElem?_writeAt _ hframe]
    rfl
  have hsame := (hfirst 0).symm.trans (hfirst ((1 : UInt64) <<< 56))
  exact absurd hsame (by decide)

end Segment

/-! ## Refusals -/

/-- After `creat` or `open_append` returned false, with whatever outcomes of its system
calls and from whatever state of the object, no run of appends changes the file exactly
when the call's own `open` had failed. -/
theorem refused_unwritten_iff {Z : Zlib} {s : Segment} {c : OpenCall}
    (_hrefused : (s.opened Z c).2 = false) :
    (s.opened Z c).1.Unwritten Z ↔ c.FailsToOpen s := by
  constructor
  · intro hkeeps
    by_contra hopens
    have hopen : (s.opened Z c).1.isOpen = true := by
      rw [← Bool.not_eq_false, Segment.opened_isOpen_iff]
      exact hopens
    obtain ⟨file, hfile⟩ := Option.isSome_iff_exists.mp
      (Segment.opened_file_isSome (Z := Z) hopens)
    exact Segment.not_unwritten hopen hfile hkeeps
  · intro hfails calls
    rw [Segment.runAppends_closed (Segment.opened_isOpen_iff c |>.mpr hfails)]

/-- A file of 32 bytes 0 is refused for its magic. -/
theorem refused_unwritten_iff_magic :
    let s : Segment := { file := some (List.replicate 32 0) }
    (s.opened zlib (.openAppend {})).1.Unwritten zlib ↔
      OpenCall.FailsToOpen s (.openAppend {}) :=
  refused_unwritten_iff (by decide +kernel)

/-- A file of 32 bytes 0 is refused for its magic, and then its first bytes are overwritten
by the next append. -/
theorem refused_written :
    let s : Segment := { file := some (List.replicate 32 0) }
    (s.opened zlib (.openAppend {})).2 = false ∧
      (runAppends zlib (s.opened zlib (.openAppend {})).1 [⟨[0x41], 0x100, 1, {}⟩]).file ≠
        (s.opened zlib (.openAppend {})).1.file := by
  decide +kernel

end ServiceInfra
