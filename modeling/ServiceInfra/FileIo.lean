import Mathlib.Tactic

/-!
# File_io

`File_io` is the interface through which the segment and commit-log code reaches the
disk. A file is its byte string. Each call takes the outcome the environment picks for
it: everything done, only part of it, or a failure that returns -1. A faultless call is
the one whose outcome is `full` (or `true`).

## Outcomes

- `ReadOutcome`, `WriteOutcome`: what one `pread` or `pwrite` does
- the other calls succeed (`true`) or return -1 (`false`)
-/

namespace ServiceInfra

/-! ## Reading -/

/-- What one `pread` returns. -/
inductive ReadOutcome where
  /-- Every byte asked for that lies before the end of the file. -/
  | full
  /-- At most `k` of those bytes. -/
  | short (k : Nat)
  /-- `-1`, nothing read. -/
  | fail
  deriving DecidableEq, Repr

/-- `pread(fd, buf, n, offset)`: the bytes it stores in `buf`, `none` for -1. -/
def pread (file : List UInt8) (n offset : Nat) : ReadOutcome → Option (List UInt8)
  | .full => some ((file.drop offset).take n)
  | .short k => some ((file.drop offset).take (min k n))
  | .fail => none

/-- The value the call returns for the bytes it read. -/
def ssize : Option (List UInt8) → Int
  | some bytes => bytes.length
  | none => -1

/-- A buffer after a call stored `bytes` at its start. -/
def stored (buf bytes : List UInt8) : List UInt8 := bytes ++ buf.drop bytes.length

/-- A read returns no more than the file holds from its offset on. -/
theorem ssize_pread_le (file : List UInt8) (n offset : Nat) (o : ReadOutcome) :
    ssize (pread file n offset o) ≤ (file.length - offset : Nat) := by
  cases o <;> simp [pread, ssize]

/-! ## Writing -/

/-- What one `pwrite` does. -/
inductive WriteOutcome where
  /-- All bytes are written. -/
  | full
  /-- Only the first `k` bytes are written. -/
  | short (k : Nat)
  /-- `-1`, nothing written. -/
  | fail
  deriving DecidableEq, Repr

/-- A file after `bytes` were written at `offset`; a gap before them reads as zeros, and
writing no bytes does not grow the file. -/
def writeAt (file bytes : List UInt8) (offset : Nat) : List UInt8 :=
  if bytes = [] then file
  else file.take offset ++ List.replicate (offset - file.length) 0 ++ bytes ++
    file.drop (offset + bytes.length)

/-- `pwrite(fd, buf, n, offset)`: the file afterwards and the value returned. -/
def pwrite (file buf : List UInt8) (offset : Nat) : WriteOutcome → List UInt8 × Int
  | .full => (writeAt file buf offset, buf.length)
  | .short k => (writeAt file (buf.take k) offset, (buf.take k).length)
  | .fail => (file, -1)

/-- `ftruncate(fd, len)`: the file afterwards, when the call succeeds (`ok`). -/
def ftruncate (file : List UInt8) (len : Nat) (ok : Bool) : List UInt8 :=
  if ok then file.take len ++ List.replicate (len - file.length) 0 else file

/-- All bytes of `buf` are written. -/
def WriteOutcome.Whole (buf : List UInt8) : WriteOutcome → Prop
  | .full => True
  | .short k => buf.length ≤ k
  | .fail => False

instance (buf : List UInt8) : (o : WriteOutcome) → Decidable (o.Whole buf)
  | .full => inferInstanceAs (Decidable True)
  | .short k => inferInstanceAs (Decidable (buf.length ≤ k))
  | .fail => inferInstanceAs (Decidable False)

/-- What stands behind a position of a file after a write of `buf` there that was not whole,
and the `ftruncate` (with outcome `ok`) that undoes a short one; `left` stood there before. -/
def WriteOutcome.leaves (ok : Bool) (buf left : List UInt8) : WriteOutcome → List UInt8
  | .short k => if ok then [] else stored left (buf.take k)
  | _ => left

/-! ## Faultless calls at the end of a file -/

@[simp] theorem writeAt_length (file bytes : List UInt8) :
    writeAt file bytes file.length = file ++ bytes := by
  unfold writeAt
  split
  · simp_all
  · simp

theorem ftruncate_of_le {file : List UInt8} {len : Nat} (h : len ≤ file.length) :
    ftruncate file len true = file.take len := by
  simp [ftruncate, Nat.sub_eq_zero_of_le h]

/-- The first byte written stands at the offset, wherever that is. -/
theorem getElem?_writeAt (file : List UInt8) {bytes : List UInt8} (h : bytes ≠ []) (offset : Nat) :
    (writeAt file bytes offset)[offset]? = bytes.head? := by
  have hbefore : (file.take offset ++ List.replicate (offset - file.length) 0).length = offset := by
    rw [List.length_append, List.length_take, List.length_replicate]
    omega
  rw [writeAt, if_neg h, List.append_assoc, List.getElem?_append_right hbefore.le, hbefore,
    Nat.sub_self]
  cases bytes with
  | nil => exact absurd rfl h
  | cons b bytes => rfl

/-! ## Calls within a file -/

theorem writeAt_held (held left bytes : List UInt8) :
    writeAt (held ++ left) bytes held.length = held ++ stored left bytes := by
  unfold writeAt stored
  split
  · rename_i hnil
    rw [hnil, List.nil_append, List.length_nil, List.drop_zero]
  · -- the position lies inside the file, so there is no gap to fill
    have hgap : held.length - (held ++ left).length = 0 := by
      rw [List.length_append]
      omega
    have hdrop : (held ++ left).drop (held.length + bytes.length) = left.drop bytes.length := by
      rw [← List.drop_drop, List.drop_left]
    rw [hgap, hdrop, List.take_left, List.replicate_zero, List.append_nil, List.append_assoc]

theorem ftruncate_held (held left : List UInt8) :
    ftruncate (held ++ left) held.length true = held := by
  have hle : held.length ≤ (held ++ left).length := by
    rw [List.length_append]
    omega
  rw [ftruncate_of_le hle, List.take_left]

section Within

variable (held left : List UInt8) {buf : List UInt8} {o : WriteOutcome}

/-- A whole write replaces what stands behind its position. -/
theorem pwrite_whole (h : o.Whole buf) :
    pwrite (held ++ left) buf held.length o = (held ++ stored left buf, (buf.length : Int)) := by
  cases o with
  | full => rw [pwrite, writeAt_held]
  | short k => rw [pwrite, List.take_of_length_le h, writeAt_held]
  | fail => exact absurd h id

/-- Any other write fails, or stops short of the end of its bytes. -/
theorem pwrite_not_whole (h : ¬ o.Whole buf) :
    o = .fail ∨ ∃ k, o = .short k ∧ k < buf.length ∧
      pwrite (held ++ left) buf held.length o = (held ++ stored left (buf.take k), (k : Int)) := by
  cases o with
  | full => exact absurd trivial h
  | short k =>
    have hk : k < buf.length := Nat.lt_of_not_le h
    have hcount : (buf.take k).length = k := List.length_take_of_le hk.le
    exact .inr ⟨k, rfl, hk, by rw [pwrite, writeAt_held, hcount]⟩
  | fail => exact .inl rfl

/-- A working `ftruncate` leaves nothing where nothing was left. -/
theorem WriteOutcome.leaves_nil (o : WriteOutcome) (buf : List UInt8) :
    o.leaves true buf [] = [] := by
  cases o with
  | full => rfl
  | short k => rfl
  | fail => rfl

end Within

end ServiceInfra
