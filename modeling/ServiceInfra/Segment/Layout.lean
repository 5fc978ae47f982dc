import ServiceInfra.Segment.Format

/-!
# Frames in a file

The body of a segment as its writer sees it: a list of frames, each with the offset,
epoch and payload it was appended with, laid end to end behind the 32-byte header.
`Placed` says that every frame carries the offset at which it stands, and `frameEnds`
are the positions at which a frame ends.
-/

namespace ServiceInfra

/-! ## Definitions -/

/-- A frame with the arguments it was appended with; no payload exceeds 1 MiB. -/
structure Frame where
  offset : UInt64
  epoch : UInt32
  payload : List UInt8
  payload_le : payload.length ≤ 1048576
  deriving DecidableEq, Repr

namespace Frame

/-- The size of a frame in the file. -/
def size (f : Frame) : Nat := frameHead + f.payload.length

/-- The bytes of a frame in the file. -/
def bytes (Z : Zlib) (f : Frame) : List UInt8 := encodeFrame Z f.offset f.epoch f.payload

/-- The length field of the frame header. -/
def lenField (f : Frame) : List UInt8 := writeU32Be (UInt32.ofNat f.payload.length)

@[simp] theorem length_bytes (Z : Zlib) (f : Frame) : (f.bytes Z).length = f.size :=
  length_encodeFrame Z _ _ _

@[simp] theorem length_lenField (f : Frame) : f.lenField.length = 4 := rfl

theorem frameHead_le_size (f : Frame) : frameHead ≤ f.size := Nat.le_add_right _ _

theorem size_eq_len (f : Frame) :
    f.size = frameHead + (UInt32.ofNat f.payload.length).toNat := by
  -- no payload is long enough for its length field to wrap
  have hle := f.payload_le
  rw [size, UInt32.toNat_ofNat']
  omega

theorem frameLen_bytes (Z : Zlib) (f : Frame) (rest : List UInt8) :
    frameLen (f.bytes Z ++ rest) = UInt32.ofNat f.payload.length :=
  frameLen_encodeFrame Z _ _ _ _

theorem frameEpoch_bytes (Z : Zlib) (f : Frame) (rest : List UInt8) :
    frameEpoch (f.bytes Z ++ rest) = f.epoch :=
  frameEpoch_encodeFrame Z _ _ _ _

/-- The length field stands at index 8. -/
theorem getElem?_bytes (Z : Zlib) (f : Frame) {i : Nat} (hi : i < 4) :
    (f.bytes Z)[8 + i]? = f.lenField[i]? := by
  have hcases : i = 0 ∨ i = 1 ∨ i = 2 ∨ i = 3 := by omega
  rcases hcases with rfl | rfl | rfl | rfl <;> rfl

end Frame

/-- The bytes of frames laid end to end. -/
def frameBytes (Z : Zlib) (frames : List Frame) : List UInt8 := frames.flatMap (Frame.bytes Z)

/-- Every frame, from position `pos` on, carries `base_offset` plus its own position
behind the header. -/
def Placed (base : UInt64) : Nat → List Frame → Prop
  | _, [] => True
  | pos, f :: frames =>
      f.offset = base + UInt64.ofNat pos - 32 ∧ Placed base (pos + f.size) frames

/-- The positions at which the frames laid from `pos` on end. -/
def frameEnds : Nat → List Frame → List Nat
  | _, [] => []
  | pos, f :: frames => (pos + f.size) :: frameEnds (pos + f.size) frames

/-! ## Laws -/

section Laws

variable {Z : Zlib} {base : UInt64}

@[simp] theorem frameBytes_nil : frameBytes Z [] = [] := rfl

@[simp] theorem frameBytes_cons (f : Frame) (frames : List Frame) :
    frameBytes Z (f :: frames) = f.bytes Z ++ frameBytes Z frames := rfl

theorem frameBytes_append (frames gs : List Frame) :
    frameBytes Z (frames ++ gs) = frameBytes Z frames ++ frameBytes Z gs :=
  List.flatMap_append

/-- A frame is read off the front of a byte string in one way only. -/
theorem Frame.bytes_append_inj {f g : Frame} {xs ys : List UInt8}
    (h : f.bytes Z ++ xs = g.bytes Z ++ ys) : f = g ∧ xs = ys := by
  -- the header fields first: equal bytes are read as equal values
  have hoffset : f.offset = g.offset := by
    have hread := congrArg readU64Be h
    rwa [bytes, bytes, encodeFrame, encodeFrame, writeFrameBg, writeFrameBg,
      List.append_assoc, List.append_assoc, List.append_assoc, List.append_assoc,
      List.append_assoc, List.append_assoc, List.append_assoc, List.append_assoc,
      readU64Be_writeU64Be, readU64Be_writeU64Be] at hread
  have hepoch : f.epoch = g.epoch := by
    have hread := congrArg frameEpoch h
    rwa [f.frameEpoch_bytes, g.frameEpoch_bytes] at hread
  have hlen : f.payload.length = g.payload.length := by
    have hread := congrArg (fun bs => (frameLen bs).toNat) h
    simp only [f.frameLen_bytes, g.frameLen_bytes, UInt32.toNat_ofNat'] at hread
    have hf := f.payload_le
    have hg := g.payload_le
    omega
  -- behind the headers, payloads of equal length
  have hbody : f.payload ++ xs = g.payload ++ ys := by
    have hdrop := congrArg (List.drop frameHead) h
    rwa [bytes, bytes, drop_frameHead_encodeFrame, drop_frameHead_encodeFrame] at hdrop
  obtain ⟨hpayload, hrest⟩ := List.append_inj hbody hlen
  refine ⟨?_, hrest⟩
  cases f
  cases g
  simp only at hoffset hepoch hpayload
  subst hoffset hepoch hpayload
  rfl

theorem frameBytes_inj {frames gs : List Frame} (h : frameBytes Z frames = frameBytes Z gs) :
    frames = gs := by
  -- a frame is never empty, so one list cannot end before the other
  have hne : ∀ (f : Frame) (fs : List Frame), frameBytes Z (f :: fs) ≠ [] := by
    intro f fs hnil
    have hsize := f.frameHead_le_size
    have hzero := congrArg List.length hnil
    rw [frameBytes_cons, List.length_append, f.length_bytes, List.length_nil] at hzero
    rw [frameHead] at hsize
    omega
  induction frames generalizing gs with
  | nil =>
    cases gs with
    | nil => rfl
    | cons g gs => exact absurd h.symm (hne g gs)
  | cons f frames ih =>
    cases gs with
    | nil => exact absurd h (hne f frames)
    | cons g gs =>
      obtain ⟨rfl, hrest⟩ := Frame.bytes_append_inj h
      rw [ih hrest]

/-- A frame ends behind where it starts. -/
theorem lt_of_mem_frameEnds {frames : List Frame} {pos e : Nat} (h : e ∈ frameEnds pos frames) :
    pos < e := by
  induction frames generalizing pos with
  | nil => cases h
  | cons f frames ih =>
    have hsize : 0 < f.size := Nat.lt_of_lt_of_le (by decide) f.frameHead_le_size
    rcases List.mem_cons.mp h with rfl | hmem
    · omega
    · have := ih hmem
      omega

end Laws

end ServiceInfra
