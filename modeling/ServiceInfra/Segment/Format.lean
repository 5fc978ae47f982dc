import ServiceInfra.ByteOrder
import ServiceInfra.Zlib
import ServiceInfra.Net.Message

/-!
# Segment file format

A segment is a 32-byte header followed by frames of a 20-byte frame header and a
payload. The writers `write_seghead_bg` and `write_frame_bg` and the readers
`compare_magic_crc` and `check_frame` of `Segment.cpp`, each over a byte string that
stands for the buffer it is given.

Main results:
- `compareMagicCrc_writeSegheadBg`: a written header is accepted
- `checkFrame_encodeFrame`: a written frame is accepted
- `checkFrame_append`: bytes after a complete frame do not change its verdict
- `checkFrame_iff_written`: nothing but a written frame is accepted
-/

namespace ServiceInfra

open Net (messagemaxlen messagemaxlen_toNat)

/-! ## Segment header -/

/-- `"PLOGSEGV"`. -/
def magic : List UInt8 := [0x50, 0x4C, 0x4F, 0x47, 0x53, 0x45, 0x47, 0x56]

/-- `write_seghead_bg`: magic, version, base offset and wall time, then the checksum of
these 28 bytes. -/
def writeSegheadBg (Z : Zlib) (version : UInt32) (baseOffset walltime : UInt64) : List UInt8 :=
  let buf := magic ++ writeU32Be version ++ writeU64Be baseOffset ++ writeU64Be walltime
  buf ++ writeU32Be (Z.crc32 (Z.crc32 0 []) buf)

/-- `compare_magic_crc`: magic, version 1 and checksum; on success the base offset and
the wall time. -/
def compareMagicCrc (Z : Zlib) (buf : List UInt8) : Option (UInt64 × UInt64) :=
  if buf.take 8 ≠ magic then none
  else if readCrcBig (buf.drop 8) ≠ 1 then none
  else if Z.crc32 (Z.crc32 0 []) (buf.take 28) ≠ readCrcBig (buf.drop 28) then none
  else some (readU64Be (buf.drop 12), readU64Be (buf.drop 20))

@[simp] theorem length_writeSegheadBg (Z : Zlib) (version : UInt32) (base wall : UInt64) :
    (writeSegheadBg Z version base wall).length = 32 := rfl

theorem compareMagicCrc_writeSegheadBg (Z : Zlib) (base wall : UInt64) :
    compareMagicCrc Z (writeSegheadBg Z 1 base wall) = some (base, wall) := by
  -- each field is read back where it was written
  have hversion : readCrcBig ((writeSegheadBg Z 1 base wall).drop 8) = 1 :=
    readCrcBig_writeU32Be 1 _
  have hcrc : readCrcBig ((writeSegheadBg Z 1 base wall).drop 28) =
      Z.crc32 (Z.crc32 0 []) ((writeSegheadBg Z 1 base wall).take 28) := by
    have h := readCrcBig_writeU32Be
      (Z.crc32 (Z.crc32 0 []) (magic ++ writeU32Be 1 ++ writeU64Be base ++ writeU64Be wall)) []
    rwa [List.append_nil] at h
  have hbase : readU64Be ((writeSegheadBg Z 1 base wall).drop 12) = base :=
    readU64Be_writeU64Be base _
  have hwall : readU64Be ((writeSegheadBg Z 1 base wall).drop 20) = wall :=
    readU64Be_writeU64Be wall _
  have hmagic : (writeSegheadBg Z 1 base wall).take 8 = magic := rfl
  unfold compareMagicCrc
  rw [hversion, hcrc, hbase, hwall, hmagic]
  simp

/-! ## Frames -/

/-- `FRAME_HEAD`: the size of a frame header. -/
def frameHead : Nat := 20

/-- `write_frame_bg`: offset, length and epoch, then the checksum of length, epoch and
payload. -/
def writeFrameBg (Z : Zlib) (offset : UInt64) (epoch : UInt32) (payload : List UInt8) :
    List UInt8 :=
  let len := UInt32.ofNat payload.length
  let crc := Z.crc32 (Z.crc32 0 []) (writeU32Be len ++ writeU32Be epoch)
  let crc := if len ≠ 0 then Z.crc32 crc (payload.take len.toNat) else crc
  writeU64Be offset ++ writeU32Be len ++ writeU32Be epoch ++ writeU32Be crc

@[simp] theorem length_writeFrameBg (Z : Zlib) (offset : UInt64) (epoch : UInt32)
    (payload : List UInt8) : (writeFrameBg Z offset epoch payload).length = 20 := rfl

/-- `Framecheck::kind`. -/
inductive FramecheckKind where
  | valid
  | torn
  | corrupt
  deriving DecidableEq, Repr

/-- `CorruptAt`. -/
inductive CorruptAt where
  | atLen
  | atOffset
  | atEpoch
  | atCrc
  deriving DecidableEq, Repr

/-- `Framecheck`. -/
structure Framecheck where
  kind : FramecheckKind
  len : UInt32 := 0
  tornLen : Nat := 0
  epoch : UInt32 := 0
  corruptAt : CorruptAt := .atLen
  deriving DecidableEq, Repr

/-- The length field of a frame header. -/
def frameLen (header16 : List UInt8) : UInt32 := readCrcBig (header16.drop 8)

/-- The epoch field of a frame header. -/
def frameEpoch (header16 : List UInt8) : UInt32 := readCrcBig (header16.drop 12)

/-- The checksum `check_frame` computes: length and epoch, then the payload. -/
def frameCrc (Z : Zlib) (header16 : List UInt8) : UInt32 :=
  Z.crc32 (Z.crc32 (Z.crc32 0 []) ((header16.drop 8).take 8))
    ((header16.drop frameHead).take (frameLen header16).toNat)

/-- `check_frame`; the `avail` bytes from the frame header on are the argument. -/
def checkFrame (Z : Zlib) (header16 : List UInt8) (expectedOffset : UInt64) (prevEpoch : UInt32) :
    Framecheck :=
  if messagemaxlen < frameLen header16 then { kind := .corrupt, corruptAt := .atLen }
  else
    let len := frameLen header16
    let epoch := frameEpoch header16
    if epoch < prevEpoch then { kind := .corrupt, epoch, corruptAt := .atEpoch }
    else if header16.length < len.toNat + frameHead then
      { kind := .torn, epoch, tornLen := header16.length }
    else if frameCrc Z header16 ≠ readCrcBig (header16.drop 16) then
      { kind := .corrupt, epoch, corruptAt := .atCrc }
    else if readU64Be header16 ≠ expectedOffset then
      { kind := .corrupt, epoch, corruptAt := .atOffset }
    else { kind := .valid, epoch, len }

/-- What `check_frame` tests of a frame it accepts. -/
structure FrameAccepted (Z : Zlib) (header16 : List UInt8) (expectedOffset : UInt64)
    (prevEpoch : UInt32) : Prop where
  len_le : frameLen header16 ≤ messagemaxlen
  epoch_le : prevEpoch ≤ frameEpoch header16
  complete : (frameLen header16).toNat + frameHead ≤ header16.length
  crc_eq : frameCrc Z header16 = readCrcBig (header16.drop 16)
  offset_eq : readU64Be header16 = expectedOffset

theorem FrameAccepted.checkFrame_eq {Z : Zlib} {h : List UInt8} {off : UInt64} {prev : UInt32}
    (ha : FrameAccepted Z h off prev) :
    checkFrame Z h off prev =
      { kind := .valid, epoch := frameEpoch h, len := frameLen h } := by
  have hlen : ¬ messagemaxlen < frameLen h := UInt32.not_lt.mpr ha.len_le
  have hepoch : ¬ frameEpoch h < prev := UInt32.not_lt.mpr ha.epoch_le
  have hcomplete : ¬ h.length < (frameLen h).toNat + frameHead := Nat.not_lt.mpr ha.complete
  simp only [checkFrame, if_neg hlen, if_neg hepoch, if_neg hcomplete, ha.crc_eq, ha.offset_eq,
    ne_eq, not_true_eq_false, if_false]

theorem checkFrame_valid_iff {Z : Zlib} {h : List UInt8} {off : UInt64} {prev : UInt32} :
    (checkFrame Z h off prev).kind = .valid ↔ FrameAccepted Z h off prev := by
  constructor
  · intro hkind
    -- every other branch returns another kind
    unfold checkFrame at hkind
    split at hkind
    · cases hkind
    · rename_i hlen
      simp only at hkind
      split at hkind
      · cases hkind
      · rename_i hepoch
        split at hkind
        · cases hkind
        · rename_i hcomplete
          split at hkind
          · cases hkind
          · rename_i hcrc
            split at hkind
            · cases hkind
            · rename_i hoffset
              exact ⟨UInt32.not_lt.mp hlen, UInt32.not_lt.mp hepoch, Nat.not_lt.mp hcomplete,
                not_not.mp hcrc, not_not.mp hoffset⟩
  · intro ha
    rw [ha.checkFrame_eq]

/-- A complete frame is never found torn. -/
theorem checkFrame_ne_torn {Z : Zlib} {h : List UInt8} {off : UInt64} {prev : UInt32}
    (hc : (frameLen h).toNat + frameHead ≤ h.length) : (checkFrame Z h off prev).kind ≠ .torn := by
  unfold checkFrame
  split
  · simp
  · simp only [Nat.not_lt.mpr hc, if_false]
    split
    · simp
    · split
      · simp
      · split <;> simp

/-! ## Reading a prefix -/

theorem frameLen_append {h : List UInt8} (hlen : 12 ≤ h.length) (rest : List UInt8) :
    frameLen (h ++ rest) = frameLen h := by
  unfold frameLen
  rw [List.drop_append_of_le_length (by omega), readCrcBig_append]
  rw [List.length_drop]
  omega

theorem frameEpoch_append {h : List UInt8} (hlen : 16 ≤ h.length) (rest : List UInt8) :
    frameEpoch (h ++ rest) = frameEpoch h := by
  unfold frameEpoch
  rw [List.drop_append_of_le_length (by omega), readCrcBig_append]
  rw [List.length_drop]
  omega

theorem readU64Be_append {p : List UInt8} (h : 8 ≤ p.length) (q : List UInt8) :
    readU64Be (p ++ q) = readU64Be p := by
  match p, h with
  | a :: b :: c :: d :: e :: f :: g :: i :: p, _ => rfl

theorem frameCrc_append {Z : Zlib} {h : List UInt8}
    (hc : (frameLen h).toNat + frameHead ≤ h.length) (rest : List UInt8) :
    frameCrc Z (h ++ rest) = frameCrc Z h := by
  have h20 : 20 ≤ h.length := by unfold frameHead at hc; omega
  -- both parts the checksum covers lie in `h`
  have hhead : ((h ++ rest).drop 8).take 8 = (h.drop 8).take 8 := by
    rw [List.drop_append_of_le_length (by omega), List.take_append_of_le_length]
    rw [List.length_drop]
    omega
  have hbody : ((h ++ rest).drop frameHead).take (frameLen h).toNat =
      (h.drop frameHead).take (frameLen h).toNat := by
    rw [List.drop_append_of_le_length (by unfold frameHead; omega), List.take_append_of_le_length]
    rw [List.length_drop]
    omega
  unfold frameCrc
  rw [frameLen_append (by omega), hhead, hbody]

/-- Bytes after a complete frame do not change its verdict. -/
theorem checkFrame_append {Z : Zlib} {h : List UInt8} {off : UInt64} {prev : UInt32}
    (hc : (frameLen h).toNat + frameHead ≤ h.length) (rest : List UInt8) :
    checkFrame Z (h ++ rest) off prev = checkFrame Z h off prev := by
  have h20 : 20 ≤ h.length := by unfold frameHead at hc; omega
  have hcrc : readCrcBig ((h ++ rest).drop 16) = readCrcBig (h.drop 16) := by
    rw [List.drop_append_of_le_length (by omega), readCrcBig_append]
    rw [List.length_drop]
    omega
  have hlong : ¬ (h ++ rest).length < (frameLen h).toNat + frameHead := by
    rw [List.length_append]
    omega
  unfold checkFrame
  rw [frameLen_append (by omega), frameEpoch_append (by omega), frameCrc_append hc, hcrc,
    readU64Be_append (by omega)]
  simp only [if_neg hlong, if_neg (Nat.not_lt.mpr hc)]

/-! ## Written frames -/

/-- A frame as `append` writes it: the frame header, then the payload. -/
def encodeFrame (Z : Zlib) (offset : UInt64) (epoch : UInt32) (payload : List UInt8) :
    List UInt8 :=
  writeFrameBg Z offset epoch payload ++ payload

@[simp] theorem length_encodeFrame (Z : Zlib) (offset : UInt64) (epoch : UInt32)
    (payload : List UInt8) :
    (encodeFrame Z offset epoch payload).length = frameHead + payload.length := by
  simp [encodeFrame, frameHead]

theorem drop_frameHead_encodeFrame (Z : Zlib) (offset : UInt64) (epoch : UInt32)
    (payload rest : List UInt8) :
    (encodeFrame Z offset epoch payload ++ rest).drop frameHead = payload ++ rest := by
  rw [encodeFrame, List.append_assoc]
  exact List.drop_left' (length_writeFrameBg Z offset epoch payload)

theorem frameLen_encodeFrame (Z : Zlib) (offset : UInt64) (epoch : UInt32)
    (payload rest : List UInt8) :
    frameLen (encodeFrame Z offset epoch payload ++ rest) = UInt32.ofNat payload.length :=
  readCrcBig_writeU32Be _ _

theorem frameEpoch_encodeFrame (Z : Zlib) (offset : UInt64) (epoch : UInt32)
    (payload rest : List UInt8) :
    frameEpoch (encodeFrame Z offset epoch payload ++ rest) = epoch :=
  readCrcBig_writeU32Be _ _

theorem frameAccepted_encodeFrame (Z : Zlib) {offset : UInt64} {epoch prev : UInt32}
    {payload : List UInt8} (hlen : payload.length ≤ 1048576) (hepoch : prev ≤ epoch)
    (rest : List UInt8) :
    FrameAccepted Z (encodeFrame Z offset epoch payload ++ rest) offset prev := by
  -- the length field holds the size, which fits 32 bits
  have hsize : (UInt32.ofNat payload.length).toNat = payload.length := by
    rw [UInt32.toNat_ofNat']
    omega
  have hcover : ((encodeFrame Z offset epoch payload ++ rest).drop 8).take 8 =
      writeU32Be (UInt32.ofNat payload.length) ++ writeU32Be epoch := rfl
  have hstored : readCrcBig ((encodeFrame Z offset epoch payload ++ rest).drop 16) =
      (if UInt32.ofNat payload.length ≠ 0 then
        Z.crc32 (Z.crc32 (Z.crc32 0 [])
          (writeU32Be (UInt32.ofNat payload.length) ++ writeU32Be epoch))
          (payload.take (UInt32.ofNat payload.length).toNat)
      else Z.crc32 (Z.crc32 0 [])
          (writeU32Be (UInt32.ofNat payload.length) ++ writeU32Be epoch)) :=
    readCrcBig_writeU32Be _ _
  constructor
  · rw [frameLen_encodeFrame, UInt32.le_iff_toNat_le, hsize, messagemaxlen_toNat]
    exact hlen
  · rw [frameEpoch_encodeFrame]
    exact hepoch
  · rw [frameLen_encodeFrame, hsize, List.length_append, length_encodeFrame]
    omega
  · rw [frameCrc, hcover, hstored, frameLen_encodeFrame, drop_frameHead_encodeFrame, hsize,
      List.take_left, List.take_length]
    split
    · rfl
    · -- the writer skips the second call on an empty payload, the reader makes it on no bytes
      rename_i hzero
      have hnil : payload = [] := by
        have h0 : (UInt32.ofNat payload.length).toNat = 0 := by
          rw [not_not.mp hzero]
          rfl
        rw [hsize] at h0
        exact List.length_eq_zero_iff.mp h0
      rw [hnil, Z.crc32_nil]
  · exact readU64Be_writeU64Be offset _

/-- `check_frame` accepts what `append` writes, and reports its length and epoch. -/
theorem checkFrame_encodeFrame (Z : Zlib) {offset : UInt64} {epoch prev : UInt32}
    {payload : List UInt8} (hlen : payload.length ≤ 1048576) (hepoch : prev ≤ epoch)
    (rest : List UInt8) :
    checkFrame Z (encodeFrame Z offset epoch payload ++ rest) offset prev =
      { kind := .valid, epoch, len := UInt32.ofNat payload.length } := by
  rw [(frameAccepted_encodeFrame Z hlen hepoch rest).checkFrame_eq, frameEpoch_encodeFrame,
    frameLen_encodeFrame]

/-- A frame that `check_frame` accepts is one that `append` writes: its fields are read back
into the header, and what lies behind it is the payload. -/
theorem FrameAccepted.encodeFrame_eq {Z : Zlib} {buf : List UInt8} {off : UInt64} {prev : UInt32}
    (ha : FrameAccepted Z buf off prev) :
    encodeFrame Z off (frameEpoch buf) ((buf.drop frameHead).take (frameLen buf).toNat) =
      buf.take (frameHead + (frameLen buf).toNat) := by
  have hcomplete := ha.complete
  unfold frameHead at hcomplete
  have hsize : ((buf.drop frameHead).take (frameLen buf).toNat).length = (frameLen buf).toNat := by
    rw [List.length_take, List.length_drop, frameHead]
    omega
  -- the four fields, each written back where it was read
  have hoffset : writeU64Be off = buf.take 8 := by
    rw [← ha.offset_eq, writeU64Be_readU64Be (by omega)]
  have hlen : writeU32Be (frameLen buf) = (buf.drop 8).take 4 :=
    writeU32Be_readCrcBig (by rw [List.length_drop]; omega)
  have hepoch : writeU32Be (frameEpoch buf) = (buf.drop 12).take 4 :=
    writeU32Be_readCrcBig (by rw [List.length_drop]; omega)
  have hcrc : writeU32Be (frameCrc Z buf) = (buf.drop 16).take 4 := by
    rw [ha.crc_eq]
    exact writeU32Be_readCrcBig (by rw [List.length_drop]; omega)
  have hcover : writeU32Be (frameLen buf) ++ writeU32Be (frameEpoch buf) =
      (buf.drop 8).take 8 := by
    rw [hlen, hepoch, show (8 : Nat) = 4 + 4 from rfl, List.take_add, List.drop_drop]
  -- the writer's checksum is the reader's: it skips the second call on an empty payload
  have hwritten : (if frameLen buf ≠ 0 then
        Z.crc32 (Z.crc32 (Z.crc32 0 []) ((buf.drop 8).take 8))
          (((buf.drop frameHead).take (frameLen buf).toNat).take (frameLen buf).toNat)
      else Z.crc32 (Z.crc32 0 []) ((buf.drop 8).take 8)) = frameCrc Z buf := by
    rw [frameCrc, List.take_take, Nat.min_self]
    split
    · rfl
    · rename_i hzero
      rw [not_not.mp hzero, UInt32.toNat_zero, List.take_zero]
      exact (Z.crc32_nil _).symm
  rw [encodeFrame, writeFrameBg]
  simp only [hsize, UInt32.ofNat_toNat]
  rw [hcover, hwritten, hcrc, hlen, hepoch, hoffset]
  -- the pieces lie end to end
  rw [frameHead,
    show 20 + (frameLen buf).toNat = 8 + (4 + (4 + (4 + (frameLen buf).toNat))) by omega]
  simp only [List.take_add, List.drop_drop, List.append_assoc]

/-- `check_frame` accepts exactly what `write_frame_bg` produces, and reports the length and
the epoch that were written. -/
theorem checkFrame_iff_written (Z : Zlib) {buf : List UInt8} (hbuf : 20 ≤ buf.length)
    (expectedOffset : UInt64) (prevEpoch : UInt32) :
    ((checkFrame Z buf expectedOffset prevEpoch).kind = .valid ↔
        ∃ epoch payload, prevEpoch ≤ epoch ∧ payload.length ≤ 1048576 ∧
          writeFrameBg Z expectedOffset epoch payload ++ payload <+: buf) ∧
      ∀ epoch payload, prevEpoch ≤ epoch → payload.length ≤ 1048576 →
        writeFrameBg Z expectedOffset epoch payload ++ payload <+: buf →
          (checkFrame Z buf expectedOffset prevEpoch).len.toNat = payload.length ∧
            (checkFrame Z buf expectedOffset prevEpoch).epoch = epoch := by
  refine ⟨⟨fun hvalid => ?_, ?_⟩, ?_⟩
  · have ha := checkFrame_valid_iff.mp hvalid
    refine ⟨frameEpoch buf, (buf.drop frameHead).take (frameLen buf).toNat, ha.epoch_le, ?_, ?_⟩
    · have hlen := UInt32.le_iff_toNat_le.mp ha.len_le
      rw [messagemaxlen_toNat] at hlen
      exact (List.length_take_le _ _).trans hlen
    · rw [← encodeFrame, ha.encodeFrame_eq]
      exact List.take_prefix _ _
  · rintro ⟨epoch, payload, hepoch, hlen, rest, rfl⟩
    rw [← encodeFrame, checkFrame_encodeFrame Z hlen hepoch rest]
  · rintro epoch payload hepoch hlen ⟨rest, rfl⟩
    rw [← encodeFrame, checkFrame_encodeFrame Z hlen hepoch rest, UInt32.toNat_ofNat']
    exact ⟨Nat.mod_eq_of_lt (by omega), rfl⟩

theorem checkFrame_iff_written_empty :
    (checkFrame zlib (encodeFrame zlib 1000 1 []) 1000 0).kind = .valid ↔
      ∃ epoch payload, 0 ≤ epoch ∧ payload.length ≤ 1048576 ∧
        writeFrameBg zlib 1000 epoch payload ++ payload <+: encodeFrame zlib 1000 1 [] :=
  (checkFrame_iff_written zlib (by decide +kernel) 1000 0).1

end ServiceInfra
