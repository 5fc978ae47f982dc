import ServiceInfra.Segment.FailedRollback

/-!
# A damaged byte inside a segment

One byte of a frame is replaced. The checksum covers every field but the offset, which is
compared, so `check_frame` refuses the frame, whatever byte it is, with one exception. Of a
damaged length field the checksum says nothing before as many bytes are there as the field
announces: where they are not, frame and all that follows are a torn tail; where they are,
they may be other bytes than those the checksum was made of, and have that checksum too.

Main results:
- `damaged_rejected`: a damaged frame is refused unless the byte is one of the length field
- `segmentScanner_damaged_iff`: when the scan of a damaged segment ends torn
-/

namespace ServiceInfra

open Library
open Net (messagemaxlen)

/-! ## A damaged frame -/

/-- A field is read as before when the byte lies outside it. -/
theorem readCrcBig_set {h : List UInt8} {k j : Nat} (hk : k < j ∨ j + 4 ≤ k) (b : UInt8) :
    readCrcBig ((h.set k b).drop j) = readCrcBig (h.drop j) := by
  refine readCrcBig_congr fun i hi => ?_
  rw [List.getD_eq_getElem?_getD, List.getD_eq_getElem?_getD, List.getElem?_drop,
    List.getElem?_drop, List.getElem?_set_ne (by omega)]

theorem readU64Be_set {h : List UInt8} (h8 : 8 ≤ h.length) {k : Nat} (hk : 8 ≤ k) (b : UInt8) :
    readU64Be (h.set k b) = readU64Be h := by
  have hsplit : h = h.take 8 ++ h.drop 8 := (List.take_append_drop 8 h).symm
  have htake : (h.take 8).length = 8 := List.length_take_of_le h8
  conv_lhs => rw [hsplit, List.set_append_right _ _ (by rw [htake]; exact hk)]
  conv_rhs => rw [hsplit]
  rw [readU64Be_append (by omega), readU64Be_append (by omega)]

/-- Bytes in front of which a change would be seen did not change. -/
theorem set_of_take_eq {h : List UInt8} {k j : Nat} {b : UInt8} (hk : k < j) (hlen : j ≤ h.length)
    (heq : (h.set k b).take j = h.take j) : h[k]? = some b := by
  have hget := congrArg (fun l => l[k]?) heq
  simp only [List.getElem?_take_of_lt hk,
    List.getElem?_set_self (show k < h.length by omega)] at hget
  exact hget.symm

section Damage

variable {Z : Zlib} {h : List UInt8} {off : UInt64} {prev : UInt32} {k : Nat} {b : UInt8}

/-- The bytes that the checksum of a frame is made of. -/
def covered (h : List UInt8) : List UInt8 :=
  (h.drop 8).take 8 ++ (h.drop frameHead).take (frameLen h).toNat

theorem frameCrc_covered (hZ : Z.DetectsByte) (h : List UInt8) :
    frameCrc Z h = Z.crc32 0 (covered h) := by
  rw [frameCrc, hZ.running, Z.crc32_nil, covered]

/-- A byte of the epoch or of the payload is one of those the checksum is made of. -/
theorem covered_set (hc : (frameLen h).toNat + 20 ≤ h.length)
    (hk : 12 ≤ k ∧ k < 16 ∨ 20 ≤ k ∧ k < 20 + (frameLen h).toNat) (hb : h[k]? ≠ some b) :
    ∃ i < (covered h).length, (covered h)[i]? ≠ some b ∧
      covered (h.set k b) = (covered h).set i b := by
  have hlen : frameLen (h.set k b) = frameLen h := readCrcBig_set (by omega) b
  have hhead : ((h.drop 8).take 8).length = 8 := by
    rw [List.length_take, List.length_drop]
    omega
  have hbody : ((h.drop 20).take (frameLen h).toNat).length = (frameLen h).toNat := by
    rw [List.length_take, List.length_drop]
    omega
  rcases hk with ⟨hlo, hhi⟩ | ⟨hlo, hhi⟩
  · refine ⟨k - 8, ?_, ?_, ?_⟩
    · rw [covered, List.length_append, hhead]
      omega
    · rw [covered, List.getElem?_append_left (by omega), List.getElem?_take_of_lt (by omega),
        List.getElem?_drop, Nat.add_sub_cancel' (by omega)]
      exact hb
    · rw [covered, covered, hlen, List.drop_set, List.drop_set, if_neg (by omega),
        if_pos (by rw [frameHead]; omega), List.take_set, List.set_append_left _ _ (by omega)]
  · refine ⟨8 + (k - 20), ?_, ?_, ?_⟩
    · rw [covered, frameHead, List.length_append, hhead, hbody]
      omega
    · rw [covered, frameHead, List.getElem?_append_right (by omega), hhead, Nat.add_sub_cancel_left,
        List.getElem?_take_of_lt (by omega), List.getElem?_drop, Nat.add_sub_cancel' hlo]
      exact hb
    · rw [covered, covered, hlen, frameHead, List.drop_set, List.drop_set, if_neg (by omega),
        if_neg (by omega), List.take_set, List.take_set, List.set_append_right _ _ (by omega),
        hhead, Nat.add_sub_cancel_left, List.set_eq_of_length_le (by rw [hhead]; omega)]

/-- A byte of the offset or of the checksum itself is not. -/
theorem covered_set_outside (hk : k < 8 ∨ 16 ≤ k ∧ k < 20) (b : UInt8) :
    covered (h.set k b) = covered h := by
  have hlen : frameLen (h.set k b) = frameLen h := readCrcBig_set (by omega) b
  rw [covered, covered, hlen, frameHead, List.drop_set, List.drop_set]
  rcases hk with hk | hk
  · rw [if_pos hk, if_pos (by omega)]
  · rw [if_neg (by omega), if_pos (by omega), List.take_set,
      List.set_eq_of_length_le (by rw [List.length_take]; omega)]

/-- `check_frame` refuses an accepted frame with one byte changed, unless the byte is one of
the length field. -/
theorem damaged_rejected (hZ : Z.DetectsByte) (ha : FrameAccepted Z h off prev)
    (hk : k < 20 + (frameLen h).toNat) (hfield : k < 8 ∨ 12 ≤ k) (hb : h[k]? ≠ some b) :
    ¬ FrameAccepted Z (h.set k b) off prev := by
  intro ha'
  have hcomplete := ha.complete
  rw [frameHead] at hcomplete
  by_cases hoffset : k < 8
  · -- the offset is compared with the one expected
    refine hb (set_of_take_eq hoffset (by omega) ?_)
    rw [← writeU64Be_readU64Be (by rw [List.length_set]; omega), ← writeU64Be_readU64Be (by omega),
      ha.offset_eq, ha'.offset_eq]
  · by_cases hcrc : 16 ≤ k ∧ k < 20
    · -- the checksum stored changed, the one computed did not
      have hsame : readCrcBig ((h.set k b).drop 16) = readCrcBig (h.drop 16) := by
        rw [← ha'.crc_eq, ← ha.crc_eq, frameCrc_covered hZ, frameCrc_covered hZ,
          covered_set_outside (.inr hcrc)]
      have hbytes : ((h.drop 16).set (k - 16) b).take 4 = (h.drop 16).take 4 := by
        have hdrop : (h.drop 16).set (k - 16) b = (h.set k b).drop 16 := by
          rw [List.drop_set, if_neg (by omega)]
        rw [hdrop, ← writeU32Be_readCrcBig (by rw [List.length_drop, List.length_set]; omega),
          ← writeU32Be_readCrcBig (by rw [List.length_drop]; omega), hsame]
      have hold := set_of_take_eq (show k - 16 < 4 by omega) (by rw [List.length_drop]; omega)
        hbytes
      rw [List.getElem?_drop, Nat.add_sub_cancel' hcrc.1] at hold
      exact hb hold
    · -- the checksum computed changed, the one stored did not
      obtain ⟨i, hi, hbi, hset⟩ := covered_set hcomplete (show _ by omega) hb
      have hstored : readCrcBig ((h.set k b).drop 16) = readCrcBig (h.drop 16) :=
        readCrcBig_set (by omega) b
      refine hZ.set 0 hi hbi ?_
      rw [← hset, ← frameCrc_covered hZ, ← frameCrc_covered hZ, ha'.crc_eq, ha.crc_eq, hstored]

/-- With a damaged length field the other criteria stay as they were. -/
theorem damaged_accepted_iff (ha : FrameAccepted Z h off prev) (hfield : 8 ≤ k ∧ k < 12) :
    FrameAccepted Z (h.set k b) off prev ↔
      frameLen (h.set k b) ≤ messagemaxlen ∧
        20 + (frameLen (h.set k b)).toNat ≤ (h.set k b).length ∧
        frameCrc Z (h.set k b) = readCrcBig ((h.set k b).drop 16) := by
  have hcomplete := ha.complete
  rw [frameHead] at hcomplete
  have hepoch : frameEpoch (h.set k b) = frameEpoch h := readCrcBig_set (by omega) b
  have hoffset : readU64Be (h.set k b) = readU64Be h := readU64Be_set (by omega) hfield.1 b
  constructor
  · intro ha'
    have hcomplete' := ha'.complete
    rw [frameHead] at hcomplete'
    exact ⟨ha'.len_le, by omega, ha'.crc_eq⟩
  · rintro ⟨hlen, hwhole, hcrc⟩
    exact ⟨hlen, hepoch.symm ▸ ha.epoch_le, by rw [frameHead]; omega, hcrc,
      hoffset.trans ha.offset_eq⟩

end Damage

/-! ## A damaged segment -/

section Scan

variable {Z : Zlib} {base : UInt64} {file buf : List UInt8}

theorem Placed.split {frames gs : List Frame} {pos : Nat} (h : Placed base pos (frames ++ gs)) :
    Placed base pos frames ∧ Placed base (pos + (frameBytes Z frames).length) gs := by
  induction frames generalizing pos with
  | nil => exact ⟨trivial, h⟩
  | cons f frames ih =>
    obtain ⟨hframes, hgs⟩ := ih h.2
    rw [frameBytes_cons, List.length_append, f.length_bytes, ← Nat.add_assoc]
    exact ⟨⟨h.1, hframes⟩, hgs⟩

theorem lastFrameEpoch_le {frames gs : List Frame} {f : Frame}
    (h : ((frames ++ f :: gs).map Frame.epoch).Pairwise (· ≤ ·)) :
    lastFrameEpoch 0 frames ≤ f.epoch := by
  rw [List.map_append, List.map_cons] at h
  have hpairs := (List.pairwise_append.mp h).2.2
  rw [lastFrameEpoch]
  cases hlast : frames.getLast? with
  | none => exact UInt32.zero_le
  | some g =>
    exact hpairs _ (List.mem_map_of_mem (List.mem_of_getLast? hlast)) _ List.mem_cons_self

/-- Where nothing is accepted behind the frames found so far and a frame header is left, the
scan ends torn exactly when the frame is cut off. -/
theorem stopsTorn_iff {frames : List ScannedFrame} {p : Nat} {e : UInt32}
    (hstuck : nextFrame Z base file (p, e) = none) (h20 : 20 ≤ (file.drop p).length) :
    StopsTorn Z base file buf frames (p, e) ↔
      frameLen (file.drop p) ≤ messagemaxlen ∧
        (file.drop p).length < 20 + (frameLen (file.drop p)).toNat := by
  have hend : p ≠ file.length := by
    rintro rfl
    rw [List.drop_length, List.length_nil] at h20
    omega
  have hseen : seenLen (bufferAfter file buf frames) (file.drop p) = frameLen (file.drop p) :=
    seenLen_eq_frameLen (by omega) _
  simp only [StopsTorn, hseen, IncompleteTail]
  constructor
  · rintro ⟨-, hshort | htail, -, -⟩
    · exact absurd hshort (Nat.not_lt.mpr h20)
    · exact htail
  · exact fun h => ⟨hstuck, .inr h, h.1, fun heq => absurd heq hend⟩

/-- The scan's buffer depends on the last frame alone. -/
theorem bufferAfter_append (frames : List ScannedFrame) (f : ScannedFrame)
    (more : List ScannedFrame) :
    bufferAfter file buf (frames ++ f :: more) = bufferAfter file buf (f :: more) := by
  simp only [bufferAfter, List.getLast?_append, List.getLast?_cons, Option.some_or]

/-- Behind the frames found so far nothing is accepted: the scan ends there. -/
theorem tornTail_iff_of_refused (hhead : HasHead Z file base) {frames : List ScannedFrame}
    {p : Nat} {e : UInt32} (hchain : Chain (nextFrame Z base file) (32, 0) frames (p, e))
    (hstuck : nextFrame Z base file (p, e) = none) (h20 : 20 ≤ (file.drop p).length)
    (inteval : ℕ+) (buf : List UInt8) :
    ((SegmentRecovery.fresh inteval buf).segmentScanner Z file {}).1.kind = .tornTail ↔
      frameLen (file.drop p) ≤ messagemaxlen ∧
        (file.drop p).length < 20 + (frameLen (file.drop p)).toNat := by
  rw [segmentScanner_tornTail_iff hhead, ← stopsTorn_iff hstuck h20]
  constructor
  · rintro ⟨frames', t, hchain', hstop⟩
    obtain ⟨rfl, rfl⟩ := hchain'.stuck_unique hstop.1 hchain hstuck
    exact hstop
  · exact fun hstop => ⟨_, _, hchain, hstop⟩

/-- Behind the frames found so far one more is accepted: the scan goes on behind it. -/
theorem tornTail_iff_of_accepted (hhead : HasHead Z file base) {frames : List ScannedFrame}
    {s t : Nat × UInt32} {f : ScannedFrame}
    (hchain : Chain (nextFrame Z base file) (32, 0) frames s)
    (hnext : nextFrame Z base file s = some (f, t)) (inteval : ℕ+) (buf : List UInt8) :
    ((SegmentRecovery.fresh inteval buf).segmentScanner Z file {}).1.kind = .tornTail ↔
      ∃ more u, Chain (nextFrame Z base file) t more u ∧
        StopsTorn Z base file buf (f :: more) u := by
  have hsnoc := hchain.snoc hnext
  -- neither the buffer nor the last criterion tells the frames in front
  have hstops : ∀ more u, StopsTorn Z base file buf (frames ++ [f] ++ more) u ↔
      StopsTorn Z base file buf (f :: more) u := by
    intro more u
    rw [List.append_assoc, List.singleton_append, StopsTorn, StopsTorn, bufferAfter_append]
    simp only [List.append_eq_nil_iff, reduceCtorEq, and_false]
  rw [segmentScanner_tornTail_iff hhead]
  constructor
  · rintro ⟨frames', u, hchain', hstop⟩
    obtain ⟨more, rfl, hmore⟩ := hchain'.extends_of_stuck hstop.1 hsnoc
    exact ⟨more, u, hmore, (hstops more u).mp hstop⟩
  · rintro ⟨more, u, hmore, hstop⟩
    exact ⟨_, u, hsnoc.append hmore, (hstops more u).mpr hstop⟩

/-- Over every segment with one byte of one frame replaced: its scan ends torn exactly when
the byte is one of the length field, the length it makes is at most the limit, and either
fewer bytes are left than that, or those it announces have the checksum stored and the
frames accepted behind them stop as torn. -/
theorem segmentScanner_damaged_iff (hZ : Z.DetectsByte) {header : List UInt8} {wall : UInt64}
    {pre post : List Frame} {f : Frame} {k : Nat} {b : UInt8} (hlen : header.length = 32)
    (hvalid : compareMagicCrc Z header = some (base, wall)) (hbase : base ≠ 0)
    (hplaced : Placed base 32 (pre ++ f :: post))
    (hepochs : ((pre ++ f :: post).map Frame.epoch).Pairwise (· ≤ ·)) (hk : k < f.size)
    (hb : (f.bytes Z)[k]? ≠ some b) (inteval : ℕ+) (buf : List UInt8) :
    let p := 32 + (frameBytes Z pre).length
    let file := (header ++ frameBytes Z (pre ++ f :: post)).set (p + k) b
    let rest := file.drop p
    let len := frameLen rest
    ((SegmentRecovery.fresh inteval buf).segmentScanner Z file {}).1.kind = .tornTail ↔
      (8 ≤ k ∧ k < 12) ∧ len ≤ messagemaxlen ∧
        (rest.length < 20 + len.toNat ∨
          frameCrc Z rest = readCrcBig (rest.drop 16) ∧
            ∃ more t, Chain (nextFrame Z base file) (p + (len.toNat + 20), f.epoch) more t ∧
              StopsTorn Z base file buf (⟨p, len, f.epoch⟩ :: more) t) := by
  intro p file rest len
  -- the damaged file is the header, the frames in front, and the damaged rest
  let h := f.bytes Z ++ frameBytes Z post
  have hsize : f.size ≤ h.length := by
    rw [List.length_append, f.length_bytes]
    omega
  have hfile : file = header ++ (frameBytes Z pre ++ h.set k b) := by
    simp only [file, p, frameBytes_append, frameBytes_cons]
    rw [List.set_append_right _ _ (by omega), List.set_append_right _ _ (by omega)]
    congr 3
    omega
  have hbody : file.drop 32 = frameBytes Z pre ++ h.set k b := by
    rw [hfile, List.drop_left' hlen]
  have hrest : rest = h.set k b := by
    simp only [rest, p]
    rw [← List.drop_drop, hbody, List.drop_left]
  have hhead : HasHead Z file base := by
    rw [hfile]
    exact HasHead.of_header hlen hvalid hbase _
  -- the frames in front are passed, and the undamaged frame would be
  obtain ⟨hplacedPre, hoffset, -⟩ := hplaced.split (Z := Z)
  have hepochsPre : (0 :: pre.map Frame.epoch).Pairwise (· ≤ ·) := by
    rw [List.map_append] at hepochs
    exact List.pairwise_cons.mpr ⟨fun e _ => UInt32.zero_le, (List.pairwise_append.mp hepochs).1⟩
  have hpre : Chain (nextFrame Z base file) (32, 0) (scannedFrames 32 pre)
      (p, lastFrameEpoch 0 pre) := chain_frames hbody hplacedPre hepochsPre
  have ha : FrameAccepted Z h (base + UInt64.ofNat p - 32) (lastFrameEpoch 0 pre) := by
    rw [← hoffset]
    exact frameAccepted_encodeFrame Z f.payload_le (lastFrameEpoch_le hepochs) _
  have hframe : frameLen h = UInt32.ofNat f.payload.length := f.frameLen_bytes Z _
  have hbh : h[k]? ≠ some b := by
    rw [List.getElem?_append_left (by rw [f.length_bytes]; exact hk)]
    exact hb
  have h20 : 20 ≤ rest.length := by
    have hhead' := f.frameHead_le_size
    rw [hrest, List.length_set]
    rw [frameHead] at hhead'
    omega
  by_cases hfield : 8 ≤ k ∧ k < 12
  · have haccepted := damaged_accepted_iff (b := b) ha hfield
    rw [← hrest] at haccepted
    by_cases ha' : FrameAccepted Z rest (base + UInt64.ofNat p - 32) (lastFrameEpoch 0 pre)
    · -- the checksum happens to agree: the scan goes on behind the wrong length
      obtain ⟨hle, hwhole, hcrc⟩ := haccepted.mp ha'
      have hepoch : frameEpoch rest = f.epoch := by
        rw [hrest]
        exact (readCrcBig_set (by omega) b).trans (f.frameEpoch_bytes Z _)
      have hnext := nextFrame_of_accepted ha'
      rw [show file.drop p = rest from rfl, hepoch] at hnext
      rw [tornTail_iff_of_accepted hhead hpre hnext]
      constructor
      · rintro ⟨more, t, hmore, hstop⟩
        exact ⟨hfield, hle, .inr ⟨hcrc, more, t, hmore, hstop⟩⟩
      · rintro ⟨-, -, hshort | ⟨-, hmore⟩⟩
        · exact absurd hshort (Nat.not_lt.mpr hwhole)
        · exact hmore
    · rw [tornTail_iff_of_refused hhead hpre (nextFrame_eq_none_iff.mpr ha') h20]
      constructor
      · rintro ⟨hle, hshort⟩
        exact ⟨hfield, hle, .inl hshort⟩
      · rintro ⟨-, hle, hshort | ⟨hcrc, -⟩⟩
        · exact ⟨hle, hshort⟩
        · -- otherwise the frame would be accepted
          refine ⟨hle, Nat.lt_of_not_le fun hwhole => ha' (haccepted.mpr ⟨hle, hwhole, hcrc⟩)⟩
  · -- any other byte: refused, and not cut off
    have hpayload := f.size_eq_len
    rw [frameHead, ← hframe] at hpayload
    have hrejected := damaged_rejected hZ ha (by omega) (show _ by omega) hbh
    have hlenEq : len = frameLen h := by
      simp only [len]
      rw [hrest]
      exact readCrcBig_set (by omega) b
    rw [← hrest] at hrejected
    rw [tornTail_iff_of_refused hhead hpre (nextFrame_eq_none_iff.mpr hrejected) h20]
    refine iff_of_false (fun htorn => ?_) fun hall => hfield hall.1
    have hshort : rest.length < 20 + len.toNat := htorn.2
    rw [hlenEq, hrest, List.length_set] at hshort
    omega

end Scan

/-- A byte of the payload of the first of two frames. -/
theorem segmentScanner_damaged_payload :
    let frames : List Frame := [⟨1000, 1, [0x41], by decide⟩, ⟨1021, 1, [0x42], by decide⟩]
    let file := (writeSegheadBg zlib 1 1000 0 ++ frameBytes zlib frames).set (32 + 0 + 20) 0x43
    ((SegmentRecovery.fresh 4 []).segmentScanner zlib file {}).1.kind ≠ .tornTail := by
  intro frames file htorn
  have hall := (@segmentScanner_damaged_iff zlib 1000 zlib_detectsByte _ _ []
    [⟨1021, 1, [0x42], by decide⟩] ⟨1000, 1, [0x41], by decide⟩ 20 0x43 rfl
    (compareMagicCrc_writeSegheadBg zlib 1000 0) (by decide) ⟨by decide, by decide, trivial⟩
    (by decide) (by decide) (by decide +kernel) 4 []).mp htorn
  exact absurd hall.1 (by decide)

/-- The last byte of the length field of the first of two frames: torn in front of both. -/
theorem segmentScanner_damaged_len :
    let file := writeSegheadBg zlib 1 1000 0 ++
      (encodeFrame zlib 1000 1 [0x41] ++ encodeFrame zlib 1021 1 [0x42])
    let r := ((SegmentRecovery.fresh 4 []).segmentScanner zlib file {}).1
    let damaged := file.set (32 + 11) 200
    let r' := ((SegmentRecovery.fresh 4 []).segmentScanner zlib damaged {}).1
    r.kind = .clean ∧ r.vaildEnd = 74 ∧ r'.kind = .tornTail ∧ r'.vaildEnd = 32 := by
  decide +kernel

end ServiceInfra
