import ServiceInfra.Segment.Layout
import ServiceInfra.Segment.ScanChain

/-!
# Scanning a segment cut by a crash

A crash leaves the first `t` bytes of what `append` wrote. The scan should find the last
frame boundary before `t`, and never call the file corrupt. It looks at the length field
before it checks how many bytes were read, so where fewer than 12 bytes are left it
judges bytes that an earlier read left in the buffer, or that nothing ever wrote.
`LenReadable` is the condition that those bytes are no length above the limit.

Main results:
- `scanLoop_cut`: the scan of a cut body, by induction on its frames
- `segmentScanner_cut_iff`: a cut segment is recovered exactly when `LenReadable` holds
- `lenReadable_after_iff`: behind a complete frame only cuts in one kind of header fail it
-/

namespace ServiceInfra

open Library
open Net (messagemaxlen messagemaxlen_toNat)

/-! ## Definitions -/

/-- What the scan has to report of frames laid from `pos` on and cut at `t`. -/
structure CrashRecovered (pos : Nat) (frames : List Frame) (t : Nat) (r : ScanEnd) : Prop where
  not_corrupt : r.kind ≠ .corrupt
  not_headBad : r.kind ≠ .headBad
  vaildEnd_greatest : IsGreatest { b | b ∈ pos :: frameEnds pos frames ∧ b ≤ t } r.vaildEnd
  clean_of_end : t ∈ frameEnds pos frames → r.kind = .clean

/-- The length field the scanner looks at where `m` bytes of the frames are left is at most
the limit. `held` are the bytes its buffer holds from index 8 on: those the file's end
leaves unread are looked at too. -/
def LenReadable : List UInt8 → List Frame → Nat → Prop
  | held, [], _ => readCrcBig held ≤ messagemaxlen
  | held, f :: frames, m =>
      if m < f.size then
        readCrcBig (f.lenField.take (m - 8) ++ held.drop (m - 8)) ≤ messagemaxlen
      else m = f.size ∨ LenReadable f.lenField frames (m - f.size)

instance decidableLenReadable : (held : List UInt8) → (frames : List Frame) → (m : Nat) →
    Decidable (LenReadable held frames m)
  | _, [], _ => inferInstanceAs (Decidable (_ ≤ _))
  | _, f :: frames, m =>
      have := decidableLenReadable f.lenField frames (m - f.size)
      inferInstanceAs (Decidable (if m < f.size then _ ≤ _ else _ ∨ _))

/-! ## The report, frame by frame -/

theorem CrashRecovered.of_torn {pos t : Nat} {frames : List Frame} {r : ScanEnd}
    (hle : pos ≤ t) (hcut : ∀ e ∈ frameEnds pos frames, t < e) (hkind : r.kind = .tornTail)
    (hvaild : r.vaildEnd = pos) : CrashRecovered pos frames t r where
  not_corrupt := by simp [hkind]
  not_headBad := by simp [hkind]
  vaildEnd_greatest := by
    rw [hvaild]
    -- every frame ends behind the cut, so the start is the last boundary
    refine ⟨⟨List.mem_cons_self, hle⟩, ?_⟩
    rintro b ⟨hb, hbt⟩
    rcases List.mem_cons.mp hb with rfl | hmem
    · exact le_rfl
    · have hlt := hcut b hmem
      omega
  clean_of_end hmem := absurd (hcut t hmem) (Nat.lt_irrefl t)

/-- The cut at the end of the first frame. -/
theorem CrashRecovered.of_clean {pos : Nat} {f : Frame} {frames : List Frame} {r : ScanEnd}
    (hkind : r.kind = .clean) (hvaild : r.vaildEnd = pos + f.size) :
    CrashRecovered pos (f :: frames) (pos + f.size) r where
  not_corrupt := by simp [hkind]
  not_headBad := by simp [hkind]
  vaildEnd_greatest := by
    rw [hvaild]
    exact ⟨⟨by simp [frameEnds], le_rfl⟩, fun b hb => hb.2⟩
  clean_of_end _ := hkind

/-- The first frame is complete: the report is that of the frames behind it. -/
theorem CrashRecovered.cons {pos t : Nat} {f : Frame} {frames : List Frame} {r : ScanEnd}
    (hlt : pos + f.size < t) (h : CrashRecovered (pos + f.size) frames t r) :
    CrashRecovered pos (f :: frames) t r where
  not_corrupt := h.not_corrupt
  not_headBad := h.not_headBad
  vaildEnd_greatest := by
    obtain ⟨⟨hmem, hle⟩, hub⟩ := h.vaildEnd_greatest
    -- the start of the first frame is not above any boundary behind it
    refine ⟨⟨List.mem_cons_of_mem _ hmem, hle⟩, ?_⟩
    rintro b ⟨hb, hbt⟩
    rcases List.mem_cons.mp hb with rfl | hmem'
    · have hfirst := hub ⟨List.mem_cons_self, hlt.le⟩
      omega
    · exact hub ⟨hmem', hbt⟩
  clean_of_end hmem := by
    refine h.clean_of_end ?_
    rcases List.mem_cons.mp hmem with rfl | hmem'
    · omega
    · exact hmem'

/-! ## The turn at the cut -/

section Cut

variable (Z : Zlib) (base : UInt64) {file : List UInt8} {s : ScanState}

/-- Where less than a frame is left, the turn ends the scan, and which way depends on the
length field it sees. -/
theorem scanTurn_cut
    (h : (s.rest file).length < 20 ∨
      (s.rest file).length < 20 + (seenLen s.buf (s.rest file)).toNat) :
    ∃ ans r, scanTurn Z file base (fun _ => .full) s = .inr (ans, r) ∧
      (seenLen s.buf (s.rest file) ≤ messagemaxlen →
        ans.kind = .tornTail ∧ ans.vaildEnd = s.offset) ∧
      (¬ seenLen s.buf (s.rest file) ≤ messagemaxlen → ans.kind = .corrupt) := by
  rw [scanTurn_full]
  simp only
  -- the length field is judged before the number of bytes read
  by_cases hbig : messagemaxlen < seenLen s.buf (s.rest file)
  · rw [if_pos hbig]
    exact ⟨_, _, rfl, fun hle => absurd hbig (UInt32.not_lt.mpr hle), fun _ => rfl⟩
  · rw [if_neg hbig, if_pos h]
    exact ⟨_, _, rfl, fun _ => ⟨rfl, rfl⟩, fun hgt => absurd (UInt32.not_lt.mp hbig) hgt⟩

end Cut

/-- What the scanner sees of a frame of which `m` bytes are left: the part of the length
field that was read, and behind it what the buffer held. -/
theorem seenLen_cut {Z : Zlib} {f : Frame} {buf held : List UInt8} {m : Nat}
    (hm : m ≤ f.size) (hheld : ∀ i < 4, (buf.drop 8).getD i 0 = held.getD i 0) :
    seenLen buf ((f.bytes Z).take m) =
      readCrcBig (f.lenField.take (m - 8) ++ held.drop (m - 8)) := by
  have hlen : ((f.bytes Z).take m).length = m := by
    rw [List.length_take, f.length_bytes]
    omega
  -- byte by byte: index `8 + i` was read or is left from before
  refine readCrcBig_congr fun i hi => ?_
  have hb := hheld i hi
  rw [List.getD_eq_getElem?_getD, List.getD_eq_getElem?_getD, List.getElem?_drop] at hb
  simp only [stored, hlen, List.getD_eq_getElem?_getD, List.getElem?_drop]
  by_cases him : 8 + i < m
  · -- read: it is a byte of the frame
    rw [List.getElem?_append_left (by omega), List.getElem?_take_of_lt him,
      f.getElem?_bytes Z hi,
      List.getElem?_append_left (by rw [List.length_take, f.length_lenField]; omega),
      List.getElem?_take_of_lt (by omega)]
  · -- not read: it is a byte of the buffer
    rw [List.getElem?_append_right (by omega), List.getElem?_drop,
      List.getElem?_append_right (by rw [List.length_take, f.length_lenField]; omega),
      List.getElem?_drop, hlen, List.length_take, f.length_lenField]
    rw [show m + (8 + i - m) = 8 + i by omega, show m - 8 + (i - min (m - 8) 4) = i by omega]
    exact hb

/-! ## The whole scan -/

/-- The scan stands at `s.offset`, in front of the first `m` bytes of the frames. -/
structure AtCut (Z : Zlib) (file : List UInt8) (base : UInt64) (frames : List Frame) (m : Nat)
    (held : List UInt8) (s : ScanState) : Prop where
  rest_eq : s.rest file = (frameBytes Z frames).take m
  m_le : m ≤ (frameBytes Z frames).length
  end_eq : s.offset + m = file.length
  placed : Placed base s.offset frames
  epochs : (s.prevEpoch :: frames.map Frame.epoch).Pairwise (· ≤ ·)
  held_eq : ∀ i < 4, (s.buf.drop 8).getD i 0 = held.getD i 0

section AtCut

variable {Z : Zlib} {file : List UInt8} {base : UInt64} {f : Frame} {frames : List Frame}
  {m : Nat} {held : List UInt8} {s : ScanState}

theorem AtCut.length_rest (h : AtCut Z file base frames m held s) :
    (s.rest file).length = m := by
  rw [h.rest_eq, List.length_take]
  have := h.m_le
  omega

/-- Less than the first frame is left. -/
theorem AtCut.rest_eq_of_lt (h : AtCut Z file base (f :: frames) m held s) (hm : m < f.size) :
    s.rest file = (f.bytes Z).take m := by
  rw [h.rest_eq, frameBytes_cons, List.take_append_of_le_length]
  rw [f.length_bytes]
  omega

/-- The first frame is left, and some of those behind it. -/
theorem AtCut.rest_eq_of_le (h : AtCut Z file base (f :: frames) m held s) (hm : f.size ≤ m) :
    s.rest file = f.bytes Z ++ (frameBytes Z frames).take (m - f.size) := by
  rw [h.rest_eq, frameBytes_cons, List.take_append, f.length_bytes, List.take_of_length_le]
  rw [f.length_bytes]
  exact hm

theorem AtCut.short (h : AtCut Z file base (f :: frames) m held s) (hm : m < f.size) :
    (s.rest file).length < 20 ∨
      (s.rest file).length < 20 + (seenLen s.buf (s.rest file)).toNat := by
  rw [h.length_rest]
  by_cases h20 : m < 20
  · exact .inl h20
  · -- the header was read, so the length seen is the payload's, and the payload is cut
    have htake : 12 ≤ ((f.bytes Z).take m).length := by
      rw [List.length_take, f.length_bytes]
      omega
    have hlen : frameLen ((f.bytes Z).take m) = UInt32.ofNat f.payload.length := by
      rw [← frameLen_append htake ((f.bytes Z).drop m), List.take_append_drop,
        ← List.append_nil (f.bytes Z), f.frameLen_bytes]
    rw [h.rest_eq_of_lt hm, seenLen_eq_frameLen htake, hlen]
    have hsize := f.size_eq_len
    rw [frameHead] at hsize
    omega

theorem AtCut.accepted (h : AtCut Z file base (f :: frames) m held s) (hm : f.size ≤ m) :
    FrameAccepted Z (s.rest file) (s.expected base) s.prevEpoch := by
  -- the writer's offset and epochs are those the scan expects here
  have hoffset : f.offset = s.expected base := h.placed.1
  have hepoch : s.prevEpoch ≤ f.epoch :=
    List.rel_of_pairwise_cons h.epochs (List.mem_cons_self)
  rw [h.rest_eq_of_le hm, ← hoffset]
  exact frameAccepted_encodeFrame Z f.payload_le hepoch _

/-- Past a complete frame the scan stands at the same cut of the frames behind it. -/
theorem AtCut.moved (h : AtCut Z file base (f :: frames) m held s) (hm : f.size ≤ m) :
    (s.moved file base).offset = s.offset + f.size ∧
      AtCut Z file base frames (m - f.size) f.lenField (s.moved file base) := by
  have hrest := h.rest_eq_of_le hm
  have hlen : frameLen (s.rest file) = UInt32.ofNat f.payload.length := by
    rw [hrest, f.frameLen_bytes]
  have hepoch : frameEpoch (s.rest file) = f.epoch := by
    rw [hrest, f.frameEpoch_bytes]
  have hoffset : (s.moved file base).offset = s.offset + f.size := by
    rw [s.moved_offset, hlen, f.size_eq_len, frameHead]
    omega
  -- the fields of `AtCut` for the frames behind the first
  refine ⟨hoffset, ?_, ?_, ?_, ?_, ?_, ?_⟩
  · rw [ScanState.rest, hoffset, ← List.drop_drop]
    rw [show file.drop s.offset = s.rest file from rfl, hrest]
    exact List.drop_left' (f.length_bytes Z)
  · have hle := h.m_le
    rw [frameBytes_cons, List.length_append, f.length_bytes] at hle
    omega
  · rw [hoffset, ← h.end_eq]
    omega
  · rw [hoffset]
    exact h.placed.2
  · rw [s.moved_prevEpoch, hepoch]
    exact h.epochs.of_cons
  · -- the window starts with the frame
    intro i hi
    have hhead := f.frameHead_le_size
    have hwindow : 8 + i < (scanWindow (s.rest file)).length := by
      rw [length_scanWindow, h.length_rest]
      rw [frameHead] at hhead
      omega
    have hbytes : 8 + i < (f.bytes Z).length := by
      rw [f.length_bytes]
      rw [frameHead] at hhead
      omega
    rw [s.moved_buf, List.getD_eq_getElem?_getD, List.getD_eq_getElem?_getD, List.getElem?_drop,
      stored, List.getElem?_append_left hwindow, scanWindow, List.getElem?_take_of_lt, hrest,
      List.getElem?_append_left hbytes, f.getElem?_bytes Z hi]
    omega

end AtCut

theorem scanLoop_cut {Z : Zlib} {file : List UInt8} {base : UInt64} {frames : List Frame}
    {s : ScanState} {held : List UInt8} {m : Nat} (h : AtCut Z file base frames m held s) :
    (LenReadable held frames m → CrashRecovered s.offset frames file.length
        ((scanLoop Z file base fun _ => .full).exec s).1) ∧
      (¬ LenReadable held frames m →
        ((scanLoop Z file base fun _ => .full).exec s).1.kind = .corrupt) := by
  -- on the frames in front of the cut: each turn passes one, until the turn at which the
  -- cut lies in the frame, at its end or in front of no frame
  induction frames generalizing s held m with
  | nil =>
    have hm : m = 0 := Nat.le_zero.mp h.m_le
    have hend := h.end_eq
    have hrest : s.rest file = [] := by
      rw [h.rest_eq, hm]
      rfl
    have hseen : seenLen s.buf (s.rest file) = readCrcBig held := by
      rw [hrest]
      exact readCrcBig_congr h.held_eq
    -- no bytes are left, and the length field seen is what the buffer held
    obtain ⟨ans, r, hturn, htorn, hcorrupt⟩ := scanTurn_cut Z base
      (Or.inl (show (s.rest file).length < 20 by rw [hrest]; decide))
    rw [hseen] at htorn hcorrupt
    rw [Loop.exec_of_inr _ hturn]
    refine ⟨fun hread => ?_, hcorrupt⟩
    obtain ⟨hkind, hvaild⟩ := htorn hread
    exact .of_torn (by omega) (by simp [frameEnds]) hkind hvaild
  | cons f frames ih =>
    have hend := h.end_eq
    by_cases hm : m < f.size
    · -- the cut is in this frame
      have hseen : seenLen s.buf (s.rest file) =
          readCrcBig (f.lenField.take (m - 8) ++ held.drop (m - 8)) := by
        rw [h.rest_eq_of_lt hm]
        exact seenLen_cut hm.le h.held_eq
      obtain ⟨ans, r, hturn, htorn, hcorrupt⟩ := scanTurn_cut Z base (h.short hm)
      rw [hseen] at htorn hcorrupt
      rw [Loop.exec_of_inr _ hturn]
      simp only [LenReadable, if_pos hm]
      refine ⟨fun hread => ?_, hcorrupt⟩
      obtain ⟨hkind, hvaild⟩ := htorn hread
      -- this frame and those behind it end behind the cut
      refine .of_torn (by omega) ?_ hkind hvaild
      intro e he
      rcases List.mem_cons.mp he with rfl | hmem
      · omega
      · have hlt := lt_of_mem_frameEnds hmem
        omega
    · have hle : f.size ≤ m := Nat.le_of_not_lt hm
      obtain ⟨hoffset, hmoved⟩ := h.moved hle
      -- the frame is complete, and the turn moves past it
      have hturn := scanTurn_accepted (h.accepted hle)
      simp only [LenReadable, if_neg hm]
      by_cases hlast : m = f.size
      · -- the cut is at its end
        have hfile : (s.moved file base).offset = file.length := by omega
        rw [if_pos hfile] at hturn
        rw [Loop.exec_of_inr _ hturn]
        refine ⟨fun _ => ?_, fun hn => absurd (.inl hlast) hn⟩
        rw [← hend, hlast]
        exact .of_clean rfl (by rw [← hoffset]; rfl)
      · -- the cut is behind it
        have hfile : (s.moved file base).offset ≠ file.length := by omega
        rw [if_neg hfile] at hturn
        rw [Loop.exec_of_inl _ hturn]
        obtain ⟨hrecovered, hcorrupt⟩ := ih hmoved
        rw [hoffset] at hrecovered
        refine ⟨fun hread => ?_, fun hn => hcorrupt fun hread => hn (.inr hread)⟩
        exact .cons (by omega) (hrecovered (hread.resolve_left hlast))

/-- A cut segment is recovered, with the last frame boundary before the cut and never as
corrupt, exactly when the length field the scanner looks at there is at most the limit. -/
theorem segmentScanner_cut_iff {Z : Zlib} {header : List UInt8} {base wall : UInt64}
    {frames : List Frame} {t : Nat} (hlen : header.length = 32)
    (hvalid : compareMagicCrc Z header = some (base, wall)) (hbase : base ≠ 0)
    (hplaced : Placed base 32 frames) (hepochs : (frames.map Frame.epoch).Pairwise (· ≤ ·))
    (hle : 32 ≤ t) (hfull : t ≤ (header ++ frameBytes Z frames).length) (inteval : ℕ+)
    (buf : List UInt8) :
    CrashRecovered 32 frames t
        ((SegmentRecovery.fresh inteval buf).segmentScanner Z
          ((header ++ frameBytes Z frames).take t) {}).1 ↔
      LenReadable (buf.drop 8) frames (t - 32) := by
  -- the cut keeps the header and `t - 32` bytes of the frames
  have hcut : (header ++ frameBytes Z frames).take t =
      header ++ (frameBytes Z frames).take (t - 32) := by
    rw [List.take_append, hlen, List.take_of_length_le (by omega)]
  have hbody : t - 32 ≤ (frameBytes Z frames).length := by
    rw [List.length_append, hlen] at hfull
    omega
  have hend : 32 + (t - 32) = (header ++ (frameBytes Z frames).take (t - 32)).length := by
    rw [List.length_append, List.length_take, hlen]
    omega
  -- the scan starts at a cut, holding whatever the buffer was made with
  have hstart : AtCut Z (header ++ (frameBytes Z frames).take (t - 32)) base frames (t - 32)
      (buf.drop 8) (scanStart inteval buf) :=
    { rest_eq := List.drop_left' hlen
      m_le := hbody
      end_eq := hend
      placed := hplaced
      epochs := List.pairwise_cons.mpr ⟨fun e _ => UInt32.zero_le, hepochs⟩
      held_eq := fun _ _ => rfl }
  have hfile : (header ++ (frameBytes Z frames).take (t - 32)).length = t := by omega
  obtain ⟨hrecovered, hcorrupt⟩ := scanLoop_cut hstart
  rw [hfile] at hrecovered
  rw [hcut, segmentScanner_eq (HasHead.of_header hlen hvalid hbase _)]
  -- without the condition the scan ends as corrupt, which is never a recovery
  refine ⟨fun h => ?_, hrecovered⟩
  by_contra hread
  exact h.not_corrupt (hcorrupt hread)

/-- Two frames, and a crash ten bytes into the second. -/
theorem segmentScanner_cut_iff_second :
    let frames : List Frame := [⟨1000, 1, [0x41], by decide⟩, ⟨1021, 1, [0x42], by decide⟩]
    CrashRecovered 32 frames 63
        ((SegmentRecovery.fresh 4 []).segmentScanner zlib
          ((writeSegheadBg zlib 1 1000 0 ++ frameBytes zlib frames).take 63) {}).1 ↔
      LenReadable [] frames 31 := by
  intro frames
  have hplaced : Placed 1000 32 frames := ⟨by decide, by decide, trivial⟩
  exact segmentScanner_cut_iff rfl (compareMagicCrc_writeSegheadBg zlib 1000 0) (by decide)
    hplaced (by decide) (by decide) (by decide) 4 []

/-- A crash right behind the header, and a buffer that holds a length above the limit. -/
theorem segmentScanner_cut_unwritten :
    compareMagicCrc zlib (writeSegheadBg zlib 1 1000 0) = some (1000, 0) ∧
      ¬ CrashRecovered 32 [] 32
        ((SegmentRecovery.fresh 4 (List.replicate 12 0xFF)).segmentScanner zlib
          ((writeSegheadBg zlib 1 1000 0 ++ frameBytes zlib []).take 32) {}).1 := by
  refine ⟨compareMagicCrc_writeSegheadBg zlib 1000 0, fun h => h.not_corrupt ?_⟩
  decide +kernel

/-! ## The condition behind a complete frame -/

/-- The value of four length bytes of which the first `k` are those of `a` and the other
`w` those of `b`. -/
theorem readCrcBig_mixed (a b : Nat) {k w : Nat} (hk : k + w = 4) :
    (readCrcBig ((BigEndian.toBytes 4 a).take k ++ (BigEndian.toBytes 4 b).drop k)).toNat =
      a / 256 ^ w % 256 ^ k * 256 ^ w + b % 256 ^ w := by
  -- the kept bytes are a quotient and a remainder of the two values
  rw [← hk, BigEndian.take_toBytes, BigEndian.drop_toBytes, readCrcBig_toNat_of_length,
    BigEndian.ofBytes_append, BigEndian.ofBytes_toBytes, BigEndian.ofBytes_toBytes,
    BigEndian.length_toBytes]
  rw [List.length_append, BigEndian.length_toBytes, BigEndian.length_toBytes, hk]

/-- Behind a complete frame, only a cut after the second or third byte of the length of a
payload of exactly 1 MiB is misread: the buffer still holds low bytes of the length of
the frame before. -/
theorem lenReadable_after_iff {f g : Frame} {frames : List Frame} {m : Nat} (hm : m < g.size) :
    LenReadable f.lenField (g :: frames) m ↔
      ¬ (g.payload.length = 1048576 ∧
        (m = 10 ∧ f.payload.length % 65536 ≠ 0 ∨ m = 11 ∧ f.payload.length % 256 ≠ 0)) := by
  have hf := f.payload_le
  have hg := g.payload_le
  -- both length fields are the four digits of the payload lengths
  have hlenField : ∀ f : Frame, f.payload.length ≤ 1048576 →
      f.lenField = BigEndian.toBytes 4 f.payload.length := by
    intro f hle
    rw [Frame.lenField, writeU32Be_eq, UInt32.toNat_ofNat', Nat.mod_eq_of_lt (by omega)]
  simp only [LenReadable, if_pos hm]
  rw [UInt32.le_iff_toNat_le, messagemaxlen_toNat, hlenField f hf, hlenField g hg]
  -- by the number of bytes of the length field that were read
  have hk : m - 8 = 0 ∨ m - 8 = 1 ∨ m - 8 = 2 ∨ m - 8 = 3 ∨ 4 ≤ m - 8 := by omega
  rcases hk with hk | hk | hk | hk | hk
  · rw [hk, readCrcBig_mixed _ _ (show 0 + 4 = 4 from rfl)]
    omega
  · rw [hk, readCrcBig_mixed _ _ (show 1 + 3 = 4 from rfl)]
    omega
  · rw [hk, readCrcBig_mixed _ _ (show 2 + 2 = 4 from rfl)]
    omega
  · rw [hk, readCrcBig_mixed _ _ (show 3 + 1 = 4 from rfl)]
    omega
  · -- the whole field was read
    rw [List.take_of_length_le (by simpa using hk), List.drop_of_length_le (by simpa using hk),
      List.append_nil, readCrcBig_toNat_of_length (BigEndian.length_toBytes 4 _),
      BigEndian.ofBytes_toBytes]
    omega

end ServiceInfra
