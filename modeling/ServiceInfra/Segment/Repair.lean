import ServiceInfra.Segment.ScanChain

/-!
# Repairing a torn segment

`turncate_segment` cuts a torn segment at `vaild_end`, where the last accepted frame ends.
The frames in front of the cut are read as before, so the scan of the shortened file ends
at its end. Whether it says clean there is another matter: that verdict is only given right
behind an accepted frame, so a file without one is torn before the cut and after it.

Main results:
- `nextFrame_take`: a frame in front of a cut is accepted as before
- `segmentScanner_repaired_iff`: the cut repairs the segment exactly when a frame is accepted
-/

namespace ServiceInfra

open Library

/-! ## Definitions -/

/-- What the cut of a torn segment has to achieve, for a scan that ended as `r`: the
shortened file is clean with the same end and last epoch, and a second cut leaves it as it
is. -/
structure Repaired (Z : Zlib) (file : List UInt8) (r : ScanEnd) : Prop where
  clean : ∀ (inteval : ℕ+) (buf : List UInt8),
    let r' := ((SegmentRecovery.fresh inteval buf).segmentScanner Z
      (SegmentRecovery.turncateSegment file r.vaildEnd true) {}).1
    r'.kind = .clean ∧ r'.vaildEnd = r.vaildEnd ∧ r'.lastEpoch = r.lastEpoch
  again : ∀ (inteval : ℕ+) (buf : List UInt8),
    let file' := SegmentRecovery.turncateSegment file r.vaildEnd true
    let r' := ((SegmentRecovery.fresh inteval buf).segmentScanner Z file' {}).1
    SegmentRecovery.turncateSegment file' r'.vaildEnd true = file'

/-! ## Frames in front of a cut -/

section Cut

variable {Z : Zlib} {base : UInt64} {file : List UInt8}

/-- A frame that ends in front of a cut is accepted in the shortened file too. -/
theorem nextFrame_take {p n : Nat} {e : UInt32} {f : ScannedFrame} {t : Nat × UInt32}
    (h : nextFrame Z base file (p, e) = some (f, t)) (hn : t.1 ≤ n) :
    nextFrame Z base (file.take n) (p, e) = some (f, t) := by
  obtain ⟨ha, -, rfl⟩ := nextFrame_eq_some h
  have hcomplete := ha.complete
  simp only [frameHead] at hcomplete hn
  -- the shortened file still holds the frame
  have hrest : (file.take n).drop p = (file.drop p).take (n - p) := List.drop_take
  have hlength : ((file.drop p).take (n - p)).length = min (n - p) (file.drop p).length :=
    List.length_take
  have hlen : frameLen ((file.drop p).take (n - p)) = frameLen (file.drop p) := by
    rw [← frameLen_append (by omega) ((file.drop p).drop (n - p)), List.take_append_drop]
  have hcheck : checkFrame Z ((file.drop p).take (n - p)) (base + UInt64.ofNat p - 32) e =
      checkFrame Z (file.drop p) (base + UInt64.ofNat p - 32) e := by
    rw [← checkFrame_append (by rw [hlen, frameHead]; omega) ((file.drop p).drop (n - p)),
      List.take_append_drop]
  rw [← h, nextFrame, nextFrame]
  simp only [hrest, hcheck]

/-- The frames read up to a cut are read from the shortened file as well. -/
theorem chain_take {s t : Nat × UInt32} {frames : List ScannedFrame} {n : Nat}
    (h : Chain (nextFrame Z base file) s frames t) (hn : t.1 ≤ n) :
    Chain (nextFrame Z base (file.take n)) s frames t := by
  induction h with
  | nil s => exact .nil s
  | @cons s s' t f frames hnext htail ih =>
    -- the frames behind this one end in front of the cut, so it does as well
    have hle := htail.measure_le nextFrame_pos_lt
    exact .cons (nextFrame_take hnext (by omega)) (ih hn)

theorem HasHead.take (h : HasHead Z file base) {n : Nat} (hn : 32 ≤ n) :
    HasHead Z (file.take n) base where
  len_le := by
    have hlen := h.len_le
    rw [List.length_take]
    omega
  valid := by
    obtain ⟨wall, hwall⟩ := h.valid
    exact ⟨wall, by rw [List.take_take, Nat.min_eq_left hn, hwall]⟩
  base_ne := h.base_ne

/-- A header whose base offset is not read as 0 is valid. -/
theorem hasHead_of_readSegment32 (h : readSegment32 Z file .full ≠ 0) :
    HasHead Z file (readSegment32 Z file .full) := by
  have hread : pread file 32 0 .full = some (file.take 32) := by
    rw [pread, List.drop_zero]
  -- every failure of the read or of the check returns 0
  unfold readSegment32 at h ⊢
  simp only [hread] at h ⊢
  split at h
  · exact absurd rfl h
  · rename_i hlen
    rw [if_neg hlen]
    rw [not_not, List.length_take] at hlen
    split at h
    · exact absurd rfl h
    · rename_i base wall hvalid
      exact ⟨by omega, ⟨wall, hvalid⟩, h⟩

end Cut

/-! ## The repair -/

section Repair

variable {Z : Zlib} {file : List UInt8}

/-- A scan that ends torn read the header. -/
theorem hasHead_of_torn {r : SegmentRecovery}
    (h : (r.segmentScanner Z file {}).1.kind = .tornTail) :
    HasHead Z file (readSegment32 Z file .full) := by
  apply hasHead_of_readSegment32
  intro hzero
  simp only [SegmentRecovery.segmentScanner, hzero, Bool.true_eq_false, if_false, if_true] at h
  cases h

/-- A chain has a first frame exactly where `check_frame` accepts what stands behind the
header. -/
theorem nextFrame_start_iff {base : UInt64} :
    nextFrame Z base file (32, 0) = none ↔
      ¬ (checkFrame Z (file.drop 32) base 0).kind = .valid := by
  have hexpected : base + UInt64.ofNat 32 - 32 = base := UInt64.add_sub_cancel base 32
  rw [nextFrame_eq_none_iff, hexpected, checkFrame_valid_iff]

/-- A file cut at the end of a nonempty chain is clean, with that end and its epoch. -/
theorem segmentScanner_take {base : UInt64} (hhead : HasHead Z file base)
    {frames : List ScannedFrame} (hne : frames ≠ []) {n : Nat} {e : UInt32} (hn : n ≤ file.length)
    (hchain : Chain (nextFrame Z base file) (32, 0) frames (n, e)) (inteval : ℕ+)
    (buf : List UInt8) :
    let r := ((SegmentRecovery.fresh inteval buf).segmentScanner Z (file.take n) {}).1
    r.kind = .clean ∧ r.vaildEnd = n ∧ r.lastEpoch = e := by
  have hlength : (file.take n).length = n := List.length_take_of_le hn
  have hscan := segmentScanner_result (hhead.take (chain_start_le hchain)) inteval buf
  have hcut : Chain (nextFrame Z base (file.take n)) (32, 0) frames ((file.take n).length, e) := by
    rw [hlength]
    exact chain_take hchain le_rfl
  have hclean := hscan.clean_of_chain hne hcut
  rw [hlength] at hclean
  exact hclean

/-- The scan of a bare header is never clean. -/
theorem segmentScanner_bare {base : UInt64} (hhead : HasHead Z file base)
    (hlen : file.length = 32) (inteval : ℕ+) (buf : List UInt8) :
    ((SegmentRecovery.fresh inteval buf).segmentScanner Z file {}).1.kind ≠ .clean := by
  have hscan := segmentScanner_result hhead inteval buf
  intro hclean
  cases hscan with
  | clean frames _ hne _ hchain =>
    -- a frame would have to lie inside the header
    have hle := hchain.measure_le nextFrame_pos_lt
    have hpos := List.length_pos_iff.mpr hne
    omega
  | torn _ hkind => rw [hkind] at hclean; cases hclean
  | corrupt _ _ _ hkind => rw [hkind] at hclean; cases hclean

/-- After a scan that ends torn, cutting the file at `vaild_end` repairs it (the shortened
file is clean with the same end and last epoch, and cutting and scanning again changes
nothing) exactly when the file holds a frame behind its header that `check_frame` accepts. -/
theorem segmentScanner_repaired_iff {inteval : ℕ+} {buf : List UInt8}
    (htorn : ((SegmentRecovery.fresh inteval buf).segmentScanner Z file {}).1.kind = .tornTail) :
    Repaired Z file ((SegmentRecovery.fresh inteval buf).segmentScanner Z file {}).1 ↔
      (checkFrame Z (file.drop 32) (readSegment32 Z file .full) 0).kind = .valid := by
  have hhead := hasHead_of_torn htorn
  generalize readSegment32 Z file .full = base at hhead
  -- the scan ended at the end of the chain of accepted frames
  have hres := segmentScanner_result hhead inteval buf
  generalize ((SegmentRecovery.fresh inteval buf).segmentScanner Z file {}).1 = r at htorn hres
  cases hres with
  | clean _ hkind => rw [hkind] at htorn; cases htorn
  | corrupt _ _ _ hkind => rw [hkind] at htorn; cases htorn
  | torn frames _ hchain hstuck htail hleft =>
    by_cases hne : frames = []
    · -- no frame was accepted, so the cut leaves the bare header
      subst hne
      obtain ⟨hend, hepoch⟩ := Prod.mk.inj hchain.eq_of_nil
      rw [← hend, ← hepoch] at hstuck
      refine iff_of_false (fun hrepaired => ?_) (nextFrame_start_iff.mp hstuck)
      have hlength : (file.take 32).length = 32 := List.length_take_of_le hhead.len_le
      have hclean := (hrepaired.clean 1 []).1
      rw [← hend, SegmentRecovery.turncateSegment, ftruncate_of_le hhead.len_le] at hclean
      exact segmentScanner_bare (hhead.take le_rfl) hlength 1 [] hclean
    · -- the chain is not empty, and the cut is at its end
      have hlt := hleft.resolve_left hne
      have hcut : SegmentRecovery.turncateSegment file r.vaildEnd true = file.take r.vaildEnd :=
        ftruncate_of_le hlt.le
      have hlength : (file.take r.vaildEnd).length = r.vaildEnd := List.length_take_of_le hlt.le
      have hclean := segmentScanner_take hhead hne hlt.le hchain
      refine iff_of_true ⟨?_, ?_⟩ ?_
      · rw [hcut]
        exact hclean
      · rw [hcut]
        intro inteval' buf'
        obtain ⟨-, hend, -⟩ := hclean inteval' buf'
        simp only [hend]
        rw [SegmentRecovery.turncateSegment, ftruncate_of_le hlength.ge, List.take_take,
          Nat.min_self]
      · by_contra hinvalid
        exact hchain.next_ne_none hne (nextFrame_start_iff.mpr hinvalid)

/-- A segment of one frame with a part of a frame header behind it. -/
theorem segmentScanner_repaired_torn :
    let file := writeSegheadBg zlib 1 1000 0 ++ encodeFrame zlib 1000 1 [0x41] ++ [0, 0, 0]
    let r := ((SegmentRecovery.fresh 4 []).segmentScanner zlib file {}).1
    Repaired zlib file r ↔
      (checkFrame zlib (file.drop 32) (readSegment32 zlib file .full) 0).kind = .valid :=
  segmentScanner_repaired_iff (by decide +kernel)

/-- A header and part of a frame header: torn at 32, and still torn after the cut. -/
theorem segmentScanner_not_repaired :
    let file := writeSegheadBg zlib 1 1000 0 ++ [0, 0, 0]
    let r := ((SegmentRecovery.fresh 4 []).segmentScanner zlib file {}).1
    r.kind = .tornTail ∧ r.vaildEnd = 32 ∧ ¬ Repaired zlib file r := by
  refine ⟨by decide +kernel, by decide +kernel, fun h => ?_⟩
  exact absurd (h.clean 4 []).1 (by decide +kernel)

end Repair

end ServiceInfra
