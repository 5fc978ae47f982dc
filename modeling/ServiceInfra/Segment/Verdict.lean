import ServiceInfra.Segment.ScanChain

/-!
# The verdicts of the scanner and of check_frame

The scanner makes some of the tests of `check_frame` itself, before it calls it: the limit
of the length, and whether the frame is complete. `check_frame` looks at the epoch between
these two. So a frame that is cut off and goes back behind the epoch in front of it is
corrupt to `check_frame`, and a torn tail to the scanner.

Main results:
- `turnVerdict_eq`: the verdict of a turn, test by test
- `turnVerdict_iff`: when the two verdicts are the same
-/

namespace ServiceInfra

open Library
open Net (messagemaxlen)

/-- What is said of the bytes at a position. -/
inductive Verdict where
  | valid
  | torn
  | corrupt (at_ : CorruptAt)
  deriving DecidableEq, Repr

/-- The verdict of `check_frame`. -/
def Framecheck.verdict (check : Framecheck) : Verdict :=
  match check.kind with
  | .valid => .valid
  | .torn => .torn
  | .corrupt => .corrupt check.corruptAt

/-- The verdict of a turn of the scan: it goes on or ends clean behind a valid frame. -/
def turnVerdict : ScanState ⊕ (ScanEnd × SegmentRecovery) → Option Verdict
  | .inl _ => some .valid
  | .inr (ans, _) =>
      match ans.kind with
      | .clean => some .valid
      | .tornTail => some .torn
      | .corrupt => some (.corrupt ans.corruptAt)
      | .headBad => none

section Verdicts

variable {Z : Zlib} {file : List UInt8} {base : UInt64} {s : ScanState}

/-- The order of `check_frame`: length, epoch, completeness, and then the rest. -/
theorem checkFrame_verdict_incomplete {rest : List UInt8} {off : UInt64} {prev : UInt32}
    (hlen : frameLen rest ≤ messagemaxlen) (hcut : rest.length < 20 + (frameLen rest).toNat) :
    (checkFrame Z rest off prev).verdict =
      if frameEpoch rest < prev then .corrupt .atEpoch else .torn := by
  have hshort : rest.length < (frameLen rest).toNat + frameHead := by
    rw [frameHead]
    omega
  rw [checkFrame, if_neg (UInt32.not_lt.mpr hlen)]
  simp only [if_pos hshort]
  split <;> rfl

/-- The order of the scanner, where a frame header is left: length, completeness, and then
`check_frame`. -/
theorem turnVerdict_eq (h20 : 20 ≤ (s.rest file).length) :
    turnVerdict (scanTurn Z file base (fun _ => .full) s) =
      some (if frameLen (s.rest file) ≤ messagemaxlen ∧
          (s.rest file).length < 20 + (frameLen (s.rest file)).toNat then .torn
        else (checkFrame Z (s.rest file) (s.expected base) s.prevEpoch).verdict) := by
  have hseen : seenLen s.buf (s.rest file) = frameLen (s.rest file) :=
    seenLen_eq_frameLen (by omega) _
  rw [scanTurn_full]
  simp only [hseen]
  by_cases hbig : messagemaxlen < frameLen (s.rest file)
  · -- both test the limit first
    rw [if_pos hbig, if_neg fun h => absurd h.1 (UInt32.not_le.mpr hbig), checkFrame, if_pos hbig]
    rfl
  · rw [if_neg hbig]
    by_cases hcut : (s.rest file).length < 20 + (frameLen (s.rest file)).toNat
    · rw [if_pos (.inr hcut), if_pos ⟨UInt32.not_lt.mp hbig, hcut⟩]
      rfl
    · have hlong : ¬ ((s.rest file).length < 20 ∨
          (s.rest file).length < 20 + (frameLen (s.rest file)).toNat) := by omega
      have hwhole : ¬ (frameLen (s.rest file) ≤ messagemaxlen ∧
          (s.rest file).length < 20 + (frameLen (s.rest file)).toNat) := fun h => hcut h.2
      rw [if_neg hlong, if_neg hwhole]
      -- what is left to the call is taken over
      unfold Framecheck.verdict
      cases hkind : (checkFrame Z (s.rest file) (s.expected base) s.prevEpoch).kind with
      | corrupt => rfl
      | torn => rfl
      | valid =>
        simp only
        split <;> rfl

/-- At every position that a scan reaches with a frame header left, behind a chain of valid
frames, its verdict is that of `check_frame` on all that is left, exactly when the frame
there is not at the same time cut off and behind the epoch in front of it. -/
theorem turnVerdict_iff {inteval : ℕ+} {buf : List UInt8}
    (hs : (scanLoop Z file base fun _ => .full).Reaches (scanStart inteval buf) s)
    (h20 : 20 ≤ (s.rest file).length) :
    (∃ frames, Chain (nextFrame Z base file) (32, 0) frames (s.offset, s.prevEpoch)) ∧
      (turnVerdict (scanTurn Z file base (fun _ => .full) s) =
          some (checkFrame Z (s.rest file) (base + UInt64.ofNat s.offset - 32)
            s.prevEpoch).verdict ↔
        ¬ (frameLen (s.rest file) ≤ messagemaxlen ∧ frameEpoch (s.rest file) < s.prevEpoch ∧
          (s.rest file).length < 20 + (frameLen (s.rest file)).toNat)) := by
  have hinv : ScanInv Z file base s := by
    refine hs.invariant (fun s s' h hturn => ?_) (scanInv_start inteval buf)
    rcases h.turn with ⟨t, ht, hinv⟩ | ⟨ans, r, hend, -⟩
    · cases ht.symm.trans hturn
      exact hinv
    · cases hend.symm.trans hturn
  refine ⟨hinv.chain.imp fun _ h => h.1, ?_⟩
  rw [turnVerdict_eq h20, Option.some_inj, ← ScanState.expected]
  by_cases hcut : frameLen (s.rest file) ≤ messagemaxlen ∧
      (s.rest file).length < 20 + (frameLen (s.rest file)).toNat
  · -- torn to the scanner; to `check_frame` only where the epoch does not go back
    rw [if_pos hcut, checkFrame_verdict_incomplete hcut.1 hcut.2]
    by_cases hepoch : frameEpoch (s.rest file) < s.prevEpoch
    · rw [if_pos hepoch]
      exact iff_of_false nofun fun hnot => hnot ⟨hcut.1, hepoch, hcut.2⟩
    · rw [if_neg hepoch]
      exact iff_of_true rfl fun h => hepoch h.2.1
  · rw [if_neg hcut]
    exact iff_of_true rfl fun h => hcut ⟨h.1, h.2.2⟩

theorem turnVerdict_iff_first :
    let file := writeSegheadBg zlib 1 1000 0 ++ encodeFrame zlib 1000 1 [0x41]
    let s := scanStart 4 []
    turnVerdict (scanTurn zlib file 1000 (fun _ => .full) s) =
        some (checkFrame zlib (s.rest file) (1000 + UInt64.ofNat s.offset - 32)
          s.prevEpoch).verdict ↔
      ¬ (frameLen (s.rest file) ≤ messagemaxlen ∧ frameEpoch (s.rest file) < s.prevEpoch ∧
        (s.rest file).length < 20 + (frameLen (s.rest file)).toNat) :=
  (turnVerdict_iff .refl (by decide)).2

/-- Behind a frame of epoch 2, the header of a frame of epoch 1 whose payload is missing. -/
theorem turnVerdict_wrong :
    let file := writeSegheadBg zlib 1 1000 0 ++
      (encodeFrame zlib 1000 2 [0x41] ++ writeFrameBg zlib 1021 1 [0x42])
    let r := ((SegmentRecovery.fresh 4 []).segmentScanner zlib file {}).1
    nextFrame zlib 1000 file (32, 0) = some (⟨32, 1, 2⟩, (53, 2)) ∧
      r.kind = .tornTail ∧ r.vaildEnd = 53 ∧ 20 ≤ (file.drop 53).length ∧
      (checkFrame zlib (file.drop 53) (1000 + 53 - 32) 2).verdict = .corrupt .atEpoch := by
  decide +kernel

end Verdicts

end ServiceInfra
