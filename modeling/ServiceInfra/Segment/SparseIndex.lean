import ServiceInfra.Library.BinarySearch
import ServiceInfra.Net.Connection
import ServiceInfra.Segment.ScanChain

/-!
# The sparse index

The scan records an anchor, the offset of a frame, every so many frames or bytes, and
`find_idx` looks up the last anchor at or below an offset. The lookup is a binary search
that keeps its candidate in an `int`: an anchor that is no `int` comes back as another
number, unless the search meets it.

Main results:
- `findIdx_iff`: when a lookup returns the greatest anchor at or below its target
- `anchors_placed`: where a scan records its anchors
-/

namespace ServiceInfra

open Library
open Net (toInt)

/-! ## Lookup -/

namespace SegmentRecovery

/-- `server_idx`. -/
def serverIdx (r : SegmentRecovery) (offset : UInt64) : SegmentRecovery :=
  { r with idx := r.idx ++ [offset] }

/-- `result_idx=idx[medium]`. -/
def resultIdx (anchor : UInt64) : Int := toInt anchor.toNat

/-- The loop of `find_idx`. -/
def findLoop (r : SegmentRecovery) (idx_ : UInt64) :
    Loop (BinarySearch.State Int) (UInt64 ⊕ Int) :=
  BinarySearch.search r.idx idx_ resultIdx

/-- `int left=0; int right=idx.size()-1; int result_idx=-1;`. -/
def findStart (r : SegmentRecovery) : BinarySearch.State Int :=
  ⟨0, toInt (r.idx.length - 1), -1⟩

/-- `find_idx`. -/
def findIdx (r : SegmentRecovery) (idx_ : UInt64) : UInt64 :=
  if r.idx = [] then 0
  else
    match (r.findLoop idx_).exec r.findStart with
    | .inl anchor => anchor
    | .inr result => if result ≠ -1 then UInt64.ofInt result else 0

theorem idx_foldl_serverIdx (r : SegmentRecovery) (anchors : List UInt64) :
    (anchors.foldl serverIdx r).idx = r.idx ++ anchors := by
  induction anchors generalizing r with
  | nil => exact (List.append_nil _).symm
  | cons a anchors ih =>
    rw [List.foldl_cons, ih, serverIdx, List.append_assoc, List.singleton_append]

/-- A fresh object behind the calls of `server_idx` that stored the anchors. -/
def indexed (inteval : ℕ+) (buf : List UInt8) (anchors : List UInt64) : SegmentRecovery :=
  anchors.foldl serverIdx (fresh inteval buf)

theorem indexed_idx (inteval : ℕ+) (buf : List UInt8) (anchors : List UInt64) :
    (indexed inteval buf anchors).idx = anchors :=
  idx_foldl_serverIdx _ anchors

end SegmentRecovery

open SegmentRecovery (indexed resultIdx)

/-- What a lookup is for: the greatest anchor at or below the target, 0 when there is none. -/
def IsFloor (anchors : List UInt64) (target result : UInt64) : Prop :=
  IsGreatest { a | a ∈ anchors ∧ a ≤ target } result ∨
    (∀ a ∈ anchors, target < a) ∧ result = 0

/-- The value survives the way through an `int` and back. -/
def FitsInt (anchor : UInt64) : Prop :=
  anchor.toNat < 2 ^ 31 ∨ 2 ^ 64 - 2 ^ 31 ≤ anchor.toNat

/-- What comes back of a candidate that is not the highest value of all. -/
theorem ofInt_resultIdx_iff {g : UInt64} (hg : g.toNat < 2 ^ 64 - 1) :
    (if resultIdx g ≠ -1 then UInt64.ofInt (resultIdx g) else 0) = g ↔ FitsInt g := by
  have hvalue : ∀ x : Int, (UInt64.ofInt x).toNat = (x % 2 ^ 64).toNat := by
    intro x
    rw [UInt64.ofInt, UInt64.toNat_ofNat']
    exact Nat.mod_eq_of_lt (by omega)
  rw [← UInt64.toNat_inj, apply_ite UInt64.toNat, hvalue, UInt64.toNat_zero, resultIdx, toInt,
    Int.bmod_def, FitsInt]
  split <;> split <;> omega

section Floor

variable {anchors below above : List UInt64} {target : UInt64}

/-- A strictly increasing list is split at the target. -/
theorem split_at_target (hsorted : anchors.Pairwise (· < ·)) (target : UInt64) :
    ∃ below above, (∀ a ∈ below, a < target) ∧ (∀ a ∈ above, target < a) ∧
      (anchors = below ++ target :: above ∨ anchors = below ++ above) := by
  induction anchors with
  | nil => exact ⟨[], [], nofun, nofun, .inr rfl⟩
  | cons a anchors ih =>
    obtain ⟨hfirst, hrest⟩ := List.pairwise_cons.mp hsorted
    by_cases hlt : a < target
    · -- the first anchor goes in front of the split of the others
      obtain ⟨below, above, hbelow, habove, hsplit⟩ := ih hrest
      refine ⟨a :: below, above, List.forall_mem_cons.mpr ⟨hlt, hbelow⟩, habove, ?_⟩
      rcases hsplit with rfl | rfl
      · exact .inl rfl
      · exact .inr rfl
    · by_cases heq : a = target
      · subst heq
        exact ⟨[], anchors, nofun, hfirst, .inl rfl⟩
      · have hgt : target < a := UInt64.lt_of_le_of_ne (UInt64.not_lt.mp hlt) (Ne.symm heq)
        exact ⟨[], a :: anchors, nofun,
          List.forall_mem_cons.mpr ⟨hgt, fun b hb => UInt64.lt_trans hgt (hfirst b hb)⟩, .inr rfl⟩

/-- The greatest anchor at or below a target that is no anchor is the last one below it. -/
theorem isGreatest_getLast (hsorted : (below ++ above).Pairwise (· < ·))
    (hbelow : ∀ a ∈ below, a < target) (habove : ∀ a ∈ above, target < a) (g : UInt64) :
    IsGreatest { a | a ∈ below ++ above ∧ a ≤ target } g ↔ below.getLast? = some g := by
  have hmem : ∀ a, a ∈ below ++ above ∧ a ≤ target ↔ a ∈ below := by
    intro a
    refine ⟨fun ⟨ha, hle⟩ => ?_,
      fun ha => ⟨List.mem_append_left _ ha, UInt64.le_of_lt (hbelow a ha)⟩⟩
    rcases List.mem_append.mp ha with ha | ha
    · exact ha
    · exact absurd (habove a ha) (UInt64.not_lt.mpr hle)
  have hlast : ∀ l, below.getLast? = some l → ∀ a ∈ below, a ≤ l := by
    intro l hl a ha
    obtain ⟨front, rfl⟩ := List.getLast?_eq_some_iff.mp hl
    rcases List.mem_append.mp ha with ha | ha
    · have hpairs := (List.pairwise_append.mp (List.pairwise_append.mp hsorted).1).2.2
      exact UInt64.le_of_lt (hpairs a ha l List.mem_cons_self)
    · rw [List.mem_singleton.mp ha]
      exact UInt64.le_refl l
  constructor
  · rintro ⟨hg, hupper⟩
    have hgbelow := (hmem g).mp hg
    obtain ⟨l, hl⟩ := Option.ne_none_iff_exists'.mp
      (mt List.getLast?_eq_none_iff.mp (List.ne_nil_of_mem hgbelow))
    have hlmem : l ∈ below := List.mem_of_getLast? hl
    rw [hl, UInt64.le_antisymm (hupper ((hmem l).mpr hlmem)) (hlast l hl g hgbelow)]
  · intro hl
    exact ⟨(hmem g).mpr (List.mem_of_getLast? hl), fun a ha => hlast g hl a ((hmem a).mp ha)⟩

/-- With no anchor at the target, the floor is the last one below it, or 0. -/
theorem isFloor_iff_getLast (hsorted : (below ++ above).Pairwise (· < ·))
    (hbelow : ∀ a ∈ below, a < target) (habove : ∀ a ∈ above, target < a) (result : UInt64) :
    IsFloor (below ++ above) target result ↔ result = below.getLast?.getD 0 := by
  rw [IsFloor, isGreatest_getLast hsorted hbelow habove]
  cases hlast : below.getLast? with
  | none =>
    rw [List.getLast?_eq_none_iff.mp hlast, List.nil_append, Option.getD_none]
    refine ⟨?_, fun hzero => .inr ⟨habove, hzero⟩⟩
    rintro (hnone | ⟨-, hzero⟩)
    · cases hnone
    · exact hzero
  | some l =>
    rw [Option.getD_some]
    refine ⟨?_, fun heq => .inl (congrArg some heq.symm)⟩
    rintro (hsome | ⟨hall, -⟩)
    · exact (Option.some.inj hsome).symm
    · have hlmem : l ∈ below := List.mem_of_getLast? hlast
      exact absurd (hbelow l hlmem) (UInt64.lt_asymm (hall l (List.mem_append_left _ hlmem)))

end Floor

/-! ## What a lookup finds -/

section Lookup

variable {r : SegmentRecovery} {below above : List UInt64} {target : UInt64}

/-- The bounds of a search are not cut by `int`. -/
theorem findStart_eq (hlen : r.idx.length ≤ 2 ^ 31 - 1) :
    r.findStart = ⟨0, r.idx.length - 1, -1⟩ := by
  have hright : toInt (r.idx.length - 1) = (r.idx.length : Int) - 1 := by
    rw [toInt]
    exact Int.bmod_eq_of_le (by omega) (by omega)
  rw [SegmentRecovery.findStart, hright]

theorem findLoop_turns (hlen : r.idx.length ≤ 2 ^ 31 - 1) (target : UInt64) :
    ((r.findLoop target).turns (r.idx.length + 1) r.findStart).isSome = true := by
  refine Loop.turns_isSome _ ?_
  show (r.findStart.right - r.findStart.left + 1).toNat < r.idx.length + 1
  rw [findStart_eq hlen]
  simp only
  omega

/-- A target that is an anchor is met. -/
theorem findIdx_found (hidx : r.idx = below ++ target :: above) (hlen : r.idx.length ≤ 2 ^ 31 - 1)
    (hbelow : ∀ a ∈ below, a < target ∧ target ≠ a)
    (habove : ∀ a ∈ above, ¬ a < target ∧ target ≠ a) : r.findIdx target = target := by
  have hne : r.idx ≠ [] := by
    rw [hidx]
    exact List.append_ne_nil_of_right_ne_nil _ (List.cons_ne_nil _ _)
  rw [SegmentRecovery.findIdx, if_neg hne, findStart_eq hlen, SegmentRecovery.findLoop, hidx,
    BinarySearch.search_found hbelow habove]

/-- Otherwise the last anchor below it comes back, by way of an `int`, or 0. -/
theorem findIdx_missed (hidx : r.idx = below ++ above) (hlen : r.idx.length ≤ 2 ^ 31 - 1)
    (hbelow : ∀ a ∈ below, a < target ∧ target ≠ a)
    (habove : ∀ a ∈ above, ¬ a < target ∧ target ≠ a) :
    r.findIdx target = below.getLast?.elim 0 fun l =>
      if resultIdx l ≠ -1 then UInt64.ofInt (resultIdx l) else 0 := by
  by_cases hempty : r.idx = []
  · rw [SegmentRecovery.findIdx, if_pos hempty]
    rw [hidx, List.append_eq_nil_iff] at hempty
    rw [hempty.1]
    rfl
  · rw [SegmentRecovery.findIdx, if_neg hempty, findStart_eq hlen, SegmentRecovery.findLoop, hidx,
      BinarySearch.search_missed hbelow habove]
    cases below.getLast? with
    | none => rfl
    | some l => rw [Option.map_some, Option.getD_some, Option.elim_some]

end Lookup

/-- Every lookup in strictly increasing anchors leaves its loop, and returns the greatest
anchor at or below the target, or 0 when there is none, exactly when the target is itself
an anchor or that greatest anchor fits an `int`. -/
theorem findIdx_iff {anchors : List UInt64} (hsorted : anchors.Pairwise (· < ·))
    (hlen : anchors.length ≤ 2 ^ 31 - 1) (target : UInt64) (inteval : ℕ+) (buf : List UInt8) :
    (((indexed inteval buf anchors).findLoop target).turns (anchors.length + 1)
        (indexed inteval buf anchors).findStart).isSome = true ∧
      (IsFloor anchors target ((indexed inteval buf anchors).findIdx target) ↔
        target ∈ anchors ∨
          ∀ g, IsGreatest { a | a ∈ anchors ∧ a ≤ target } g → FitsInt g) := by
  have hidx := SegmentRecovery.indexed_idx inteval buf anchors
  generalize indexed inteval buf anchors = r at hidx ⊢
  rw [← hidx] at hlen
  have hturns := findLoop_turns hlen target
  rw [hidx] at hturns
  refine ⟨hturns, ?_⟩
  obtain ⟨below, above, hbelow, habove, hsplit⟩ := split_at_target hsorted target
  have hbelow' : ∀ a ∈ below, a < target ∧ target ≠ a := fun a ha =>
    ⟨hbelow a ha, (UInt64.ne_of_lt (hbelow a ha)).symm⟩
  have habove' : ∀ a ∈ above, ¬ a < target ∧ target ≠ a := fun a ha =>
    ⟨UInt64.lt_asymm (habove a ha), UInt64.ne_of_lt (habove a ha)⟩
  rcases hsplit with rfl | rfl
  · -- the search meets the target
    have hmem : target ∈ below ++ target :: above :=
      List.mem_append_right _ List.mem_cons_self
    rw [findIdx_found hidx hlen hbelow' habove']
    exact iff_of_true (.inl ⟨⟨hmem, UInt64.le_refl _⟩, fun a ha => ha.2⟩) (.inl hmem)
  · have hnot : target ∉ below ++ above := by
      intro hmem
      rcases List.mem_append.mp hmem with hmem | hmem
      · exact (hbelow' target hmem).2 rfl
      · exact (habove' target hmem).2 rfl
    have hgreatest := isGreatest_getLast hsorted hbelow habove
    rw [isFloor_iff_getLast hsorted hbelow habove, findIdx_missed hidx hlen hbelow' habove']
    simp only [hgreatest, hnot, false_or]
    cases hlast : below.getLast? with
    | none =>
      -- there is no anchor at or below the target
      exact iff_of_true rfl nofun
    | some l =>
      -- the search ends with the last anchor below the target as its candidate
      have hlt : l.toNat < 2 ^ 64 - 1 := by
        have h1 := UInt64.lt_iff_toNat_lt.mp (hbelow l (List.mem_of_getLast? hlast))
        have h2 := target.toNat_lt
        omega
      rw [Option.elim_some, Option.getD_some, ofInt_resultIdx_iff hlt]
      refine ⟨fun hfits g hg => ?_, fun hfits => hfits l rfl⟩
      rwa [← Option.some.inj hg]

theorem findIdx_iff_two :
    IsFloor [100, 5000000000] 700 ((indexed 1 [] [100, 5000000000]).findIdx 700) ↔
      700 ∈ ([100, 5000000000] : List UInt64) ∨
        ∀ g, IsGreatest { a | a ∈ ([100, 5000000000] : List UInt64) ∧ a ≤ 700 } g → FitsInt g :=
  (findIdx_iff (by decide) (by decide) 700 1 []).2

/-- An anchor above the range of `int`, and a target behind it. -/
theorem findIdx_wrong :
    (indexed 1 [] [100, 5000000000]).findIdx 5000000001 = 705032704 ∧
      ¬ IsFloor [100, 5000000000] 5000000001 705032704 := by
  refine ⟨by decide +kernel, ?_⟩
  rintro (⟨⟨hmem, -⟩, -⟩ | ⟨-, hzero⟩)
  · exact absurd hmem (by decide)
  · exact absurd hzero (by decide)

/-! ## Placement -/

/-- The bytes of frames. -/
def scannedBytes (frames : List ScannedFrame) : Nat := (frames.map fun f => 20 + f.len.toNat).sum

/-- The offset that an anchor at a frame records. -/
def anchorOf (base : UInt64) (f : ScannedFrame) : UInt64 := base + (UInt64.ofNat f.pos - 32)

/-- Frames in a row without an anchor are fewer than the interval, and less than 64 KiB. -/
def Unanchored (inteval : ℕ+) (frames : List ScannedFrame) : Prop :=
  frames.length < inteval ∧ scannedBytes frames < 65536

/-- A frame behind a row of frames without an anchor completes the interval, or the 64 KiB. -/
def Due (inteval : ℕ+) (gap : List ScannedFrame) (f : ScannedFrame) : Prop :=
  gap.length + 1 = inteval ∨ 65536 ≤ scannedBytes (gap ++ [f])

/-- The frames of gaps and the anchored frames behind them, in order. -/
def laidOut (groups : List (List ScannedFrame × ScannedFrame)) : List ScannedFrame :=
  groups.flatMap fun g => g.1 ++ [g.2]

/-- The anchors `idx` are those of the frames, and as dense as they have to be: the frames
are gaps, each with the anchored frame behind it, and a last gap. -/
def PlacedAnchors (inteval : ℕ+) (base : UInt64) (idx : List UInt64)
    (groups : List (List ScannedFrame × ScannedFrame)) (tail : List ScannedFrame) : Prop :=
  idx = groups.map (fun g => anchorOf base g.2) ∧
    (∀ g ∈ groups, Unanchored inteval g.1 ∧ Due inteval g.1 g.2) ∧ Unanchored inteval tail

theorem scannedBytes_append (frames : List ScannedFrame) (f : ScannedFrame) :
    scannedBytes (frames ++ [f]) = scannedBytes frames + (20 + f.len.toNat) := by
  rw [scannedBytes, List.map_append, List.sum_append, List.map_singleton, List.sum_singleton,
    scannedBytes]

/-- The anchored frames are some of the frames. -/
theorem sublist_laidOut (groups : List (List ScannedFrame × ScannedFrame))
    (tail : List ScannedFrame) : (groups.map Prod.snd).Sublist (laidOut groups ++ tail) := by
  refine List.Sublist.trans ?_ (List.sublist_append_left _ _)
  induction groups with
  | nil => exact List.Sublist.refl _
  | cons g groups ih =>
    rw [laidOut, List.flatMap_cons, List.append_assoc]
    exact List.Sublist.trans (ih.cons_cons g.2) (List.sublist_append_right _ _)

section Placement

variable {Z : Zlib} {file : List UInt8} {base : UInt64} {s : ScanState}

/-- The frames of a chain stand one behind the other, inside the file. -/
theorem chain_positions {t u : Nat × UInt32} {frames : List ScannedFrame}
    (h : Chain (nextFrame Z base file) t frames u) :
    (∀ f ∈ frames, t.1 ≤ f.pos ∧ f.pos < file.length) ∧
      frames.Pairwise fun f g => f.pos < g.pos := by
  induction h with
  | nil t => exact ⟨nofun, .nil⟩
  | @cons t t' u f frames hnext _ ih =>
    obtain ⟨hmem, hpairs⟩ := ih
    have hlt := nextFrame_pos_lt _ _ _ hnext
    obtain ⟨ha, hf, -⟩ := nextFrame_eq_some hnext
    have hpos : f.pos = t.1 := by rw [hf]
    have hcomplete := ha.complete
    rw [List.length_drop, frameHead] at hcomplete
    refine ⟨List.forall_mem_cons.mpr ⟨⟨hpos.ge, by omega⟩, fun g hg => ?_⟩,
      List.pairwise_cons.mpr ⟨fun g hg => ?_, hpairs⟩⟩
    · have hg' := hmem g hg
      omega
    · have hg' := hmem g hg
      omega

/-- A turn that leaves at no accepted frame records nothing. -/
theorem scanTurn_rejected_idx
    (h : ¬ FrameAccepted Z (s.rest file) (s.expected base) s.prevEpoch) {ans : ScanEnd}
    {r : SegmentRecovery} (hturn : scanTurn Z file base (fun _ => .full) s = .inr (ans, r)) :
    r.idx = s.idx := by
  rw [scanTurn_full] at hturn
  simp only at hturn
  split at hturn
  · cases hturn
    rfl
  · split at hturn
    · cases hturn
      rfl
    · split at hturn
      · cases hturn
        rfl
      · cases hturn
        rfl
      · rename_i hvalid
        exact absurd (checkFrame_valid_iff.mp hvalid) h

/-- The loop invariant: the two counters are those of the last gap. -/
structure AnchorInv (Z : Zlib) (file : List UInt8) (base : UInt64) (inteval : ℕ+)
    (groups : List (List ScannedFrame × ScannedFrame)) (tail : List ScannedFrame)
    (s : ScanState) : Prop where
  chain : Chain (nextFrame Z base file) (32, 0) (laidOut groups ++ tail) (s.offset, s.prevEpoch)
  placed : PlacedAnchors inteval base s.idx groups tail
  inteval_eq : s.inteval = inteval
  times_eq : s.times = tail.length
  byteSince_eq : s.byteSince = scannedBytes tail

theorem anchorInv_start (inteval : ℕ+) (buf : List UInt8) :
    AnchorInv Z file base inteval [] [] (scanStart inteval buf) where
  chain := .nil _
  placed := ⟨rfl, nofun, inteval.pos, by decide⟩
  inteval_eq := rfl
  times_eq := rfl
  byteSince_eq := rfl

/-- An accepted frame is added to the last gap, or closes it. -/
theorem AnchorInv.moved {inteval : ℕ+} {groups : List (List ScannedFrame × ScannedFrame)}
    {tail : List ScannedFrame} (h : AnchorInv Z file base inteval groups tail s)
    (ha : FrameAccepted Z (s.rest file) (s.expected base) s.prevEpoch) :
    ∃ groups tail, AnchorInv Z file base inteval groups tail (s.moved file base) := by
  let f : ScannedFrame := ⟨s.offset, frameLen (s.rest file), frameEpoch (s.rest file)⟩
  have hchain : Chain (nextFrame Z base file) (32, 0) ((laidOut groups ++ tail) ++ [f])
      ((s.moved file base).offset, (s.moved file base).prevEpoch) :=
    h.chain.snoc (nextFrame_of_accepted ha)
  obtain ⟨hidx, hgroups, hshort, hsmall⟩ := h.placed
  have htimes := h.times_eq
  have hbytes : scannedBytes (tail ++ [f]) =
      s.byteSince + (20 + (frameLen (s.rest file)).toNat) := by
    rw [scannedBytes_append, h.byteSince_eq]
  -- the test of the source is that of the interval or the bytes
  have hmod : (s.times + 1) % s.inteval = 0 ↔ tail.length + 1 = inteval := by
    rw [h.inteval_eq, htimes]
    constructor
    · intro hzero
      by_contra hne
      rw [Nat.mod_eq_of_lt (by omega)] at hzero
      omega
    · intro heq
      rw [heq, Nat.mod_self]
  by_cases hdue : (s.times + 1) % s.inteval = 0 ∨
      1024 * 64 ≤ s.byteSince + (20 + (frameLen (s.rest file)).toNat)
  · refine ⟨groups ++ [(tail, f)], [], ?_, ⟨?_, ?_, ?_, ?_⟩, h.inteval_eq, ?_, ?_⟩
    · rw [laidOut, List.flatMap_append, List.flatMap_singleton, List.append_nil, ← laidOut,
        ← List.append_assoc]
      exact hchain
    · rw [List.map_append, ← hidx]
      exact if_pos hdue
    · refine List.forall_mem_append.mpr
        ⟨hgroups, List.forall_mem_singleton.mpr ⟨⟨hshort, hsmall⟩, ?_⟩⟩
      rcases hdue with hzero | hlarge
      · exact .inl (hmod.mp hzero)
      · exact .inr (hbytes ▸ hlarge)
    · exact Nat.zero_lt_of_lt hshort
    · exact Nat.zero_lt_of_lt hsmall
    · exact if_pos hdue
    · exact if_pos hdue
  · have hnot := hdue
    rw [not_or, hmod, Nat.not_le, ← hbytes] at hnot
    refine ⟨groups, tail ++ [f], ?_, ⟨?_, hgroups, ?_, hnot.2⟩, h.inteval_eq, ?_, ?_⟩
    · rw [← List.append_assoc]
      exact hchain
    · rw [← hidx]
      exact if_neg hdue
    · rw [List.length_append, List.length_singleton]
      omega
    · rw [List.length_append, List.length_singleton, ← htimes]
      exact if_neg hdue
    · rw [hbytes]
      exact if_neg hdue

/-- How the anchors stand when the scan has ended, where no frame is accepted any more. -/
def ScannedAnchors (Z : Zlib) (file : List UInt8) (base : UInt64) (inteval : ℕ+)
    (idx : List UInt64) : Prop :=
  ∃ groups tail t, Chain (nextFrame Z base file) (32, 0) (laidOut groups ++ tail) t ∧
    nextFrame Z base file t = none ∧ PlacedAnchors inteval base idx groups tail

/-- One turn keeps the invariant, or ends the scan with the anchors in their places. -/
theorem AnchorInv.turn {inteval : ℕ+} {groups : List (List ScannedFrame × ScannedFrame)}
    {tail : List ScannedFrame} (h : AnchorInv Z file base inteval groups tail s) :
    (∃ s', scanTurn Z file base (fun _ => .full) s = .inl s' ∧
        ∃ groups tail, AnchorInv Z file base inteval groups tail s') ∨
      ∃ r, scanTurn Z file base (fun _ => .full) s = .inr r ∧
        ScannedAnchors Z file base inteval r.2.idx := by
  by_cases ha : FrameAccepted Z (s.rest file) (s.expected base) s.prevEpoch
  · have hmoved := h.moved ha
    rw [scanTurn_accepted ha]
    split
    · -- the end of the file
      rename_i hend
      obtain ⟨groups, tail, hnext⟩ := hmoved
      refine .inr ⟨_, rfl, groups, tail, _, hnext.chain, ?_, hnext.placed⟩
      rw [hend]
      exact nextFrame_end _
    · exact .inl ⟨_, rfl, hmoved⟩
  · obtain ⟨ans, r, hturn, -⟩ := scanTurn_rejected ha
    refine .inr ⟨_, hturn, groups, tail, _, h.chain, nextFrame_eq_none_iff.mpr ha, ?_⟩
    rw [scanTurn_rejected_idx ha hturn]
    exact h.placed

/-- Anchors in the order of their frames increase strictly, as no offset wraps. -/
theorem PlacedAnchors.increasing {inteval : ℕ+} {idx : List UInt64}
    {groups : List (List ScannedFrame × ScannedFrame)} {tail : List ScannedFrame}
    {t : Nat × UInt32} (h : PlacedAnchors inteval base idx groups tail)
    (hbase : base.toNat + file.length < 2 ^ 64)
    (hchain : Chain (nextFrame Z base file) (32, 0) (laidOut groups ++ tail) t) :
    idx.Pairwise (· < ·) := by
  obtain ⟨hmem, hpairs⟩ := chain_positions hchain
  have hvalue : ∀ f ∈ laidOut groups ++ tail,
      (anchorOf base f).toNat = base.toNat + (f.pos - 32) := by
    intro f hf
    obtain ⟨hle, hlt⟩ := hmem f hf
    simp only at hle
    have hpos : (UInt64.ofNat f.pos).toNat = f.pos := by
      rw [UInt64.toNat_ofNat', Nat.mod_eq_of_lt (by omega)]
    have hsub : (UInt64.ofNat f.pos - 32).toNat = f.pos - 32 := by
      rw [UInt64.toNat_sub_of_le _ _ (UInt64.le_iff_toNat_le.mpr (by rw [hpos]; exact hle)), hpos]
      rfl
    rw [anchorOf, UInt64.toNat_add, hsub, Nat.mod_eq_of_lt (by omega)]
  have hsub := sublist_laidOut groups tail
  have hmap : groups.map (fun g => anchorOf base g.2) =
      (groups.map Prod.snd).map (anchorOf base) := by
    rw [List.map_map]
    rfl
  rw [h.1, hmap, List.pairwise_map]
  refine (hpairs.sublist hsub).imp_of_mem fun {f g} hf hg hlt => ?_
  have hle := (hmem f (hsub.subset hf)).1
  simp only at hle
  rw [UInt64.lt_iff_toNat_lt, hvalue f (hsub.subset hf), hvalue g (hsub.subset hg)]
  omega

/-- Over every file with a valid header of a nonzero base offset, the anchors that a scan
records increase strictly, and each is the offset of a frame of the scanned chain. In front
of the first, between two of them and behind the last stand fewer frames than the interval
without an anchor, of less than 64 KiB; and a frame has an anchor only where it completes
the interval, or the 64 KiB. -/
theorem anchors_placed (hhead : HasHead Z file base)
    (hbase : base.toNat + file.length < 2 ^ 64) (inteval : ℕ+) (buf : List UInt8) :
    let idx := ((SegmentRecovery.fresh inteval buf).segmentScanner Z file {}).2.idx
    idx.Pairwise (· < ·) ∧
      ∃ groups tail t, Chain (nextFrame Z base file) (32, 0) (laidOut groups ++ tail) t ∧
        nextFrame Z base file t = none ∧
        idx = groups.map (fun g => anchorOf base g.2) ∧
        (∀ g ∈ groups, Unanchored inteval g.1 ∧ Due inteval g.1 g.2) ∧ Unanchored inteval tail := by
  intro idx
  have hend : ScannedAnchors Z file base inteval idx := by
    simp only [idx, segmentScanner_eq hhead]
    refine Loop.exec_induction _
      (fun s => ∃ groups tail, AnchorInv Z file base inteval groups tail s)
      (fun r : ScanEnd × SegmentRecovery => ScannedAnchors Z file base inteval r.2.idx) ?_
      ⟨[], [], anchorInv_start inteval buf⟩
    rintro s ⟨groups, tail, h⟩
    exact h.turn
  obtain ⟨groups, tail, t, hchain, hstuck, hplaced⟩ := hend
  exact ⟨hplaced.increasing hbase hchain, groups, tail, t, hchain, hstuck, hplaced⟩

theorem anchors_placed_two :
    let file := writeSegheadBg zlib 1 1000 0 ++
      (encodeFrame zlib 1000 1 [0x41] ++ encodeFrame zlib 1021 1 [])
    ((SegmentRecovery.fresh 2 []).segmentScanner zlib file {}).2.idx.Pairwise (· < ·) :=
  (anchors_placed (HasHead.of_header rfl (compareMagicCrc_writeSegheadBg zlib 1000 0)
    (by decide) _) (by decide) 2 []).1

/-- Every second frame has an anchor. -/
example :
    let file := writeSegheadBg zlib 1 1000 0 ++
      (encodeFrame zlib 1000 1 [0x41] ++ encodeFrame zlib 1021 1 [])
    ((SegmentRecovery.fresh 2 []).segmentScanner zlib file {}).2.idx = [1021] := by
  decide +kernel

end Placement

end ServiceInfra
