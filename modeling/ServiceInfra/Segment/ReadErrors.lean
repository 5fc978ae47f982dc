import ServiceInfra.Segment.ScanChain

/-!
# Scanning with read errors

The scanner takes the number of bytes a `pread` returned for the number of bytes that are
left of the file. A read that fails or stops short inside a frame is therefore taken for a
torn tail, and the cut that this verdict allows removes a complete frame. `ReadsTold` is
the condition under which no verdict is wrong, on the file, the outcomes of the reads and
the buffer the scanner was made with.

Main results:
- `scanTurn_short`, `scanTurn_whole`: one turn whose read is short of the frame, or not
- `ScanReads.after_frames`: frames that are read whole are passed
- `segmentScanner_torn_iff`: a torn verdict is right exactly when `ReadsTold` holds
-/

namespace ServiceInfra

open Library
open Net (messagemaxlen messagemaxlen_toNat)

/-! ## Definitions -/

/-- The `i`-th read returns the `i`-th of these frames whole. -/
def WholeReads (file : List UInt8) (read : Nat → ReadOutcome) (frames : List ScannedFrame) : Prop :=
  ∀ i f, frames[i]? = some f → 20 + f.len.toNat ≤ (readAt file read i f.pos).length

/-- A buffer that agrees with the scanner's in its first 20 bytes once these frames were
read: it starts with the last of them. -/
def bufferAfter (file buf : List UInt8) (frames : List ScannedFrame) : List UInt8 :=
  match frames.getLast? with
  | some f => file.drop f.pos
  | none => buf

/-- A read of `bytes` at `p`, into a buffer that held `buf`, is told from the end of the
file: what is left there is no complete frame; or the length field that the scanner sees is
above the limit; or the read returned as many bytes as that field announces. -/
def ReadTold (file buf bytes : List UInt8) (p : Nat) : Prop :=
  IncompleteTail (file.drop p) ∨ messagemaxlen < seenLen buf bytes ∨
    20 + (seenLen buf bytes).toNat ≤ bytes.length

/-- The read behind every run of accepted frames that were read whole is told from the end
of the file. -/
def ReadsTold (Z : Zlib) (base : UInt64) (file buf : List UInt8) (read : Nat → ReadOutcome) :
    Prop :=
  ∀ frames p e, Chain (nextFrame Z base file) (32, 0) frames (p, e) →
    WholeReads file read frames →
    ReadTold file (bufferAfter file buf frames) (readAt file read frames.length p) p

/-! ## What a read returns -/

section Read

variable {file : List UInt8} {read : Nat → ReadOutcome}

/-- A read returns a part of the file from its offset on. -/
theorem readAt_append (file : List UInt8) (read : Nat → ReadOutcome) (i p : Nat) :
    ∃ rest, file.drop p = readAt file read i p ++ rest := by
  rw [readAt]
  cases read i with
  | full => exact ⟨_, (List.take_append_drop _ _).symm⟩
  | short k => exact ⟨_, (List.take_append_drop _ _).symm⟩
  | fail => exact ⟨file.drop p, rfl⟩

/-- The length field seen depends on the buffer only where the read stored nothing. -/
theorem seenLen_congr {buf buf' : List UInt8} (bytes : List UInt8)
    (h : ∀ i < 12, buf.getD i 0 = buf'.getD i 0) : seenLen buf bytes = seenLen buf' bytes := by
  refine readCrcBig_congr fun i hi => ?_
  have hsame := h (8 + i) (by omega)
  rw [List.getD_eq_getElem?_getD, List.getD_eq_getElem?_getD] at hsame ⊢
  rw [List.getElem?_drop, List.getElem?_drop, stored, stored]
  -- a byte that was read, or one of the buffer
  by_cases hread : 8 + i < bytes.length
  · rw [List.getElem?_append_left hread, List.getElem?_append_left hread]
  · have hle : bytes.length ≤ 8 + i := Nat.le_of_not_lt hread
    rw [List.getElem?_append_right hle, List.getElem?_append_right hle, List.getElem?_drop,
      List.getElem?_drop, Nat.add_sub_cancel' hle]
    exact hsame

end Read

/-! ## One turn -/

section Turn

variable {Z : Zlib} {file : List UInt8} {base : UInt64} {read : Nat → ReadOutcome}
  {s : ScanState}

/-- The state after a turn that passed the frame at the front of the rest. -/
def ScanState.passed (s : ScanState) (file : List UInt8) (base : UInt64)
    (read : Nat → ReadOutcome) : ScanState :=
  { s.afterGot file read with ans := { s.ans with corruptAt := .atLen } }.accept base
    (frameLen (s.rest file)).toNat
    { kind := .valid, epoch := frameEpoch (s.rest file), len := frameLen (s.rest file) }

variable (Z base)

/-- A length field above the limit is judged before the number of bytes. -/
theorem scanTurn_oversized (h : messagemaxlen < seenLen s.buf (s.got file read)) :
    ∃ ans r, scanTurn Z file base read s = .inr (ans, r) ∧ ans.kind = .corrupt := by
  rw [scanTurn_eq]
  exact ⟨_, _, if_pos h, rfl⟩

/-- A read that returns less than the frame ends the scan as torn. -/
theorem scanTurn_short (hlen : seenLen s.buf (s.got file read) ≤ messagemaxlen)
    (hshort : (s.got file read).length < 20 + (seenLen s.buf (s.got file read)).toNat) :
    ∃ ans r, scanTurn Z file base read s = .inr (ans, r) ∧ ans.kind = .tornTail ∧
      ans.vaildEnd = s.offset := by
  rw [scanTurn_eq]
  simp only [if_neg (UInt32.not_lt.mpr hlen), if_pos hshort]
  exact ⟨_, _, rfl, rfl, rfl⟩

/-- A read that returns the whole frame decides as `check_frame` does on the file. -/
theorem scanTurn_whole (hlen : seenLen s.buf (s.got file read) ≤ messagemaxlen)
    (hwhole : 20 + (seenLen s.buf (s.got file read)).toNat ≤ (s.got file read).length) :
    (FrameAccepted Z (s.rest file) (s.expected base) s.prevEpoch ∧
        scanTurn Z file base read s =
          if (s.passed file base read).offset = file.length then
            .inr ({ (s.passed file base read).ans with kind := .clean },
              (s.passed file base read).toSegmentRecovery)
          else .inl (s.passed file base read)) ∨
      ¬ FrameAccepted Z (s.rest file) (s.expected base) s.prevEpoch ∧
        ∃ ans r, scanTurn Z file base read s = .inr (ans, r) ∧ ans.kind = .corrupt := by
  obtain ⟨behind, hrest⟩ := readAt_append file read s.reads s.offset
  rw [show readAt file read s.reads s.offset = s.got file read from rfl] at hrest
  have hrest' : s.rest file = s.got file read ++ behind := hrest
  -- the length field was read, and what it announces as well
  have hseen : seenLen s.buf (s.got file read) = frameLen (s.got file read) :=
    seenLen_eq_frameLen (by omega) _
  have hframe : frameLen (s.rest file) = frameLen (s.got file read) := by
    rw [hrest', frameLen_append (by omega)]
  have hcomplete : (frameLen (s.got file read)).toNat + frameHead ≤ (s.got file read).length := by
    rw [← hseen, frameHead]
    omega
  have hcheck : checkFrame Z (s.got file read) (s.expected base) s.prevEpoch =
      checkFrame Z (s.rest file) (s.expected base) s.prevEpoch := by
    rw [hrest', checkFrame_append hcomplete]
  rw [scanTurn_eq]
  simp only [if_neg (UInt32.not_lt.mpr hlen), if_neg (Nat.not_lt.mpr hwhole), hcheck]
  by_cases ha : FrameAccepted Z (s.rest file) (s.expected base) s.prevEpoch
  · refine .inl ⟨ha, ?_⟩
    rw [ha.checkFrame_eq, hseen, ← hframe]
    rfl
  · have hvalid := fun hv => ha (checkFrame_valid_iff.mp hv)
    have htorn := @checkFrame_ne_torn Z _ (s.expected base) s.prevEpoch hcomplete
    rw [hcheck] at htorn
    refine .inr ⟨ha, ?_⟩
    split
    · exact ⟨_, _, rfl, rfl⟩
    · rename_i hk
      exact absurd hk htorn
    · rename_i hk
      exact absurd hk hvalid

end Turn

/-! ## The turns of a scan -/

section Scan

variable {Z : Zlib} {file buf : List UInt8} {base : UInt64} {read : Nat → ReadOutcome}
  {s : ScanState} {frames : List ScannedFrame}

/-- The loop invariant: the scan stands behind accepted frames that were read whole. -/
structure ScanReads (Z : Zlib) (base : UInt64) (file buf : List UInt8) (read : Nat → ReadOutcome)
    (frames : List ScannedFrame) (s : ScanState) : Prop where
  chain : Chain (nextFrame Z base file) (32, 0) frames (s.offset, s.prevEpoch)
  whole : WholeReads file read frames
  reads_eq : s.reads = frames.length
  buf_eq : ∀ i < 12, s.buf.getD i 0 = (bufferAfter file buf frames).getD i 0

theorem scanReads_start (Z : Zlib) (base : UInt64) (file buf : List UInt8)
    (read : Nat → ReadOutcome) (inteval : ℕ+) :
    ScanReads Z base file buf read [] (scanStart inteval buf) where
  chain := .nil _
  whole := by
    intro i f hf
    simp at hf
  reads_eq := rfl
  buf_eq := fun _ _ => rfl

/-- What a turn sees depends on the file, the outcomes and the buffer at the start alone. -/
theorem ScanReads.readTold_iff (h : ScanReads Z base file buf read frames s) :
    ReadTold file (bufferAfter file buf frames) (readAt file read frames.length s.offset)
        s.offset ↔ ReadTold file s.buf (s.got file read) s.offset := by
  have hseen : seenLen (bufferAfter file buf frames) (s.got file read) =
      seenLen s.buf (s.got file read) := (seenLen_congr _ h.buf_eq).symm
  rw [← h.reads_eq, ← ScanState.got, ReadTold, ReadTold, hseen]

/-- A turn that passes a frame adds it. -/
theorem ScanReads.passed (h : ScanReads Z base file buf read frames s)
    (hwhole : 20 + (seenLen s.buf (s.got file read)).toNat ≤ (s.got file read).length)
    (ha : FrameAccepted Z (s.rest file) (s.expected base) s.prevEpoch) :
    ScanReads Z base file buf read
      (frames ++ [⟨s.offset, frameLen (s.rest file), frameEpoch (s.rest file)⟩])
      (s.passed file base read) := by
  obtain ⟨behind, hrest⟩ := readAt_append file read s.reads s.offset
  rw [show readAt file read s.reads s.offset = s.got file read from rfl] at hrest
  have hseen : seenLen s.buf (s.got file read) = frameLen (s.rest file) := by
    rw [seenLen_eq_frameLen (by omega), ScanState.rest, hrest, frameLen_append (by omega)]
  refine ⟨h.chain.snoc (nextFrame_of_accepted ha), ?_, ?_, ?_⟩
  · -- the frames before, and the new one at the number of reads made
    intro i f hf
    rw [List.getElem?_append] at hf
    split at hf
    · exact h.whole i f hf
    · rename_i hi
      have hlast : i - frames.length = 0 := by
        by_contra hne
        rw [List.getElem?_eq_none (by simp only [List.length_singleton]; omega)] at hf
        cases hf
      rw [hlast] at hf
      cases hf
      have hnumber : i = s.reads := by
        rw [h.reads_eq]
        omega
      rw [hnumber]
      rw [hseen] at hwhole
      exact hwhole
  · rw [List.length_append, ← h.reads_eq]
    rfl
  · -- the read stored the first bytes of the frame
    intro i hi
    have hafter : bufferAfter file buf
        (frames ++ [⟨s.offset, frameLen (s.rest file), frameEpoch (s.rest file)⟩]) =
          s.rest file := by
      rw [bufferAfter, List.getLast?_concat]
      rfl
    have hread : i < (s.got file read).length := by omega
    rw [hafter, ScanState.rest, hrest, List.getD_eq_getElem?_getD, List.getD_eq_getElem?_getD,
      List.getElem?_append_left hread]
    show ((stored s.buf (s.got file read))[i]?).getD 0 = _
    rw [stored, List.getElem?_append_left hread]

/-- A scan whose reads meet the condition calls nothing torn that is a complete frame. -/
theorem ScanReads.torn (hread : ReadsTold Z base file buf read)
    (h : ScanReads Z base file buf read frames s) :
    ((scanLoop Z file base read).exec s).1.kind = .tornTail →
      IncompleteTail (file.drop ((scanLoop Z file base read).exec s).1.vaildEnd) := by
  refine Loop.exec_induction _ (fun s => ∃ frames, ScanReads Z base file buf read frames s)
    (fun r : ScanEnd × SegmentRecovery =>
      r.1.kind = .tornTail → IncompleteTail (file.drop r.1.vaildEnd)) ?_ ⟨frames, h⟩
  rintro s ⟨frames, h⟩
  -- by what the turn sees of the frame in front of it
  by_cases hbig : messagemaxlen < seenLen s.buf (s.got file read)
  · obtain ⟨ans, r, hturn, hkind⟩ := scanTurn_oversized Z base hbig
    exact .inr ⟨_, hturn, fun htorn => absurd (htorn.symm.trans hkind) (by decide)⟩
  · have hlen := UInt32.not_lt.mp hbig
    by_cases hshort : (s.got file read).length < 20 + (seenLen s.buf (s.got file read)).toNat
    · -- torn here, and the condition says that this is right
      obtain ⟨ans, r, hturn, -, hend⟩ := scanTurn_short Z base hlen hshort
      refine .inr ⟨_, hturn, fun _ => ?_⟩
      rw [hend]
      rcases h.readTold_iff.mp (hread frames _ _ h.chain h.whole) with htail | hbig' | hwhole
      · exact htail
      · exact absurd hbig' hbig
      · exact absurd hwhole (Nat.not_le.mpr hshort)
    · have hwhole := Nat.le_of_not_lt hshort
      rcases scanTurn_whole Z base hlen hwhole with
        ⟨ha, hturn⟩ | ⟨-, ans, r, hturn, hkind⟩
      · by_cases hend : (s.passed file base read).offset = file.length
        · rw [if_pos hend] at hturn
          exact .inr ⟨_, hturn, fun htorn => by cases htorn⟩
        · rw [if_neg hend] at hturn
          exact .inl ⟨_, hturn, _, h.passed hwhole ha⟩
      · exact .inr ⟨_, hturn, fun htorn => absurd (htorn.symm.trans hkind) (by decide)⟩

/-- The scan comes to where a run of accepted frames ends that are read whole, unless it
left at the end of the file. -/
theorem ScanReads.after_frames (h : ScanReads Z base file buf read frames s)
    {more : List ScannedFrame} {p : Nat} {e : UInt32}
    (hchain : Chain (nextFrame Z base file) (s.offset, s.prevEpoch) more (p, e))
    (hwhole : WholeReads file read (frames ++ more)) (hp : p = file.length → more = []) :
    ∃ s', (scanLoop Z file base read).exec s = (scanLoop Z file base read).exec s' ∧
      ScanReads Z base file buf read (frames ++ more) s' ∧ s'.offset = p := by
  -- one turn for each frame
  induction more generalizing s frames with
  | nil =>
    obtain ⟨hoffset, -⟩ := Prod.mk.inj hchain.eq_of_nil
    refine ⟨s, rfl, ?_, hoffset⟩
    rw [List.append_nil]
    exact h
  | cons f more ih =>
    obtain ⟨t, hnext, htail⟩ : ∃ t, nextFrame Z base file (s.offset, s.prevEpoch) = some (f, t) ∧
        Chain (nextFrame Z base file) t more (p, e) := by
      cases hchain with
      | cons hnext htail => exact ⟨_, hnext, htail⟩
    obtain ⟨ha, hf, ht⟩ := nextFrame_eq_some hnext
    -- its read returns it whole
    have hfirst : 20 + f.len.toNat ≤ (s.got file read).length := by
      have hat := hwhole frames.length f (by rw [List.getElem?_append_right le_rfl]; simp)
      rw [hf] at hat ⊢
      rw [ScanState.got, h.reads_eq]
      exact hat
    obtain ⟨behind, hrest⟩ := readAt_append file read s.reads s.offset
    rw [show readAt file read s.reads s.offset = s.got file read from rfl] at hrest
    have hseen : seenLen s.buf (s.got file read) = f.len := by
      rw [seenLen_eq_frameLen (by omega), hf]
      simp only [hrest]
      rw [frameLen_append (by omega)]
    have hlen : seenLen s.buf (s.got file read) ≤ messagemaxlen := by
      rw [hseen, hf]
      exact ha.len_le
    have hall : 20 + (seenLen s.buf (s.got file read)).toNat ≤ (s.got file read).length := by
      rw [hseen]
      exact hfirst
    rcases scanTurn_whole Z base hlen hall with ⟨-, hturn⟩ | ⟨hno, -⟩
    · have hstate : t = ((s.passed file base read).offset, (s.passed file base read).prevEpoch) :=
        ht
      have hmoved := h.passed hall ha
      have hpush : frames ++ f :: more =
          (frames ++ [⟨s.offset, frameLen (s.rest file), frameEpoch (s.rest file)⟩]) ++ more := by
        rw [hf, List.append_assoc]
        rfl
      rw [hstate] at htail
      -- the file does not end behind this frame
      have hend : (s.passed file base read).offset ≠ file.length := by
        intro hend
        rw [hend] at htail
        by_cases hmore : more = []
        · rw [hmore] at htail
          cases hp (Prod.mk.inj htail.eq_of_nil).1.symm
        · exact htail.next_ne_none hmore (nextFrame_end _)
      rw [if_neg hend] at hturn
      rw [hpush] at hwhole ⊢
      obtain ⟨s', hexec, hreads, hoffset⟩ := ih hmoved htail hwhole fun h => by cases hp h
      exact ⟨s', by rw [Loop.exec_of_inl _ hturn, hexec], hreads, hoffset⟩
    · exact absurd ha hno

end Scan

/-! ## Scans without faults -/

section Faultless

variable {Z : Zlib} {file buf : List UInt8} {base : UInt64} {s : ScanState}
  {frames : List ScannedFrame}

theorem readAt_full (file : List UInt8) (i p : Nat) :
    readAt file (fun _ => .full) i p = scanWindow (file.drop p) := by
  rw [readAt, scanWindow, List.length_drop]
  rfl

/-- Accepted frames are always read whole. -/
theorem wholeReads_full {t u : Nat × UInt32} (h : Chain (nextFrame Z base file) t frames u) :
    WholeReads file (fun _ => .full) frames := by
  have hall : ∀ f ∈ frames, 20 + f.len.toNat ≤ (scanWindow (file.drop f.pos)).length := by
    induction h with
    | nil t =>
      intro f hf
      cases hf
    | @cons t t' u f frames hnext _ ih =>
      intro g hg
      obtain ⟨ha, hf, -⟩ := nextFrame_eq_some hnext
      rcases List.mem_cons.mp hg with rfl | hmem
      · have hcomplete := ha.complete
        rw [frameHead] at hcomplete
        rw [hf]
        exact (scanWindow_complete ha.len_le (file.drop t.1)).mpr (by omega)
      · exact ih g hmem
  intro i f hf
  rw [readAt_full]
  exact hall f (List.mem_of_getElem? hf)

/-- Reads that return all there is meet the condition. -/
theorem readsTold_full (Z : Zlib) (base : UInt64) (file buf : List UInt8) :
    ReadsTold Z base file buf fun _ => .full := by
  intro frames p e _ _
  rw [readAt_full, ReadTold, seenLen_scanWindow]
  by_cases htail : IncompleteTail (file.drop p)
  · exact .inl htail
  · -- a whole header stands there, so its length field is the one seen
    rw [IncompleteTail, not_or, Nat.not_lt, not_and, Nat.not_lt] at htail
    obtain ⟨h20, hcomplete⟩ := htail
    rw [seenLen_eq_frameLen (by omega)]
    refine .inr ?_
    by_cases hlen : frameLen (file.drop p) ≤ messagemaxlen
    · exact .inr ((scanWindow_complete hlen _).mpr (hcomplete hlen))
    · exact .inl (UInt32.not_le.mp hlen)

/-- Where a scan that found these frames may stop without calling the file corrupt: at the
end of the file behind a frame, or at a tail that is no complete frame and whose length
field, as the scanner sees it, is at most the limit. -/
def StopsWell (Z : Zlib) (base : UInt64) (file buf : List UInt8) (frames : List ScannedFrame)
    (at_ : Nat × UInt32) : Prop :=
  at_.1 = file.length ∧ frames ≠ [] ∨
    nextFrame Z base file at_ = none ∧ IncompleteTail (file.drop at_.1) ∧
      seenLen (bufferAfter file buf frames) (file.drop at_.1) ≤ messagemaxlen

/-- A tail that is no complete frame is shorter than what its length field announces, as the
scanner sees it. -/
theorem IncompleteTail.short {rest : List UInt8} (h : IncompleteTail rest) (buf : List UInt8) :
    (scanWindow rest).length < 20 + (seenLen buf rest).toNat := by
  rw [length_scanWindow]
  rcases h with h20 | ⟨-, hlen⟩
  · omega
  · by_cases h20 : rest.length < 20
    · omega
    · rw [seenLen_eq_frameLen (by omega)]
      omega

/-- What a turn of a faultless scan sees. -/
theorem ScanReads.seenLen_rest (h : ScanReads Z base file buf (fun _ => .full) frames s) :
    seenLen s.buf (s.rest file) = seenLen (bufferAfter file buf frames) (s.rest file) :=
  seenLen_congr _ h.buf_eq

theorem ScanState.got_full (s : ScanState) (file : List UInt8) :
    s.got file (fun _ => .full) = scanWindow (s.rest file) :=
  readAt_full _ _ _

theorem ScanState.seenLen_got_full (s : ScanState) (file : List UInt8) :
    seenLen s.buf (s.got file fun _ => .full) = seenLen s.buf (s.rest file) := by
  rw [s.got_full, seenLen_scanWindow]

/-- A faultless turn has read an accepted frame whole, its length field included. -/
theorem FrameAccepted.got_full {off : UInt64} {prev : UInt32}
    (ha : FrameAccepted Z (s.rest file) off prev) :
    seenLen s.buf (s.got file fun _ => .full) = frameLen (s.rest file) ∧
      20 + (frameLen (s.rest file)).toNat ≤ (s.got file fun _ => .full).length := by
  have hcomplete := ha.complete
  rw [frameHead] at hcomplete
  constructor
  · rw [s.seenLen_got_full, seenLen_eq_frameLen (by omega)]
  · rw [s.got_full]
    exact (scanWindow_complete ha.len_le _).mpr (by omega)

/-- From any turn on, a faultless scan calls the file corrupt unless its frames stop well. -/
theorem ScanReads.not_corrupt (h : ScanReads Z base file buf (fun _ => .full) frames s) :
    ((scanLoop Z file base fun _ => .full).exec s).1.kind ≠ .corrupt →
      ∃ frames t, Chain (nextFrame Z base file) (32, 0) frames t ∧
        StopsWell Z base file buf frames t := by
  refine Loop.exec_induction _
    (fun s => ∃ frames, ScanReads Z base file buf (fun _ => .full) frames s)
    (fun r : ScanEnd × SegmentRecovery => r.1.kind ≠ .corrupt →
      ∃ frames t, Chain (nextFrame Z base file) (32, 0) frames t ∧
        StopsWell Z base file buf frames t) ?_ ⟨frames, h⟩
  rintro s ⟨frames, h⟩
  by_cases ha : FrameAccepted Z (s.rest file) (s.expected base) s.prevEpoch
  · -- the frame is passed, and the scan leaves behind it or goes on
    obtain ⟨hlen, hwhole⟩ := ha.got_full
    rw [← hlen] at hwhole
    have hnext := h.passed hwhole ha
    rcases scanTurn_whole Z base (by rw [hlen]; exact ha.len_le) hwhole with
      ⟨-, hturn⟩ | ⟨hno, -⟩
    · by_cases hend : (s.passed file base fun _ => .full).offset = file.length
      · rw [if_pos hend] at hturn
        exact .inr ⟨_, hturn, fun _ => ⟨_, _, hnext.chain, .inl ⟨hend, by simp⟩⟩⟩
      · rw [if_neg hend] at hturn
        exact .inl ⟨_, hturn, _, hnext⟩
    · exact absurd ha hno
  · -- no frame: the scan leaves, as torn only at an incomplete tail
    obtain ⟨ans, r, hturn, hkind⟩ := scanTurn_rejected ha
    refine .inr ⟨_, hturn, fun hnot => ⟨frames, _, h.chain, .inr ?_⟩⟩
    obtain ⟨htorn, -, -, htail⟩ := hkind.resolve_left hnot
    refine ⟨nextFrame_eq_none_iff.mpr ha, htail, ?_⟩
    -- a length field above the limit would be called corrupt
    by_contra hbig
    rw [UInt32.not_le, show file.drop s.offset = s.rest file from rfl, ← h.seenLen_rest,
      ← s.seenLen_got_full] at hbig
    obtain ⟨ans', r', hturn', hkind'⟩ := scanTurn_oversized Z base hbig
    rw [hturn] at hturn'
    cases hturn'
    exact hnot hkind'

/-- A faultless scan calls a file corrupt unless its accepted frames stop well. -/
theorem segmentScanner_not_corrupt_iff (hhead : HasHead Z file base) (inteval : ℕ+)
    (buf : List UInt8) :
    ((SegmentRecovery.fresh inteval buf).segmentScanner Z file {}).1.kind ≠ .corrupt ↔
      ∃ frames t, Chain (nextFrame Z base file) (32, 0) frames t ∧
        StopsWell Z base file buf frames t := by
  rw [segmentScanner_eq hhead]
  have hstart := scanReads_start Z base file buf (fun _ => .full) inteval
  refine ⟨hstart.not_corrupt, ?_⟩
  rintro ⟨frames, ⟨p, e⟩, hchain, hstop⟩
  by_cases hend : p = file.length ∧ frames ≠ []
  · -- the frames reach the end of the file
    obtain ⟨rfl, hne⟩ := hend
    have hinv : ScanInv Z file base (scanStart inteval buf) := scanInv_start inteval buf
    have hres := scanLoop_result hinv
    rw [(hres.clean_of_chain hne hchain).1]
    exact ScanKind.noConfusion
  · obtain ⟨-, htail, hlen⟩ := hstop.resolve_left hend
    -- the scan comes to the tail, and sees a length field it lets pass
    have hat : p = file.length → frames = [] := fun hp => by_contra fun hne => hend ⟨hp, hne⟩
    obtain ⟨s, hexec, hreads, hoffset⟩ := hstart.after_frames hchain (wholeReads_full hchain) hat
    rw [List.nil_append] at hreads
    have hrest : s.rest file = file.drop p := by rw [ScanState.rest, hoffset]
    have hseen : seenLen s.buf (s.got file fun _ => .full) =
        seenLen (bufferAfter file buf frames) (file.drop p) := by
      rw [s.seenLen_got_full, hreads.seenLen_rest, hrest]
    have hshort : (s.got file fun _ => .full).length <
        20 + (seenLen s.buf (s.got file fun _ => .full)).toNat := by
      rw [hseen, s.got_full, hrest]
      exact htail.short _
    obtain ⟨ans, r, hturn, htorn, -⟩ := scanTurn_short Z base
      (by rw [hseen]; exact hlen) hshort
    rw [hexec, Loop.exec_of_inr _ hturn, htorn]
    exact ScanKind.noConfusion

/-- Where a scan that found these frames stops as torn: at a tail that is no complete frame
and whose length field, as the scanner sees it, is at most the limit, and not at the end of
the file behind a frame. -/
def StopsTorn (Z : Zlib) (base : UInt64) (file buf : List UInt8) (frames : List ScannedFrame)
    (at_ : Nat × UInt32) : Prop :=
  nextFrame Z base file at_ = none ∧ IncompleteTail (file.drop at_.1) ∧
    seenLen (bufferAfter file buf frames) (file.drop at_.1) ≤ messagemaxlen ∧
    (at_.1 = file.length → frames = [])

/-- A faultless scan is clean exactly where its accepted frames reach the end of the file. -/
theorem ScanResult.clean_iff {ans : ScanEnd} (h : ScanResult Z file base ans) :
    ans.kind = .clean ↔ ∃ frames e, frames ≠ [] ∧
      Chain (nextFrame Z base file) (32, 0) frames (file.length, e) := by
  constructor
  · intro hclean
    cases h with
    | clean _ _ hne _ hchain => exact ⟨_, _, hne, hchain⟩
    | torn _ hkind => rw [hkind] at hclean; cases hclean
    | corrupt _ _ _ hkind => rw [hkind] at hclean; cases hclean
  · rintro ⟨frames, e, hne, hchain⟩
    exact (h.clean_of_chain hne hchain).1

/-- A faultless scan ends torn exactly where its accepted frames do. -/
theorem segmentScanner_tornTail_iff (hhead : HasHead Z file base) (inteval : ℕ+)
    (buf : List UInt8) :
    ((SegmentRecovery.fresh inteval buf).segmentScanner Z file {}).1.kind = .tornTail ↔
      ∃ frames t, Chain (nextFrame Z base file) (32, 0) frames t ∧
        StopsTorn Z base file buf frames t := by
  have hcorrupt := segmentScanner_not_corrupt_iff hhead inteval buf
  have hclean := (segmentScanner_result hhead inteval buf).clean_iff
  constructor
  · intro htorn
    rw [htorn] at hcorrupt hclean
    have hnot : ¬ ∃ frames e, frames ≠ [] ∧
        Chain (nextFrame Z base file) (32, 0) frames (file.length, e) :=
      fun h => nomatch hclean.mpr h
    obtain ⟨frames, ⟨p, e⟩, hchain, hstop⟩ := hcorrupt.mp nofun
    -- it has not come to the end of the file behind a frame
    have hat : p = file.length → frames = [] := by
      rintro rfl
      by_contra hne
      exact hnot ⟨frames, e, hne, hchain⟩
    obtain ⟨hstuck, htail, hlen⟩ := hstop.resolve_left fun h => h.2 (hat h.1)
    exact ⟨frames, _, hchain, hstuck, htail, hlen, hat⟩
  · rintro ⟨frames, t, hchain, hstuck, htail, hlen, hat⟩
    have hnotCorrupt := hcorrupt.mpr ⟨frames, t, hchain, .inr ⟨hstuck, htail, hlen⟩⟩
    cases segmentScanner_result hhead inteval buf with
    | clean found hkind hne _ hfound =>
      -- both chains are stuck, so they are one, and it is at the end of the file
      obtain ⟨rfl, rfl⟩ := hfound.stuck_unique (nextFrame_end _) hchain hstuck
      exact absurd (hat rfl) hne
    | torn _ hkind => exact hkind
    | corrupt _ _ _ hkind => exact absurd hkind hnotCorrupt

end Faultless

/-! ## The verdict -/

section Verdict

variable {Z : Zlib} {file : List UInt8} {base : UInt64}

/-- A header read under faults gives its base offset, or 0. -/
theorem HasHead.readSegment32_eq (h : HasHead Z file base) (o : ReadOutcome) :
    ServiceInfra.readSegment32 Z file o = base ∨ ServiceInfra.readSegment32 Z file o = 0 := by
  have hfull := h.readSegment32
  have hlen := h.len_le
  cases o with
  | full => exact .inl hfull
  | short k =>
    by_cases hk : 32 ≤ k
    · refine .inl ?_
      rw [← hfull, ServiceInfra.readSegment32, ServiceInfra.readSegment32, pread, pread,
        Nat.min_eq_right hk]
    · -- a short count is no header
      refine .inr ?_
      have hcount : ((file.drop 0).take (min k 32)).length ≠ 32 := by
        rw [List.length_take, List.length_drop]
        omega
      simp only [ServiceInfra.readSegment32, pread, ne_eq, hcount, not_false_eq_true, if_true]
  | fail => exact .inr rfl

/-- Over every file with a valid header of a nonzero base offset, every pattern of read
outcomes and every buffer: where the scan ends torn, what stands behind `vaild_end` is not
a complete frame, exactly when the reads meet the condition (or the loop is never
entered). -/
theorem segmentScanner_torn_iff (hhead : HasHead Z file base) (io : ScanIo) (inteval : ℕ+)
    (buf : List UInt8) :
    (((SegmentRecovery.fresh inteval buf).segmentScanner Z file io).1.kind = .tornTail →
        IncompleteTail (file.drop
          ((SegmentRecovery.fresh inteval buf).segmentScanner Z file io).1.vaildEnd)) ↔
      (io.fstat = true → readSegment32 Z file io.head ≠ 0 → ReadsTold Z base file buf io.read) := by
  by_cases hfstat : io.fstat = true
  · by_cases hbase : readSegment32 Z file io.head = 0
    · -- the header cannot be read
      refine iff_of_true (fun htorn => ?_) fun _ hne => absurd hbase hne
      simp only [SegmentRecovery.segmentScanner, hfstat, hbase, Bool.true_eq_false, if_false,
        if_true] at htorn
      cases htorn
    · have hread := (hhead.readSegment32_eq io.head).resolve_right hbase
      have hscan : (SegmentRecovery.fresh inteval buf).segmentScanner Z file io =
          (scanLoop Z file base io.read).exec (scanStart inteval buf) := by
        simp only [SegmentRecovery.segmentScanner, hfstat, hread, hhead.base_ne, Bool.true_eq_false,
          if_false]
        rfl
      have hstart := scanReads_start Z base file buf io.read inteval
      rw [hscan]
      refine ⟨fun hright _ _ frames p e hchain hwhole => ?_,
        fun hcondition => hstart.torn (hcondition hfstat hbase)⟩
      by_cases hp : p = file.length
      · -- nothing is left
        refine .inl (.inl ?_)
        rw [hp, List.drop_length]
        decide
      · obtain ⟨s, hexec, hreads, hoffset⟩ := hstart.after_frames hchain hwhole fun h => absurd h hp
        rw [hexec] at hright
        rw [List.nil_append] at hreads
        rw [← hoffset, hreads.readTold_iff]
        -- a read that is not told would end the scan as torn, and wrongly
        by_contra hnot
        rw [ReadTold, not_or, not_or, UInt32.not_lt, Nat.not_le] at hnot
        obtain ⟨hwrong, hlen, hshort⟩ := hnot
        obtain ⟨ans, r, hturn, htorn, hend⟩ := scanTurn_short Z base hlen hshort
        rw [Loop.exec_of_inr _ hturn] at hright
        have htail := hright htorn
        rw [hend] at htail
        exact hwrong htail
  · -- the length of the file is not known
    refine iff_of_true (fun htorn => ?_) fun h => absurd h hfstat
    rw [Bool.not_eq_true] at hfstat
    simp only [SegmentRecovery.segmentScanner, hfstat, if_true] at htorn
    cases htorn

/-- A segment of one frame, of which the read returns ten bytes. -/
theorem segmentScanner_torn_iff_short :
    let file := writeSegheadBg zlib 1 1000 0 ++ encodeFrame zlib 1000 1 [0x41]
    let io : ScanIo := { read := fun _ => .short 10 }
    let r := ((SegmentRecovery.fresh 4 []).segmentScanner zlib file io).1
    r.kind = .tornTail ∧
      ((r.kind = .tornTail → IncompleteTail (file.drop r.vaildEnd)) ↔
        (io.fstat = true → readSegment32 zlib file io.head ≠ 0 →
          ReadsTold zlib 1000 file [] io.read)) := by
  intro file io r
  have hhead : HasHead zlib file 1000 :=
    HasHead.of_header rfl (compareMagicCrc_writeSegheadBg zlib 1000 0) (by decide) _
  exact ⟨by decide +kernel, segmentScanner_torn_iff hhead io 4 []⟩

/-- The same segment, and the read of its frame fails: torn in front of a complete frame. -/
theorem segmentScanner_torn_wrong :
    let file := writeSegheadBg zlib 1 1000 0 ++ encodeFrame zlib 1000 1 [0x41]
    let r := ((SegmentRecovery.fresh 4 []).segmentScanner zlib file { read := fun _ => .fail }).1
    compareMagicCrc zlib (file.take 32) = some (1000, 0) ∧ r.kind = .tornTail ∧
      ¬ IncompleteTail (file.drop r.vaildEnd) := by
  decide +kernel

end Verdict

end ServiceInfra
