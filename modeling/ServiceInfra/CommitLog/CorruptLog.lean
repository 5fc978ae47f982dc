import ServiceInfra.CommitLog.Faults

/-!
# Corrupt commit logs

When `open_or_create` reports a log as corrupt it keeps the descriptor, and `append` looks
only at that. The offset then stands where the replay stopped: at the record whose read or
checksum failed, or behind the one that broke the rules for batch and state. What the
replay sees of a record is what its buffer holds after the read, so the condition is stated
on these `seenRecords`.

Main results:
- `replayLoop_refused`: where a replay that fails stops
- `Commitlog.neverOverwritten_iff`: an open log keeps its file only at the end of it
- `corruptLog_kept_iff`: a corrupt log is never overwritten exactly when its last record
  alone made it corrupt, by the rules
-/

namespace ServiceInfra

open Library

/-! ## Definitions -/

/-- A list of entries keeps the rules behind batch `batch` in state `state`. -/
def Follows : UInt64 → UInt8 → List CommitEntry → Prop
  | _, _, [] => True
  | batch, state, e :: es => FollowsStep batch state e ∧ Follows e.batchNo e.state es

/-- What the buffer holds after the reads of `n` records from record `k` on, when it held
`buf` before; the reads end at one that fails. -/
def seenRecords (file : List UInt8) (read : Nat → ReadOutcome) :
    Nat → Nat → List UInt8 → List (List UInt8)
  | _, 0, _ => []
  | k, n + 1, buf =>
      match pread file 36 (36 * k) (read k) with
      | none => []
      | some bytes => stored buf bytes :: seenRecords file read (k + 1) n (stored buf bytes)

/-- All `n` records were read and have their checksums, and all but the last keep the rules. -/
structure FitUpToLast (Z : Zlib) (batch : UInt64) (state : UInt8) (n : Nat)
    (seen : List (List UInt8)) : Prop where
  length_eq : seen.length = n
  sound : ∀ r ∈ seen, Sound Z r
  follows : Follows batch state (seen.dropLast.map readEntry)

/-- The file is whole records, and none but its last can have stopped the replay, and that
one only by the rules for batch and state. -/
def LastIllegal (Z : Zlib) (file : List UInt8) (read : Nat → ReadOutcome) : Prop :=
  36 ∣ file.length ∧
    FitUpToLast Z 0 0 (file.length / 36)
      (seenRecords file read 0 (file.length / 36) (List.replicate 36 0))

/-- Over every run of appends, all of them return false, or every byte of `file` is still
in its place. -/
def Commitlog.NeverOverwritten (Z : Zlib) (c : Commitlog) (file : List UInt8) : Prop :=
  ∀ calls, ackedEntries Z c calls = [] ∨
    ∃ added, (runCommits Z c calls).file = some (file ++ added)

/-! ## Where the replay stops -/

section Stop

variable {Z : Zlib} {file : List UInt8} {read : Nat → ReadOutcome}

theorem seenRecords_none {k n : Nat} {buf : List UInt8}
    (h : pread file 36 (36 * k) (read k) = none) :
    seenRecords file read k (n + 1) buf = [] := by
  rw [seenRecords, h]

theorem seenRecords_some {k n : Nat} {buf bytes : List UInt8}
    (h : pread file 36 (36 * k) (read k) = some bytes) :
    seenRecords file read k (n + 1) buf =
      stored buf bytes :: seenRecords file read (k + 1) n (stored buf bytes) := by
  rw [seenRecords, h]

/-- With a first record that keeps the rules, the condition is one on the others. -/
theorem fitUpToLast_cons {batch : UInt64} {state : UInt8} {n : Nat} {r : List UInt8}
    {seen : List (List UInt8)} (hsound : Sound Z r)
    (hfollows : FollowsStep batch state (readEntry r)) :
    FitUpToLast Z batch state (n + 1) (r :: seen) ↔
      FitUpToLast Z (readEntry r).batchNo (readEntry r).state n seen := by
  have hlast : Follows batch state ((r :: seen).dropLast.map readEntry) ↔
      Follows (readEntry r).batchNo (readEntry r).state (seen.dropLast.map readEntry) := by
    cases seen with
    | nil => exact Iff.rfl
    | cons r' seen =>
      rw [List.dropLast_cons_cons, List.map_cons, Follows]
      exact and_iff_right hfollows
  constructor
  · rintro ⟨hlength, hall, hrules⟩
    rw [List.length_cons, Nat.add_right_cancel_iff] at hlength
    exact ⟨hlength, (List.forall_mem_cons.mp hall).2, hlast.mp hrules⟩
  · rintro ⟨hlength, hall, hrules⟩
    exact ⟨by rw [List.length_cons, hlength], List.forall_mem_cons.mpr ⟨hsound, hall⟩,
      hlast.mpr hrules⟩

theorem fitUpToLast_singleton {batch : UInt64} {state : UInt8} {r : List UInt8}
    (hsound : Sound Z r) : FitUpToLast Z batch state 1 [r] :=
  ⟨rfl, List.forall_mem_singleton.mpr hsound, trivial⟩

/-- A record that breaks the rules can only be the last. -/
theorem FitUpToLast.of_breaks {batch : UInt64} {state : UInt8} {n : Nat} {r : List UInt8}
    {seen : List (List UInt8)} (h : FitUpToLast Z batch state (n + 1) (r :: seen))
    (hbreaks : ¬ FollowsStep batch state (readEntry r)) : n = 0 := by
  have hlength : seen.length = n := Nat.succ.inj h.length_eq
  cases seen with
  | nil => exact hlength.symm
  | cons r' seen =>
    have hrules := h.follows
    rw [List.dropLast_cons_cons, List.map_cons, Follows] at hrules
    exact absurd hrules.1 hbreaks

/-- A replay that fails stops inside the file, and at its end exactly when nothing but the
rules for the last record stopped it. -/
theorem replayLoop_refused {s s' : ReplayState} (hreads : s.offset = 36 * s.reads)
    (hle : s.offset ≤ file.length) (hexec : (replayLoop Z file read).exec s = (s', false)) :
    s'.offset ≤ file.length ∧
      (s'.offset = file.length ↔
        36 ∣ file.length ∧
          FitUpToLast Z s.prevBatchNo s.prevState ((file.length - s.offset) / 36)
            (seenRecords file read s.reads ((file.length - s.offset) / 36) s.buf)) := by
  -- along the turns, each of which sees one record
  induction s using (replayLoop Z file read).induct with
  | turn s ih =>
    by_cases hlen : s.offset + 36 ≤ file.length
    · obtain ⟨n, hn⟩ : ∃ n, (file.length - s.offset) / 36 = n + 1 :=
        ⟨(file.length - (s.offset + 36)) / 36, by omega⟩
      rw [hn]
      -- a replay that stops at this record stops before the end of the file
      have hhere {t : ReplayState} (hturn : replayTurn Z file read s = .inr (t, false))
          (hoffset : t.offset = s.offset)
          (hunfit : ¬ FitUpToLast Z s.prevBatchNo s.prevState (n + 1)
            (seenRecords file read s.reads (n + 1) s.buf)) :
          s'.offset ≤ file.length ∧ (s'.offset = file.length ↔
            36 ∣ file.length ∧ FitUpToLast Z s.prevBatchNo s.prevState (n + 1)
              (seenRecords file read s.reads (n + 1) s.buf)) := by
        have hstop := hexec.symm.trans (Loop.exec_of_inr _ hturn)
        cases hstop
        exact ⟨by omega, iff_of_false (by omega) fun h => hunfit h.2⟩
      cases hread : pread file 36 s.offset (read s.reads) with
      | none =>
        obtain ⟨t, hturn, hoffset, -⟩ := replayTurn_unread (Z := Z) hlen hread
        refine hhere hturn hoffset fun hfit => ?_
        rw [hreads] at hread
        rw [seenRecords_none hread] at hfit
        exact absurd hfit.length_eq (Nat.succ_ne_zero n).symm
      | some bytes =>
        have hseen : seenRecords file read s.reads (n + 1) s.buf =
            stored s.buf bytes :: seenRecords file read (s.reads + 1) n (stored s.buf bytes) := by
          rw [hreads] at hread
          exact seenRecords_some hread
        by_cases hsound : Sound Z (stored s.buf bytes)
        · by_cases hfollows :
              FollowsStep s.prevBatchNo s.prevState (readEntry (stored s.buf bytes))
          · -- the replay goes on behind the record
            have hturn := replayTurn_follows hlen hread hsound hfollows
            have hcount : (file.length - (s.offset + 36)) / 36 = n := by omega
            have hnext : s.offset + 36 = 36 * (s.reads + 1) := by omega
            have hrest := ih _ hturn hnext hlen ((Loop.exec_of_inl _ hturn).symm.trans hexec)
            simp only [ReplayState.past, hcount] at hrest
            rw [hseen, fitUpToLast_cons hsound hfollows]
            exact hrest
          · -- it stops behind the record, which is the end when this is the last one
            obtain ⟨t, hturn, hoffset, -⟩ := replayTurn_breaks hlen hread hsound hfollows
            have hstop := hexec.symm.trans (Loop.exec_of_inr _ hturn)
            cases hstop
            refine ⟨by omega, ?_⟩
            rw [hoffset, hseen]
            constructor
            · intro hend
              have hn : n = 0 := by omega
              subst hn
              exact ⟨⟨s.reads + 1, by omega⟩, fitUpToLast_singleton hsound⟩
            · rintro ⟨⟨m, hm⟩, hfit⟩
              have hn := hfit.of_breaks hfollows
              omega
        · obtain ⟨t, hturn, hoffset, -⟩ := replayTurn_unsound hlen hread hsound
          refine hhere hturn hoffset fun hfit => ?_
          rw [hseen] at hfit
          exact hsound (hfit.sound _ List.mem_cons_self)
    · have hend := replayTurn_end (Z := Z) (Nat.lt_of_not_le hlen) read
      have hstop := hexec.symm.trans (Loop.exec_of_inr _ hend)
      cases hstop

end Stop

/-! ## Appends after a refusal -/

section Appends

variable {Z : Zlib} {c : Commitlog} {file : List UInt8}

/-- A whole record is written at the offset, and its append returns true. -/
theorem Commitlog.call_full (hopen : c.isOpen = true) (hfile : c.file = some file)
    (e : CommitEntry) :
    (c.call Z ⟨e, {}⟩).2 = true ∧
      (c.call Z ⟨e, {}⟩).1.file = some (writeAt file (encodeEntry Z e) c.offset) := by
  simp only [call, append, hopen, hfile, pwrite, length_encodeEntry, Nat.cast_ofNat, if_true]
  exact ⟨trivial, trivial⟩

/-- An open log at an offset inside its file keeps the file through every run of appends
exactly when it stands at the end of it. -/
theorem Commitlog.neverOverwritten_iff (hopen : c.isOpen = true) (hfile : c.file = some file)
    (hle : c.offset ≤ file.length) : c.NeverOverwritten Z file ↔ c.offset = file.length := by
  constructor
  · intro hkeeps
    by_contra hne
    have hlt : c.offset < file.length := lt_of_le_of_ne hle hne
    -- the first byte of whatever batch number is what stands at the offset
    have hfirst (batchNo : UInt64) :
        file[c.offset]? = some ((batchNo >>> 56) &&& 0xFF).toUInt8 := by
      obtain ⟨hok, hwritten⟩ := c.call_full (Z := Z) hopen hfile { batchNo }
      rcases hkeeps [⟨{ batchNo }, {}⟩] with hnone | ⟨added, hadded⟩
      · rw [ackedEntries, if_pos hok] at hnone
        cases hnone
      · have hrun : runCommits Z c [⟨{ batchNo }, {}⟩] = (c.call Z ⟨{ batchNo }, {}⟩).1 := rfl
        have hrecord : encodeEntry Z { batchNo } ≠ [] := List.cons_ne_nil _ _
        rw [hrun, hwritten, Option.some_inj] at hadded
        have hkept : (file ++ added)[c.offset]? = file[c.offset]? :=
          List.getElem?_append_left hlt
        rw [← hkept, ← hadded, getElem?_writeAt _ hrecord]
        rfl
    have hsame := (hfirst 0).symm.trans (hfirst ((1 : UInt64) <<< 56))
    exact absurd hsame (by decide)
  · intro hend calls
    have hholds : c.Holds file [] :=
      { isOpen := hopen
        file_eq := by rw [List.append_nil, hfile]
        offset_eq := hend
        left_lt := by decide }
    obtain ⟨left, hrun⟩ := hholds.run (Z := Z) calls
    exact .inr ⟨_, by rw [hrun.file_eq, List.append_assoc]⟩

end Appends

/-- An `open_or_create` that reports a file as corrupt leaves it open and unchanged, at the
offset where the replay stopped. -/
theorem Commitlog.openOrCreate_corrupt {Z : Zlib} {log : CommitEntry} {file : List UInt8}
    {out : Reply} {io : OpenOrCreateIo} (hout : out.corrupt = false)
    (hcorrupt : (({ log, file := some file } : Commitlog).openOrCreate Z out io).2.1.corrupt = true)
    (hfalse : (({ log, file := some file } : Commitlog).openOrCreate Z out io).2.2 = false) :
    ∃ s', (replayLoop Z file io.read).exec { offset := 0, out } = (s', false) ∧
      (({ log, file := some file } : Commitlog).openOrCreate Z out io).1 =
        { log, isOpen := true, offset := s'.offset, file := some file } := by
  revert hcorrupt hfalse
  unfold openOrCreate
  -- the exits in front of the loop do not touch `out`
  split
  · intro hcorrupt
    rw [hout] at hcorrupt
    cases hcorrupt
  · simp only
    split
    · intro hcorrupt
      rw [hout] at hcorrupt
      cases hcorrupt
    · unfold replay
      split
      · intro hcorrupt
        rw [hout] at hcorrupt
        cases hcorrupt
      · simp only
        split
        · intro _ hfalse
          cases hfalse
        · rename_i hok
          intro _ _
          refine ⟨_, Prod.ext rfl ?_, rfl⟩
          exact Bool.eq_false_iff.mpr hok

/-- After a fresh object reported a file as corrupt, whatever the system calls did, every
run of appends returns false throughout or leaves every byte of the file in its place
exactly when nothing but the rules for the last of its whole records stopped the replay. -/
theorem corruptLog_kept_iff {Z : Zlib} {log : CommitEntry} {file : List UInt8} {out : Reply}
    {io : OpenOrCreateIo} (hout : out.corrupt = false)
    (hcorrupt : (({ log, file := some file } : Commitlog).openOrCreate Z out io).2.1.corrupt = true)
    (hfalse : (({ log, file := some file } : Commitlog).openOrCreate Z out io).2.2 = false) :
    (({ log, file := some file } : Commitlog).openOrCreate Z out io).1.NeverOverwritten Z file ↔
      LastIllegal Z file io.read := by
  obtain ⟨s', hexec, hopened⟩ := Commitlog.openOrCreate_corrupt hout hcorrupt hfalse
  obtain ⟨hle, hend⟩ := replayLoop_refused (s := { offset := 0, out }) rfl (Nat.zero_le _) hexec
  rw [hopened, Commitlog.neverOverwritten_iff rfl rfl hle, hend]
  rfl

/-- A log of one record whose batch number is not 0 or 1. -/
theorem corruptLog_kept_iff_batch :
    let file := encodeEntry zlib { batchNo := 5 }
    (({ file := some file } : Commitlog).openOrCreate zlib {} {}).1.NeverOverwritten zlib file ↔
      LastIllegal zlib file fun _ => .full :=
  corruptLog_kept_iff rfl (by decide +kernel) (by decide +kernel)

/-- A log of two records, the first with a wrong checksum: it is refused as corrupt, and
the next append returns true and overwrites the first record. -/
theorem corruptLog_overwritten :
    let file := (encodeEntry zlib { batchNo := 1 }).set 24 1 ++
      encodeEntry zlib { batchNo := 1, state := 2 }
    let r := ({ file := some file } : Commitlog).openOrCreate zlib {} {}
    (r.2.1.corrupt = true ∧ r.2.2 = false) ∧
      (r.1.call zlib ⟨{ batchNo := 7 }, {}⟩).2 = true ∧
      ¬ file <+: ((r.1.call zlib ⟨{ batchNo := 7 }, {}⟩).1.file.getD []) := by
  decide +kernel

end ServiceInfra
