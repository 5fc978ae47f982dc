import ServiceInfra.CommitLog.Crash

/-!
# Commit-log appends under faults

A write of a record may be cut short or fail, and the `ftruncate` after it may fail too.
What such calls leave behind the offset is always less than a record: the offset moves
only past whole records, and the next record that is written covers what was left. A
re-open looks at whole records only, so it reads what was acknowledged.

Main results:
- `Commitlog.openOrCreate_holds`: a successful open puts the offset behind the complete records
- `Commitlog.Holds.call`: what one append does to the file
- `commits_under_faults`: every run of appends, and the re-open after it
-/

namespace ServiceInfra

open Library

/-! ## Definitions -/

/-- One call of `append`: the entry put into `log`, and the outcomes of its system calls. -/
structure CommitCall where
  entry : CommitEntry
  io : CommitIo := {}

/-- Set `log` and append. -/
def Commitlog.call (Z : Zlib) (c : Commitlog) (a : CommitCall) : Commitlog × Bool :=
  ({ c with log := a.entry } : Commitlog).append Z a.io

/-- A run of calls. -/
def runCommits (Z : Zlib) (c : Commitlog) (calls : List CommitCall) : Commitlog :=
  calls.foldl (fun c a => (c.call Z a).1) c

/-- The entries of the calls that returned true, in order. -/
def ackedEntries (Z : Zlib) : Commitlog → List CommitCall → List CommitEntry
  | _, [] => []
  | c, a :: calls =>
      if (c.call Z a).2 then a.entry :: ackedEntries Z (c.call Z a).1 calls
      else ackedEntries Z (c.call Z a).1 calls

/-- An open log; its file holds `held` up to the offset, and behind it `left`, which is less
than a record. -/
structure Commitlog.Holds (c : Commitlog) (held left : List UInt8) : Prop where
  isOpen : c.isOpen = true
  file_eq : c.file = some (held ++ left)
  offset_eq : c.offset = held.length
  left_lt : left.length < 36

/-- The end of the complete records of a file. -/
def recordsEnd (file : List UInt8) : Nat := 36 * (file.length / 36)

theorem recordsEnd_le (file : List UInt8) : recordsEnd file ≤ file.length := Nat.mul_div_le _ _

/-! ## Opening -/

section Opening

variable {Z : Zlib} {c : Commitlog} {file : List UInt8}

/-- The replay loop returns true only where less than a record is left. -/
theorem replayTurn_true {read : Nat → ReadOutcome} {s s' : ReplayState}
    (h : replayTurn Z file read s = .inr (s', true)) :
    s' = s ∧ file.length < s.offset + 36 := by
  unfold replayTurn at h
  simp only [ReplayState.corrupted] at h
  -- every other exit is `corrupted`
  split at h
  · rename_i hlen
    cases h
    exact ⟨rfl, hlen⟩
  · split at h
    · cases h
    · split at h
      · cases h
      · split at h
        · split at h
          · cases h
          · cases h
        · split at h
          · split at h
            · cases h
            · cases h
          · cases h

/-- Whatever the reads return, a replay that succeeds ends behind the complete records. -/
theorem replayLoop_true (file : List UInt8) (read : Nat → ReadOutcome) (out : Reply) :
    ((replayLoop Z file read).exec { offset := 0, out }).2 = true →
      ((replayLoop Z file read).exec { offset := 0, out }).1.offset = recordsEnd file := by
  refine Loop.exec_induction _ (fun s => 36 ∣ s.offset ∧ s.offset ≤ file.length)
    (fun r : ReplayState × Bool => r.2 = true → r.1.offset = recordsEnd file) ?_
    ⟨Nat.dvd_zero 36, Nat.zero_le _⟩
  rintro s ⟨hdvd, hle⟩
  cases hturn : replayTurn Z file read s with
  | inl s' =>
    obtain ⟨hmove, hlen⟩ := replayTurn_inl hturn
    refine .inl ⟨s', hturn, ?_, ?_⟩
    · rw [hmove]
      exact Dvd.dvd.add hdvd (Nat.dvd_refl 36)
    · rw [hmove]
      exact hlen
  | inr r =>
    refine .inr ⟨r, hturn, fun hok => ?_⟩
    obtain ⟨s', ok⟩ := r
    simp only at hok
    rw [hok] at hturn
    obtain ⟨rfl, hlen⟩ := replayTurn_true hturn
    -- a multiple of 36 with less than 36 bytes behind it
    simp only [recordsEnd]
    omega

theorem Commitlog.replay_holds {out : Reply} {io : OpenOrCreateIo} (hopen : c.isOpen = true)
    (hoffset : c.offset = 0) (hok : (c.replay Z file out io).2.2 = true) :
    ∃ left, (c.replay Z file out io).1.Holds (file.take (recordsEnd file)) left := by
  revert hok
  unfold replay
  have hend := replayLoop_true (Z := Z) file io.read out
  have hle := recordsEnd_le file
  have hlength : (file.take (recordsEnd file)).length = recordsEnd file :=
    List.length_take_of_le hle
  rw [hoffset]
  split
  · intro hok
    cases hok
  · simp only
    split
    · rename_i hloop
      intro _
      rw [hend hloop]
      -- the repair of the tail works or not
      cases io.ftruncate with
      | true =>
        refine ⟨[], hopen, ?_, hlength.symm, by decide⟩
        rw [ftruncate_of_le hle, List.append_nil]
      | false =>
        refine ⟨file.drop (recordsEnd file), hopen, ?_, hlength.symm, ?_⟩
        · rw [List.take_append_drop]
          rfl
        · rw [List.length_drop, recordsEnd]
          omega
    · rename_i hloop
      intro hok
      cases hok

/-- An `open_or_create` that returns true, whatever its system calls did, puts the offset
behind the complete records of the file at the path. -/
theorem Commitlog.openOrCreate_holds {out : Reply} {io : OpenOrCreateIo} (hoffset : c.offset = 0)
    (hok : (c.openOrCreate Z out io).2.2 = true) :
    ∃ left, (c.openOrCreate Z out io).1.Holds
      ((c.file.getD []).take (recordsEnd (c.file.getD []))) left := by
  revert hok
  unfold openOrCreate
  split
  · intro hok
    cases hok
  · cases c.file with
    | none =>
      simp only
      split
      · intro hok
        cases hok
      · exact fun hok => replay_holds rfl hoffset hok
    | some file =>
      simp only
      split
      · intro hok
        cases hok
      · exact fun hok => replay_holds rfl hoffset hok

end Opening

/-! ## Appending -/

section Appending

variable {Z : Zlib} {c : Commitlog} {held left : List UInt8}

/-- An append that writes its whole record returns true, and covers what was left. -/
theorem Commitlog.Holds.call_whole (h : c.Holds held left) {a : CommitCall}
    (hw : a.io.pwrite.Whole (encodeEntry Z a.entry)) :
    (c.call Z a).2 = true ∧ (c.call Z a).1.Holds (held ++ encodeEntry Z a.entry) [] := by
  have hwrite := pwrite_whole held left hw
  have hcover : stored left (encodeEntry Z a.entry) = encodeEntry Z a.entry := by
    rw [stored, length_encodeEntry, List.drop_of_length_le h.left_lt.le, List.append_nil]
  rw [hcover, length_encodeEntry] at hwrite
  have hcall : c.call Z a =
      ({ c with
          log := a.entry
          file := some (held ++ encodeEntry Z a.entry)
          offset := c.offset + 36 }, true) := by
    simp only [Commitlog.call, append, h.isOpen, h.file_eq, h.offset_eq, hwrite, Nat.cast_ofNat,
      if_true]
  rw [hcall]
  refine ⟨rfl, h.isOpen, ?_, ?_, by decide⟩
  · rw [List.append_nil]
  · rw [List.length_append, length_encodeEntry, h.offset_eq]

/-- Any other append returns false, and leaves less than a record behind the held bytes. -/
theorem Commitlog.Holds.call_failed (h : c.Holds held left) {a : CommitCall}
    (hw : ¬ a.io.pwrite.Whole (encodeEntry Z a.entry)) :
    (c.call Z a).2 = false ∧ ∃ left', (c.call Z a).1.Holds held left' := by
  have hlt := h.left_lt
  rcases pwrite_not_whole held left hw with hfail | ⟨k, hk, hshort, hwrite⟩
  · -- nothing was written
    have hcall : c.call Z a = ({ c with log := a.entry }, false) := by
      simp only [Commitlog.call, append, h.isOpen, h.file_eq, hfail, pwrite]
      rfl
    rw [hcall]
    exact ⟨rfl, left, h.isOpen, h.file_eq, h.offset_eq, hlt⟩
  · -- a short write, and the cut behind the held bytes works or not
    rw [length_encodeEntry] at hshort
    have hne : ¬ (k : Int) = 36 := by omega
    have hneg : ¬ (k : Int) = -1 := by omega
    have hcall : c.call Z a =
        ({ c with
            log := a.entry
            file := some (ftruncate (held ++ stored left ((encodeEntry Z a.entry).take k))
              held.length a.io.ftruncate) }, false) := by
      rw [hk] at hwrite
      simp only [Commitlog.call, append, h.isOpen, h.file_eq, h.offset_eq, hk, hwrite, if_neg hne,
        if_neg hneg]
    rw [hcall]
    cases a.io.ftruncate with
    | true =>
      rw [ftruncate_held]
      exact ⟨rfl, [], h.isOpen, by rw [List.append_nil], h.offset_eq, by decide⟩
    | false =>
      refine ⟨rfl, stored left ((encodeEntry Z a.entry).take k), h.isOpen, rfl, h.offset_eq, ?_⟩
      rw [stored, List.length_append, List.length_take, List.length_drop, length_encodeEntry]
      omega

/-- An append returns true with its record behind the held bytes and nothing behind it, or
false with the held bytes as they were. -/
theorem Commitlog.Holds.call (h : c.Holds held left) (a : CommitCall) :
    (c.call Z a).2 = true ∧ (c.call Z a).1.Holds (held ++ encodeEntry Z a.entry) [] ∨
      (c.call Z a).2 = false ∧ ∃ left', (c.call Z a).1.Holds held left' := by
  by_cases hw : a.io.pwrite.Whole (encodeEntry Z a.entry)
  · exact .inl (h.call_whole hw)
  · exact .inr (h.call_failed hw)

/-- A run of appends adds the acknowledged records behind the held bytes. -/
theorem Commitlog.Holds.run (h : c.Holds held left) (calls : List CommitCall) :
    ∃ left', (runCommits Z c calls).Holds
      (held ++ (ackedEntries Z c calls).flatMap (encodeEntry Z)) left' := by
  induction calls generalizing c held left with
  | nil =>
    refine ⟨left, ?_⟩
    rw [ackedEntries, List.flatMap_nil, List.append_nil]
    exact h
  | cons a calls ih =>
    rw [ackedEntries]
    rcases h.call a with ⟨hok, hnext⟩ | ⟨hfalse, left', hnext⟩
    · rw [if_pos hok, List.flatMap_cons, ← List.append_assoc]
      exact ih hnext
    · rw [if_neg (by rw [hfalse]; exact Bool.false_ne_true)]
      exact ih hnext

end Appending

/-! ## Re-opening -/

section Reopening

variable {Z : Zlib}

/-- The replay loop looks at complete records only. -/
theorem replayLoop_take (file : List UInt8) (out : Reply) :
    (replayLoop Z file fun _ => .full).exec { offset := 0, out } =
      (replayLoop Z (file.take (recordsEnd file)) fun _ => .full).exec { offset := 0, out } := by
  have hle := recordsEnd_le file
  refine Loop.exec_congr _ (fun s => 36 ∣ s.offset) ?_ ?_ (Nat.dvd_zero 36)
  · intro s hdvd
    have hlength : (file.take (recordsEnd file)).length = recordsEnd file :=
      List.length_take_of_le hle
    show replayTurn Z file (fun _ => .full) s =
      replayTurn Z (file.take (recordsEnd file)) (fun _ => .full) s
    by_cases hlen : file.length < s.offset + 36
    · have hshort : (file.take (recordsEnd file)).length < s.offset + 36 := by omega
      rw [replayTurn_end hlen, replayTurn_end hshort]
    · -- a whole record in the file lies in front of the end of the records
      have hin : s.offset + 36 ≤ recordsEnd file := by
        rw [recordsEnd]
        omega
      have hread : pread (file.take (recordsEnd file)) 36 s.offset .full =
          pread file 36 s.offset .full := by
        rw [pread, pread, List.drop_take, List.take_take,
          Nat.min_eq_left (by omega : 36 ≤ recordsEnd file - s.offset)]
      unfold replayTurn
      rw [if_neg hlen, if_neg (by omega : ¬ (file.take (recordsEnd file)).length < s.offset + 36),
        hread]
  · intro s s' hdvd hturn
    have hgoes : replayTurn Z file (fun _ => .full) s = .inl s' := hturn
    rw [(replayTurn_inl hgoes).1]
    exact Dvd.dvd.add hdvd (Nat.dvd_refl 36)

/-- A re-open of a file returns what it returns of its complete records alone. -/
theorem openOrCreate_take (file : List UInt8) :
    (({ file := some file } : Commitlog).openOrCreate Z {} {}).2 =
      (({ file := some (file.take (recordsEnd file)) } : Commitlog).openOrCreate Z {} {}).2 := by
  rw [Commitlog.openOrCreate_existing rfl, Commitlog.openOrCreate_existing rfl]
  simp only [Commitlog.replay, Bool.true_eq_false, if_false, replayLoop_take file]
  split <;> rfl

/-- The complete records of a file and then whole records, with less than a record behind:
these are what is read back. -/
theorem completeRecords_added (file : List UInt8) (es : List CommitEntry) {tail : List UInt8}
    (htail : tail.length < 36) :
    completeRecords (file.take (recordsEnd file) ++ es.flatMap (encodeEntry Z) ++ tail) =
      completeRecords file ++ es.map (encodeEntry Z) := by
  have hfront : (file.take (recordsEnd file)).length = 36 * (file.length / 36) :=
    List.length_take_of_le (recordsEnd_le file)
  -- a file is its complete records and less than one more
  have hrest : (file.drop (recordsEnd file)).length < 36 := by
    rw [List.length_drop, recordsEnd]
    omega
  have hwhole : completeRecords file = completeRecords (file.take (recordsEnd file)) := by
    have hread := Records.complete_append_of_length (by norm_num) hfront
      (file.drop (recordsEnd file))
    rw [List.take_append_drop, Records.complete_of_lt hrest, List.append_nil] at hread
    exact hread
  have hadded := Records.complete_append_of_length (by norm_num) hfront
    (es.flatMap (encodeEntry Z) ++ tail)
  rw [List.append_assoc, hwhole, ← completeRecords_written es htail]
  exact hadded

/-- A replay that returns true has found every record sound. -/
theorem replayLoop_sound {file : List UInt8} {s s' : ReplayState} (hbuf : s.buf.length = 36)
    (hexec : (replayLoop Z file fun _ => .full).exec s = (s', true)) :
    ∀ r ∈ s.left file, Sound Z r := by
  let read : Nat → ReadOutcome := fun _ => .full
  -- along the turns: one that does not go on, with a record left, returns false
  induction s using (replayLoop Z file fun _ => .full).induct with
  | turn s ih =>
    by_cases hlen : s.offset + 36 ≤ file.length
    · have hread : pread file 36 s.offset (read s.reads) = some (s.next file) := pread_next
      have hseen := s.stored_next hlen hbuf
      have hgoes : ∀ t, replayTurn Z file read s ≠ .inr (t, false) := by
        intro t hturn
        have hstop := hexec.symm.trans (Loop.exec_of_inr _ hturn)
        cases hstop
      by_cases hsound : Sound Z (s.next file)
      · by_cases hfollows : FollowsStep s.prevBatchNo s.prevState (readEntry (s.next file))
        · have hturn := replayTurn_follows hlen hread (hseen.symm ▸ hsound) (hseen.symm ▸ hfollows)
          rw [hseen] at hturn
          rw [s.left_of_le hlen]
          refine List.forall_mem_cons.mpr ⟨hsound, ?_⟩
          exact ih _ hturn (s.length_next hlen) ((Loop.exec_of_inl _ hturn).symm.trans hexec)
        · obtain ⟨t, hturn, -⟩ :=
            replayTurn_breaks hlen hread (hseen.symm ▸ hsound) (hseen.symm ▸ hfollows)
          exact absurd hturn (hgoes t)
      · obtain ⟨t, hturn, -⟩ := replayTurn_unsound hlen hread (hseen.symm ▸ hsound)
        exact absurd hturn (hgoes t)
    · rw [s.left_of_lt (Nat.lt_of_not_le hlen)]
      simp

theorem Commitlog.replay_sound {c : Commitlog} {file : List UInt8} {out : Reply}
    {io : OpenOrCreateIo} (hoffset : c.offset = 0) (hwhole : io.read = fun _ => .full)
    (hok : (c.replay Z file out io).2.2 = true) : ∀ r ∈ completeRecords file, Sound Z r := by
  revert hok
  unfold replay
  rw [hoffset, hwhole]
  split
  · intro hok
    cases hok
  · simp only
    split
    · rename_i hloop
      intro _
      exact replayLoop_sound (s := { offset := 0, out }) rfl (Prod.ext rfl hloop)
    · intro hok
      cases hok

/-- An `open_or_create` with whole reads that returns true has found every record sound. -/
theorem Commitlog.openOrCreate_sound {c : Commitlog} {out : Reply} {io : OpenOrCreateIo}
    (hoffset : c.offset = 0) (hwhole : io.read = fun _ => .full)
    (hok : (c.openOrCreate Z out io).2.2 = true) :
    ∀ r ∈ completeRecords (c.file.getD []), Sound Z r := by
  revert hok
  unfold openOrCreate
  split
  · intro hok
    cases hok
  · cases c.file with
    | none =>
      simp only
      split
      · intro hok
        cases hok
      · exact fun hok => replay_sound (c := { c with isOpen := true, file := some [] })
          hoffset hwhole hok
    | some file =>
      simp only
      split
      · intro hok
        cases hok
      · exact fun hok => replay_sound (c := { c with isOpen := true, file := some file })
          hoffset hwhole hok

/-- What is read back of records added to a file. -/
theorem entriesOf_added (file : List UInt8) (es : List CommitEntry) {tail : List UInt8}
    (htail : tail.length < 36) :
    entriesOf (file.take (recordsEnd file) ++ es.flatMap (encodeEntry Z) ++ tail) =
      entriesOf file ++ es := by
  have hread : readEntry ∘ encodeEntry Z = id := funext (readEntry_encodeEntry Z)
  rw [entriesOf, completeRecords_added file es htail, List.map_append, List.map_map, hread,
    List.map_id, entriesOf]

/-- The complete records end behind those that were added. -/
theorem recordsEnd_added (file : List UInt8) (es : List CommitEntry) {tail : List UInt8}
    (htail : tail.length < 36) :
    recordsEnd (file.take (recordsEnd file) ++ es.flatMap (encodeEntry Z) ++ tail) =
      (file.take (recordsEnd file) ++ es.flatMap (encodeEntry Z)).length := by
  have hfront : (file.take (recordsEnd file) ++ es.flatMap (encodeEntry Z)).length =
      36 * (file.length / 36 + es.length) := by
    rw [List.length_append, List.length_take_of_le (recordsEnd_le _), recordsEnd,
      Records.length_flatMap (length_encodeEntry Z)]
    ring
  rw [recordsEnd, List.length_append, hfront]
  omega

/-- Records added to sound ones are accepted where all of them together are legal. -/
theorem accepted_added {file : List UInt8} (h : ∀ r ∈ completeRecords file, Sound Z r)
    {es : List CommitEntry} {tail : List UInt8} (htail : tail.length < 36)
    (hlegal : Legal 0 0 (entriesOf file ++ es)) :
    Accepted Z (file.take (recordsEnd file) ++ es.flatMap (encodeEntry Z) ++ tail) := by
  refine ⟨fun r hr => ?_, ?_⟩
  · rw [completeRecords_added file es htail] at hr
    rcases List.mem_append.mp hr with hmem | hmem
    · exact h r hmem
    · obtain ⟨e, -, rfl⟩ := List.mem_map.mp hmem
      exact sound_encodeEntry Z e
  · have hentries := entriesOf_added (Z := Z) file es htail
    rw [entriesOf] at hentries
    rw [hentries]
    exact hlegal

end Reopening

/-- After a successful `open_or_create`, over every run of appends whatever their writes
and cuts do: the first `offset` bytes of the file are its records at open followed by the
records of the acknowledged entries, and less than a record follows them. So a re-open
reads the entries at open and the acknowledged ones and returns what it returns of these
alone. `append` does not look at the entry; where the reads of the first open were whole and
all the entries are legal, the re-open replays exactly them. -/
theorem commits_under_faults {Z : Zlib} {log : CommitEntry} {path : Option (List UInt8)}
    {out : Reply} {io : OpenOrCreateIo}
    (hok : (({ log, file := path } : Commitlog).openOrCreate Z out io).2.2 = true)
    (calls : List CommitCall) :
    let c := (({ log, file := path } : Commitlog).openOrCreate Z out io).1
    let c' := runCommits Z c calls
    let es := ackedEntries Z c calls
    ∃ file, c'.file = some file ∧
      c'.offset = c.offset + 36 * es.length ∧
      file.take c'.offset = (path.getD []).take c.offset ++ es.flatMap (encodeEntry Z) ∧
      (c'.offset ≤ file.length ∧ file.length < c'.offset + 36) ∧
      entriesOf file = entriesOf (path.getD []) ++ es ∧
      (({ file := some file } : Commitlog).openOrCreate Z {} {}).2 =
        (({ file := some (file.take c'.offset) } : Commitlog).openOrCreate Z {} {}).2 ∧
      (io.read = (fun _ => .full) → Legal 0 0 (entriesOf (path.getD []) ++ es) →
        (({ file := some file } : Commitlog).openOrCreate Z {} {}).2 =
          (replyOf (entriesOf (path.getD []) ++ es), true)) := by
  intro c c' es
  obtain ⟨left, hopened⟩ := Commitlog.openOrCreate_holds (c := { log, file := path }) rfl hok
  obtain ⟨left', hholds⟩ := hopened.run calls
  have hlt := hholds.left_lt
  have hoffset : c.offset = recordsEnd (path.getD []) := by
    rw [hopened.offset_eq, List.length_take_of_le (recordsEnd_le _)]
  have hheld : ((path.getD []).take (recordsEnd (path.getD [])) ++
      es.flatMap (encodeEntry Z)).length = c'.offset := hholds.offset_eq.symm
  -- what a re-open reads
  have hentries := entriesOf_added (Z := Z) (path.getD []) es hlt
  refine ⟨_, hholds.file_eq, ?_, ?_, ⟨?_, ?_⟩, hentries, ?_, ?_⟩
  · rw [← hheld, List.length_append, List.length_take_of_le (recordsEnd_le _), hoffset,
      Records.length_flatMap (length_encodeEntry Z)]
  · rw [hoffset]
    exact List.take_left' hheld
  · rw [List.length_append, hheld]
    omega
  · rw [List.length_append, hheld]
    omega
  · -- the offset is the end of the complete records
    rw [← hheld, ← recordsEnd_added (path.getD []) es hlt]
    exact openOrCreate_take _
  · intro hwhole hlegal
    have hsound := Commitlog.openOrCreate_sound (c := { log, file := path }) rfl hwhole hok
    have hreopen := Commitlog.openOrCreate_accepted (c := { file := some _ }) rfl rfl
      (accepted_added hsound hlt hlegal)
    rw [hreopen, hentries]

/-- A record cut short whose rollback fails, and the append after it. -/
theorem commits_under_faults_short :
    let c := (({ file := none } : Commitlog).openOrCreate zlib {} {}).1
    let calls : List CommitCall :=
      [⟨{ batchNo := 1, state := 0 }, { pwrite := .short 20, ftruncate := false }⟩,
        ⟨{ batchNo := 1, state := 1 }, {}⟩]
    let es := ackedEntries zlib c calls
    ∃ file, (runCommits zlib c calls).file = some file ∧
      (runCommits zlib c calls).offset = c.offset + 36 * es.length ∧
      entriesOf file = entriesOf [] ++ es ∧
      (({ file := some file } : Commitlog).openOrCreate zlib {} {}).2 =
        (replyOf (entriesOf [] ++ es), true) := by
  obtain ⟨file, hfile, hoffset, -, -, hentries, -, hreopen⟩ :=
    @commits_under_faults zlib {} none {} {} (by decide +kernel)
      [⟨{ batchNo := 1, state := 0 }, { pwrite := .short 20, ftruncate := false }⟩,
        ⟨{ batchNo := 1, state := 1 }, {}⟩]
  exact ⟨file, hfile, hoffset, hentries, hreopen rfl (by decide +kernel)⟩

/-- The entry appended to a fresh log is of batch 5: the append returns true, and a re-open
returns false and reports the log corrupt. -/
theorem commits_under_faults_batch :
    let c := (({ file := none } : Commitlog).openOrCreate zlib {} {}).1
    let calls : List CommitCall := [⟨{ batchNo := 5 }, {}⟩]
    ackedEntries zlib c calls = [{ batchNo := 5 }] ∧
      ∃ file, (runCommits zlib c calls).file = some file ∧
        (({ file := some file } : Commitlog).openOrCreate zlib {} {}).2 =
          ({ corrupt := true }, false) := by
  intro c calls
  have hrun : ackedEntries zlib c calls = [{ batchNo := 5 }] ∧
      (runCommits zlib c calls).file.any (fun file =>
        decide ((({ file := some file } : Commitlog).openOrCreate zlib {} {}).2 =
          ({ corrupt := true }, false))) = true := by
    decide +kernel
  obtain ⟨hacked, hreopen⟩ := hrun
  obtain ⟨file, hfile, hrefused⟩ := (Option.any_eq_true _ _).mp hreopen
  exact ⟨hacked, file, hfile, of_decide_eq_true hrefused⟩

end ServiceInfra
