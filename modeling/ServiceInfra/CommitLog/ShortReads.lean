import ServiceInfra.CommitLog.Faults

/-!
# Short reads of a commit log

`open_or_create` reads every record into one buffer and looks only for -1, so a read that
returns fewer bytes leaves the end of the record before it in the buffer. That record is
sound, and repeating it is allowed: a read that returns nothing passes for it. `StaleNoticed`
is the condition on the records and the reads that nothing of the kind is accepted.

Main results:
- `everyTurn_iff`: the replay accepts only records of the file exactly under the condition
- `openOrCreate_shortReads_iff`: so for `open_or_create`, which then replies as with full reads
- `staleNoticed_full`, `not_staleNoticed_empty`: full reads, and reads that return nothing
- `openOrCreate_shortReads_skipped`: a log whose second record is skipped
-/

namespace ServiceInfra

open Library

/-! ## Definitions -/

/-- The file that `open_or_create` replays, where it gets that far. -/
def Commitlog.replayed (c : Commitlog) (io : OpenOrCreateIo) : Option (List UInt8) :=
  if io.creat = false ∨ io.fstat = false then none
  else
    match c.file with
    | none => if io.fsyncDir then some [] else none
    | some file => if io.open_ then some file else none

/-- What the reads return makes no difference: an `open_or_create` that returns true replies
as with full reads, and each turn of its loop that accepts a record accepts the one that
stands at its offset. -/
structure Commitlog.RepliesAsFull (Z : Zlib) (c : Commitlog) (out : Reply) (io : OpenOrCreateIo) :
    Prop where
  reply_eq : (c.openOrCreate Z out io).2.2 = true →
    (c.openOrCreate Z out io).2.1 = (c.openOrCreate Z out { io with read := fun _ => .full }).2.1
  records : ∀ file, c.replayed io = some file →
    (replayLoop Z file io.read).EveryTurn (fun s s' => s'.buf = s.next file)
      { offset := c.offset, out }

/-- The records are read from the `k`-th read on, behind a record `before` of batch `batch` in
state `state`. Where a read is short the end of `before` stands behind what it returned; if
that passes for a record then it is the record, and so on behind it. -/
def StaleNoticed (Z : Zlib) (read : Nat → ReadOutcome) :
    Nat → UInt64 → UInt8 → List UInt8 → List (List UInt8) → Prop
  | _, _, _, _, [] => True
  | k, batch, state, before, r :: rs =>
      match pread r 36 0 (read k) with
      | none => True
      | some bytes =>
          Sound Z (stored before bytes) →
            FollowsStep batch state (readEntry (stored before bytes)) →
              stored before bytes = r ∧
                StaleNoticed Z read (k + 1) (readEntry r).batchNo (readEntry r).state r rs

/-! ## The loop -/

section Turns

variable {Z : Zlib} {file : List UInt8} {read : Nat → ReadOutcome} {s s' : ReplayState}

/-- A read at the offset is one of the record there. -/
theorem pread_eq_next (file : List UInt8) (s : ReplayState) (o : ReadOutcome) :
    pread file 36 s.offset o = pread (s.next file) 36 0 o := by
  cases o with
  | full => simp [pread, ReplayState.next]
  | short k => simp [pread, ReplayState.next, List.take_take]
  | fail => rfl

/-- A turn at a record accepts what it has read, or refuses it and ends the replay. -/
theorem replayTurn_cases (Z : Zlib) (read : Nat → ReadOutcome)
    (hlen : s.offset + 36 ≤ file.length) :
    (∃ bytes, pread file 36 s.offset (read s.reads) = some bytes ∧ Sound Z (stored s.buf bytes) ∧
      FollowsStep s.prevBatchNo s.prevState (readEntry (stored s.buf bytes)) ∧
      replayTurn Z file read s = .inl (s.past (stored s.buf bytes))) ∨
    (∃ t, replayTurn Z file read s = .inr (t, false)) ∧
      ∀ bytes, pread file 36 s.offset (read s.reads) = some bytes → Sound Z (stored s.buf bytes) →
        ¬ FollowsStep s.prevBatchNo s.prevState (readEntry (stored s.buf bytes)) := by
  cases hread : pread file 36 s.offset (read s.reads) with
  | none =>
    obtain ⟨t, hturn, -⟩ := replayTurn_unread (Z := Z) hlen hread
    exact .inr ⟨⟨t, hturn⟩, fun bytes h => by cases h⟩
  | some bytes =>
    by_cases hsound : Sound Z (stored s.buf bytes)
    · by_cases hfollows : FollowsStep s.prevBatchNo s.prevState (readEntry (stored s.buf bytes))
      · exact .inl ⟨bytes, rfl, hsound, hfollows, replayTurn_follows hlen hread hsound hfollows⟩
      · obtain ⟨t, hturn, -⟩ := replayTurn_breaks hlen hread hsound hfollows
        refine .inr ⟨⟨t, hturn⟩, fun bytes' h _ => ?_⟩
        cases h
        exact hfollows
    · obtain ⟨t, hturn, -⟩ := replayTurn_unsound hlen hread hsound
      refine .inr ⟨⟨t, hturn⟩, fun bytes' h hsound' => ?_⟩
      cases h
      exact absurd hsound' hsound

/-- From any state on, the loop accepts only records of the file exactly under the condition. -/
theorem everyTurn_iff (s : ReplayState) :
    (replayLoop Z file read).EveryTurn (fun s s' => s'.buf = s.next file) s ↔
      StaleNoticed Z read s.reads s.prevBatchNo s.prevState s.buf (s.left file) := by
  -- along the turns, each of which takes one record off the left ones
  induction s using (replayLoop Z file read).induct with
  | turn s ih =>
    by_cases hlen : s.offset + 36 ≤ file.length
    · rw [s.left_of_le hlen, StaleNoticed, ← pread_eq_next]
      rcases replayTurn_cases Z read hlen with
        ⟨bytes, hread, hsound, hfollows, hturn⟩ | ⟨⟨t, hturn⟩, hrefused⟩
      · -- the replay goes on with what the buffer holds
        rw [Loop.everyTurn_of_inl _ hturn, ih _ hturn, hread]
        simp only [hsound, hfollows, true_implies]
        apply and_congr_right
        intro hsame
        have hsame : stored s.buf bytes = s.next file := hsame
        have hleft : (s.past (stored s.buf bytes)).left file = (s.moved file).left file := rfl
        rw [hleft, hsame]
        rfl
      · apply iff_of_true (Loop.everyTurn_of_inr _ hturn)
        cases hread : pread file 36 s.offset (read s.reads) with
        | none => trivial
        | some bytes => exact fun hsound hfollows => absurd hfollows (hrefused bytes hread hsound)
    · have hend := replayTurn_end (Z := Z) (Nat.lt_of_not_le hlen) read
      rw [s.left_of_lt (Nat.lt_of_not_le hlen)]
      exact iff_of_true (Loop.everyTurn_of_inr _ hend) trivial

/-- A turn that accepts the record at its offset is a turn with full reads. -/
theorem replayTurn_full (hbuf : s.buf.length = 36) (h : replayTurn Z file read s = .inl s')
    (hrecord : s'.buf = s.next file) : replayTurn Z file (fun _ => .full) s = .inl s' := by
  have hlen := (replayTurn_inl h).2
  rcases replayTurn_cases Z read hlen with
    ⟨bytes, -, hsound, hfollows, hturn⟩ | ⟨⟨t, hturn⟩, -⟩
  · rw [h] at hturn
    cases hturn
    have hsame : stored s.buf bytes = s.next file := hrecord
    have hseen := s.stored_next hlen hbuf
    rw [hsame, ← hseen] at hsound hfollows ⊢
    exact replayTurn_follows hlen pread_next hsound hfollows
  · rw [h] at hturn
    cases hturn

/-- A loop that returns true and accepts only records of the file ends as with full reads. -/
theorem replayLoop_full (hbuf : s.buf.length = 36)
    (hevery : (replayLoop Z file read).EveryTurn (fun s s' => s'.buf = s.next file) s)
    (hexec : (replayLoop Z file read).exec s = (s', true)) :
    (replayLoop Z file fun _ => .full).exec s = (s', true) := by
  induction s using (replayLoop Z file read).induct with
  | turn s ih =>
    cases hturn : replayTurn Z file read s with
    | inl t =>
      rw [Loop.exec_of_inl _ hturn] at hexec
      rw [Loop.everyTurn_of_inl _ hturn] at hevery
      obtain ⟨hrecord, hrest⟩ := hevery
      have hlength : t.buf.length = 36 := by
        rw [hrecord]
        exact s.length_next (replayTurn_inl hturn).2
      rw [Loop.exec_of_inl _ (replayTurn_full hbuf hturn hrecord)]
      exact ih t hturn hlength hrest hexec
    | inr r =>
      have hr := (Loop.exec_of_inr _ hturn).symm.trans hexec
      rw [hr] at hturn
      -- the only way out that returns true is the end of the file
      obtain ⟨rfl, hlen⟩ := replayTurn_true hturn
      have hend := replayTurn_end (Z := Z) hlen fun _ => .full
      exact Loop.exec_of_inr _ hend

end Turns

/-! ## The whole call -/

section OpenOrCreate

variable {Z : Zlib} {c : Commitlog} {out : Reply} {io : OpenOrCreateIo}

theorem Commitlog.replay_snd (file : List UInt8) (h : io.fstat = true) :
    (c.replay Z file out io).2 =
      let r := (replayLoop Z file io.read).exec { offset := c.offset, out }
      (r.1.out, r.2) := by
  unfold replay
  rw [h]
  simp only [Bool.true_eq_false, if_false]
  split
  · rename_i hok
    rw [hok]
  · rename_i hok
    rw [Bool.eq_false_iff.mpr hok]

/-- Where the call gets to its loop, that decides what it replies; elsewhere it fails. -/
theorem Commitlog.openOrCreate_snd (Z : Zlib) (c : Commitlog) (out : Reply) (io : OpenOrCreateIo) :
    match c.replayed io with
    | some file =>
        (c.openOrCreate Z out io).2 =
          let r := (replayLoop Z file io.read).exec { offset := c.offset, out }
          (r.1.out, r.2)
    | none => (c.openOrCreate Z out io).2.2 = false := by
  unfold replayed openOrCreate
  cases hcreat : io.creat with
  | false => simp
  | true =>
    cases hfstat : io.fstat with
    | false =>
      cases hfile : c.file with
      | none => simp [replay, hfstat]
      | some file =>
        simp only [replay, hfstat, or_true, if_true, Bool.true_eq_false, if_false]
        split <;> rfl
    | true =>
      cases hfile : c.file with
      | none =>
        cases hdir : io.fsyncDir with
        | false => simp
        | true => simpa using replay_snd _ hfstat
      | some file =>
        cases hopen : io.open_ with
        | false => simp
        | true => simpa using replay_snd _ hfstat

/-- For any log, whatever its system calls do: `open_or_create` replies as with full reads and
accepts only records of the file, exactly when no short read leaves a record in the buffer
that passes for the one it was to read. -/
theorem openOrCreate_shortReads_iff (Z : Zlib) (c : Commitlog) (out : Reply)
    (io : OpenOrCreateIo) :
    c.RepliesAsFull Z out io ↔
      ∀ file, c.replayed io = some file →
        StaleNoticed Z io.read 0 0 0 (List.replicate 36 0)
          (completeRecords (file.drop c.offset)) := by
  constructor
  · intro h file hfile
    exact (everyTurn_iff _).mp (h.records file hfile)
  · intro h
    refine ⟨fun hok => ?_, fun file hfile => (everyTurn_iff _).mpr (h file hfile)⟩
    have hcall := c.openOrCreate_snd Z out io
    have hfull := c.openOrCreate_snd Z out { io with read := fun _ => .full }
    have hsame : c.replayed { io with read := fun _ => .full } = c.replayed io := rfl
    rw [hsame] at hfull
    cases hfile : c.replayed io with
    | none =>
      rw [hfile] at hcall
      exact absurd (hok.symm.trans hcall) (by simp)
    | some file =>
      rw [hfile] at hcall hfull
      -- a loop that returns true under the condition ends as with full reads
      have hevery := (everyTurn_iff { offset := c.offset, out }).mpr (h file hfile)
      rw [hcall] at hok ⊢
      rw [hfull]
      have hexec := replayLoop_full rfl hevery (Prod.ext rfl hok)
      simp only [hexec]

end OpenOrCreate

/-! ## Which short reads are noticed -/

/-- Any record may be repeated. -/
theorem FollowsStep.repeat {batch : UInt64} {state : UInt8} {e : CommitEntry}
    (h : FollowsStep batch state e) : FollowsStep e.batchNo e.state e :=
  ⟨.inl ⟨rfl, UInt8.le_refl _⟩, h.2⟩

/-- Full reads leave nothing of the record before. -/
theorem staleNoticed_full (Z : Zlib) {k : Nat} {batch : UInt64} {state : UInt8}
    {before : List UInt8} {rs : List (List UInt8)} (hbefore : before.length = 36)
    (hrs : ∀ r ∈ rs, r.length = 36) :
    StaleNoticed Z (fun _ => .full) k batch state before rs := by
  induction rs generalizing k batch state before with
  | nil => trivial
  | cons r rs ih =>
    obtain ⟨hr, hrs⟩ := List.forall_mem_cons.mp hrs
    have hread : pread r 36 0 .full = some r := by
      simp [pread, List.take_of_length_le hr.le]
    have hstored : stored before r = r := by
      rw [stored, List.drop_of_length_le (by omega), List.append_nil]
    rw [StaleNoticed, hread]
    intro _ _
    exact ⟨hstored, ih hr hrs⟩

/-- Behind a record that the replay accepted, a read that returns nothing is never noticed. -/
theorem not_staleNoticed_empty {Z : Zlib} {read : Nat → ReadOutcome} {k : Nat} {batch : UInt64}
    {state : UInt8} {before r : List UInt8} {rs : List (List UInt8)} (hread : read k = .short 0)
    (hsound : Sound Z before) (hfollows : FollowsStep batch state (readEntry before))
    (hne : before ≠ r) :
    ¬ StaleNoticed Z read k (readEntry before).batchNo (readEntry before).state before
      (r :: rs) := by
  have hempty : pread r 36 0 (read k) = some [] := by simp [hread, pread]
  have hstale : stored before [] = before := rfl
  rw [StaleNoticed, hempty]
  simp only [hstale]
  intro h
  exact hne (h hsound hfollows.repeat).1

/-- A log of two batches, where the read of the second returns 0: it replies batch 1. -/
theorem openOrCreate_shortReads_skipped :
    let file := encodeEntry zlib { batchNo := 1 } ++ encodeEntry zlib { batchNo := 2 }
    ¬ ({ file := some file } : Commitlog).RepliesAsFull zlib {}
      { read := fun k => if k = 1 then .short 0 else .full } := by
  intro file h
  have hreply := h.reply_eq (by decide +kernel)
  revert hreply
  decide +kernel

end ServiceInfra
