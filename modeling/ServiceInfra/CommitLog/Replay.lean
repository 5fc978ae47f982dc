import ServiceInfra.CommitLog.Log
import ServiceInfra.Library.Records

/-!
# The grammar of a commit log

The abstract reading of a commit log: its complete records, each with a sound checksum,
whose entries are `Legal` from batch 0 in state 0 on, and the summary `replyOf` of a
list of entries. `open_or_create` accepts exactly these files and computes that summary;
any other file it reports as corrupt and leaves as it was.

Main results:
- `replayLoop_accepted`, `replayLoop_rejected`: the loop, by induction along its turns
- `openOrCreate_replay`: replay accepts exactly the grammar and computes its summary
-/

namespace ServiceInfra

open Library

/-! ## The grammar and the summary -/

/-- An entry may follow batch `batch` in state `state`: it keeps the batch without
lowering the state, or begins the next batch. -/
def LegalStep (batch : Nat) (state : UInt8) (e : CommitEntry) : Prop :=
  (e.batchNo.toNat = batch ∧ state ≤ e.state ∨ e.batchNo.toNat = batch + 1) ∧ e.state ≤ 2

/-- The rules of the replay for batch and state, in the arithmetic of the source. -/
def FollowsStep (batch : UInt64) (state : UInt8) (e : CommitEntry) : Prop :=
  (batch = e.batchNo ∧ state ≤ e.state ∨ batch + 1 = e.batchNo) ∧ e.state ≤ 2

/-- A list of entries may follow batch `batch` in state `state`. -/
def Legal : Nat → UInt8 → List CommitEntry → Prop
  | _, _, [] => True
  | batch, state, e :: es => LegalStep batch state e ∧ Legal e.batchNo.toNat e.state es

instance (batch : Nat) (state : UInt8) (e : CommitEntry) : Decidable (LegalStep batch state e) :=
  inferInstanceAs (Decidable ((_ ∧ _ ∨ _) ∧ _))

instance decidableLegal : (batch : Nat) → (state : UInt8) → (es : List CommitEntry) →
    Decidable (Legal batch state es)
  | _, _, [] => inferInstanceAs (Decidable True)
  | batch, state, e :: es =>
      have := decidableLegal e.batchNo.toNat e.state es
      inferInstanceAs (Decidable (LegalStep batch state e ∧ Legal e.batchNo.toNat e.state es))

/-- What a list of entries comes to: the batch and the epoch of the last, and the highest
candidate mark among those that are credited or published. -/
def replyOf (es : List CommitEntry) : Reply where
  lastBatchNo := (es.getLast?.map CommitEntry.batchNo).getD 0
  creditHw := ((es.filter (1 ≤ ·.state)).map CommitEntry.candidateHw).foldl max 0
  lastEpoch := (es.getLast?.map CommitEntry.epoch).getD 0

/-- The complete records of a file. -/
def completeRecords (file : List UInt8) : List (List UInt8) := Records.complete 36 file

/-- The entries of the complete records. -/
def entriesOf (file : List UInt8) : List CommitEntry := (completeRecords file).map readEntry

/-- Sound records whose entries may follow batch `batch` in state `state`. -/
structure AcceptedFrom (Z : Zlib) (batch : Nat) (state : UInt8) (rs : List (List UInt8)) :
    Prop where
  sound : ∀ r ∈ rs, Sound Z r
  legal : Legal batch state (rs.map readEntry)

/-- A file that replay accepts. -/
def Accepted (Z : Zlib) (file : List UInt8) : Prop := AcceptedFrom Z 0 0 (completeRecords file)

theorem acceptedFrom_cons {Z : Zlib} {batch : Nat} {state : UInt8} {r : List UInt8}
    {rs : List (List UInt8)} :
    AcceptedFrom Z batch state (r :: rs) ↔
      (Sound Z r ∧ LegalStep batch state (readEntry r)) ∧
        AcceptedFrom Z (readEntry r).batchNo.toNat (readEntry r).state rs := by
  constructor
  · rintro ⟨hsound, hstep, hlegal⟩
    obtain ⟨hr, hrs⟩ := List.forall_mem_cons.mp hsound
    exact ⟨⟨hr, hstep⟩, hrs, hlegal⟩
  · rintro ⟨⟨hr, hstep⟩, hrs, hlegal⟩
    exact ⟨List.forall_mem_cons.mpr ⟨hr, hrs⟩, hstep, hlegal⟩

/-- Adding one to the batch never wraps where the next batch has a number. -/
theorem LegalStep.follows {batch : UInt64} {state : UInt8} {e : CommitEntry}
    (h : LegalStep batch.toNat state e) : FollowsStep batch state e := by
  obtain ⟨⟨hkeep, hmono⟩ | hnext, hstate⟩ := h
  · exact ⟨.inl ⟨UInt64.toNat_inj.mp hkeep.symm, hmono⟩, hstate⟩
  · have hlt := e.batchNo.toNat_lt
    refine ⟨.inr ?_, hstate⟩
    apply UInt64.toNat_inj.mp
    rw [UInt64.toNat_add, hnext, UInt64.toNat_one, Nat.mod_eq_of_lt (by omega)]

/-- The source would accept batch 0 behind the last number of all. -/
theorem FollowsStep.legal {batch : UInt64} {state : UInt8} {e : CommitEntry}
    (h : FollowsStep batch state e) (hwrap : batch.toNat < 2 ^ 64 - 1) :
    LegalStep batch.toNat state e := by
  obtain ⟨⟨rfl, hmono⟩ | hsucc, hstate⟩ := h
  · exact ⟨.inl ⟨rfl, hmono⟩, hstate⟩
  · refine ⟨.inr ?_, hstate⟩
    rw [← hsucc, UInt64.toNat_add, UInt64.toNat_one, Nat.mod_eq_of_lt (by omega)]

/-! ## The summary as a fold -/

theorem max_eq_ite (a b : UInt64) : max a b = if a < b then b else a := by
  show (if a ≤ b then b else a) = _
  by_cases hlt : a < b
  · rw [if_pos hlt, if_pos (UInt64.le_of_lt hlt)]
  · rw [if_neg hlt]
    split
    · rename_i hle
      exact UInt64.le_antisymm (UInt64.not_lt.mp hlt) hle
    · rfl

theorem replyOf_append (es : List CommitEntry) (e : CommitEntry) :
    replyOf (es ++ [e]) = (replyOf es).record e := by
  have hlast : (es ++ [e]).getLast? = some e := List.getLast?_concat
  rw [replyOf, hlast, List.filter_append, List.map_append, List.foldl_append]
  -- the mark counts only from an entry that is credited or published
  by_cases hstate : 1 ≤ e.state
  · have hkeep : [e].filter (1 ≤ ·.state) = [e] := by simp [hstate]
    rw [hkeep]
    simp only [List.map_cons, List.map_nil, List.foldl_cons, List.foldl_nil, Option.map_some,
      Option.getD_some, Reply.record, replyOf, hstate, true_and, max_eq_ite]
    split <;> rfl
  · have hdrop : [e].filter (1 ≤ ·.state) = [] := by simp [hstate]
    rw [hdrop]
    simp only [List.map_nil, List.foldl_nil, Option.map_some, Option.getD_some, Reply.record,
      replyOf, hstate, false_and, if_false]

theorem foldl_record (es : List CommitEntry) : es.foldl Reply.record {} = replyOf es := by
  -- the summary looks at the last entry, so the induction takes it off the end
  induction es using List.reverseRecOn with
  | nil => rfl
  | append_singleton es e ih =>
    rw [List.foldl_append, ih, replyOf_append, List.foldl_cons, List.foldl_nil]

/-! ## One turn -/

section Turn

variable {Z : Zlib} {file bytes : List UInt8} {read : Nat → ReadOutcome} {s : ReplayState}

/-- The state after a turn that accepted the record `buf`. -/
def ReplayState.past (s : ReplayState) (buf : List UInt8) : ReplayState :=
  { s with
    buf
    reads := s.reads + 1
    offset := s.offset + 36
    prevBatchNo := (readEntry buf).batchNo
    prevState := (readEntry buf).state
    out := s.out.record (readEntry buf) }

/-- The record at which the loop stands. -/
def ReplayState.next (s : ReplayState) (file : List UInt8) : List UInt8 :=
  (file.drop s.offset).take 36

/-- The state after a faultless turn that accepted the next record. -/
def ReplayState.moved (s : ReplayState) (file : List UInt8) : ReplayState :=
  { s with
    buf := s.next file
    reads := s.reads + 1
    offset := s.offset + 36
    prevBatchNo := (readEntry (s.next file)).batchNo
    prevState := (readEntry (s.next file)).state
    out := s.out.record (readEntry (s.next file)) }

@[simp] theorem ReplayState.moved_offset : (s.moved file).offset = s.offset + 36 := rfl

theorem replayTurn_end (h : file.length < s.offset + 36) (read : Nat → ReadOutcome) :
    replayTurn Z file read s = .inr (s, true) := by
  rw [replayTurn, if_pos h]

/-- A read that fails stops the replay at its record. -/
theorem replayTurn_unread (hlen : s.offset + 36 ≤ file.length)
    (hread : pread file 36 s.offset (read s.reads) = none) :
    ∃ s', replayTurn Z file read s = .inr (s', false) ∧
      s'.offset = s.offset ∧ s'.out.corrupt = true := by
  unfold replayTurn
  rw [if_neg (Nat.not_lt.mpr hlen), hread]
  exact ⟨_, rfl, rfl, rfl⟩

/-- A wrong checksum stops the replay at the record. -/
theorem replayTurn_unsound (hlen : s.offset + 36 ≤ file.length)
    (hread : pread file 36 s.offset (read s.reads) = some bytes)
    (hsound : ¬ Sound Z (stored s.buf bytes)) :
    ∃ s', replayTurn Z file read s = .inr (s', false) ∧
      s'.offset = s.offset ∧ s'.out.corrupt = true := by
  unfold replayTurn
  rw [if_neg (Nat.not_lt.mpr hlen), hread]
  simp only [hsound, not_false_eq_true, if_true]
  exact ⟨_, rfl, rfl, rfl⟩

/-- A record that keeps the rules is passed. -/
theorem replayTurn_follows (hlen : s.offset + 36 ≤ file.length)
    (hread : pread file 36 s.offset (read s.reads) = some bytes)
    (hsound : Sound Z (stored s.buf bytes))
    (hfollows : FollowsStep s.prevBatchNo s.prevState (readEntry (stored s.buf bytes))) :
    replayTurn Z file read s = .inl (s.past (stored s.buf bytes)) := by
  obtain ⟨hbatch, hstate⟩ := hfollows
  have hle : ¬ 2 < (readEntry (stored s.buf bytes)).state := UInt8.not_lt.mpr hstate
  unfold replayTurn
  rw [if_neg (Nat.not_lt.mpr hlen), hread]
  simp only [hsound, not_true_eq_false, if_false, hle, or_false]
  by_cases hkeep : s.prevBatchNo = (readEntry (stored s.buf bytes)).batchNo
  · -- the batch is kept: adding one gives another number, wrapped or not
    have hmono : s.prevState ≤ (readEntry (stored s.buf bytes)).state := by
      rcases hbatch with ⟨-, hmono⟩ | hsucc
      · exact hmono
      · rw [hkeep] at hsucc
        exact absurd hsucc (by simp)
    rw [if_pos hkeep, if_neg (UInt8.not_lt.mpr hmono)]
    rfl
  · have hsucc : s.prevBatchNo + 1 = (readEntry (stored s.buf bytes)).batchNo :=
      hbatch.resolve_left fun h => hkeep h.1
    rw [if_neg hkeep, if_pos hsucc]
    rfl

/-- A record that breaks them stops the replay behind it. -/
theorem replayTurn_breaks (hlen : s.offset + 36 ≤ file.length)
    (hread : pread file 36 s.offset (read s.reads) = some bytes)
    (hsound : Sound Z (stored s.buf bytes))
    (hbreaks : ¬ FollowsStep s.prevBatchNo s.prevState (readEntry (stored s.buf bytes))) :
    ∃ s', replayTurn Z file read s = .inr (s', false) ∧
      s'.offset = s.offset + 36 ∧ s'.out.corrupt = true := by
  unfold replayTurn
  rw [if_neg (Nat.not_lt.mpr hlen), hread]
  simp only [hsound, not_true_eq_false, if_false]
  split
  · rename_i hkeep
    split
    · exact ⟨_, rfl, rfl, rfl⟩
    · rename_i hstate
      rw [not_or, UInt8.not_lt, UInt8.not_lt] at hstate
      exact absurd ⟨.inl ⟨hkeep, hstate.1⟩, hstate.2⟩ hbreaks
  · split
    · rename_i hsucc
      split
      · exact ⟨_, rfl, rfl, rfl⟩
      · rename_i hstate
        exact absurd ⟨.inr hsucc, UInt8.not_lt.mp hstate⟩ hbreaks
    · exact ⟨_, rfl, rfl, rfl⟩

theorem ReplayState.length_next (hlen : s.offset + 36 ≤ file.length) :
    (s.next file).length = 36 := by
  rw [next, List.length_take, List.length_drop]
  omega

/-- A faultless read replaces the whole buffer. -/
theorem ReplayState.stored_next (hlen : s.offset + 36 ≤ file.length) (hbuf : s.buf.length = 36) :
    stored s.buf (s.next file) = s.next file := by
  rw [stored, s.length_next hlen, List.drop_of_length_le hbuf.le, List.append_nil]

theorem pread_next : pread file 36 s.offset .full = some (s.next file) := rfl

/-- A turn at a record that the grammar allows moves past it. -/
theorem replayTurn_accepted (hlen : s.offset + 36 ≤ file.length) (hbuf : s.buf.length = 36)
    (hsound : Sound Z (s.next file))
    (hlegal : LegalStep s.prevBatchNo.toNat s.prevState (readEntry (s.next file))) :
    replayTurn Z file (fun _ => .full) s = .inl (s.moved file) := by
  have hseen := s.stored_next hlen hbuf
  have hturn : replayTurn Z file (fun _ => .full) s = .inl (s.past (stored s.buf (s.next file))) :=
    replayTurn_follows hlen pread_next (hseen.symm ▸ hsound) (hseen.symm ▸ hlegal.follows)
  rw [hseen] at hturn
  exact hturn

/-- A turn at any other record leaves with `corrupt`, unless the batch number wraps. -/
theorem replayTurn_rejected (hlen : s.offset + 36 ≤ file.length) (hbuf : s.buf.length = 36)
    (hwrap : s.prevBatchNo.toNat < 2 ^ 64 - 1)
    (h : ¬ (Sound Z (s.next file) ∧
      LegalStep s.prevBatchNo.toNat s.prevState (readEntry (s.next file)))) :
    ∃ s', replayTurn Z file (fun _ => .full) s = .inr (s', false) ∧ s'.out.corrupt = true := by
  have hseen := s.stored_next hlen hbuf
  let read : Nat → ReadOutcome := fun _ => .full
  have hread : pread file 36 s.offset (read s.reads) = some (s.next file) := pread_next
  by_cases hsound : Sound Z (s.next file)
  · -- the record is sound, so it breaks the rules for batch and state
    have hbreaks : ¬ FollowsStep s.prevBatchNo s.prevState (readEntry (s.next file)) :=
      fun hfollows => h ⟨hsound, hfollows.legal hwrap⟩
    have hturn := replayTurn_breaks hlen hread (hseen.symm ▸ hsound) (hseen.symm ▸ hbreaks)
    exact hturn.imp fun s' h => ⟨h.1, h.2.2⟩
  · have hturn := replayTurn_unsound hlen hread (hseen.symm ▸ hsound)
    exact hturn.imp fun s' h => ⟨h.1, h.2.2⟩

end Turn

/-! ## The whole replay -/

section Replay

variable {Z : Zlib} {file : List UInt8} {s : ReplayState}

/-- The records from where the loop stands. -/
def ReplayState.left (s : ReplayState) (file : List UInt8) : List (List UInt8) :=
  completeRecords (file.drop s.offset)

theorem ReplayState.left_of_lt (h : file.length < s.offset + 36) : s.left file = [] := by
  refine Records.complete_of_lt ?_
  rw [List.length_drop]
  omega

theorem ReplayState.left_of_le (h : s.offset + 36 ≤ file.length) :
    s.left file = s.next file :: (s.moved file).left file := by
  -- one record is complete, and the others start behind it
  have hlong : 36 ≤ (file.drop s.offset).length := by
    rw [List.length_drop]
    omega
  have hleft := Records.complete_of_le (by norm_num) hlong
  rw [List.drop_drop] at hleft
  exact hleft

/-- The loop runs through records that the grammar allows. -/
theorem replayLoop_accepted (hbuf : s.buf.length = 36) (hoffset : s.offset ≤ file.length)
    (h : AcceptedFrom Z s.prevBatchNo.toNat s.prevState (s.left file)) :
    ∃ s', (replayLoop Z file fun _ => .full).exec s = (s', true) ∧
      s'.offset = s.offset + 36 * (s.left file).length ∧
      s'.out = ((s.left file).map readEntry).foldl Reply.record s.out := by
  -- along the turns, each of which takes one record off the left ones
  induction s using (replayLoop Z file fun _ => .full).induct with
  | turn s ih =>
    by_cases hlen : s.offset + 36 ≤ file.length
    · rw [s.left_of_le hlen] at h ⊢
      obtain ⟨⟨hsound, hlegal⟩, htail⟩ := acceptedFrom_cons.mp h
      have hturn := replayTurn_accepted hlen hbuf hsound hlegal
      obtain ⟨s', hexec, hoff, hout⟩ := ih _ hturn (s.length_next hlen) hlen htail
      refine ⟨s', ?_, ?_, ?_⟩
      · rw [Loop.exec_of_inl _ hturn, hexec]
      · rw [hoff, s.moved_offset, List.length_cons]
        ring
      · rw [hout, List.map_cons, List.foldl_cons]
        rfl
    · -- less than a record is left
      have hend := replayTurn_end (Z := Z) (Nat.lt_of_not_le hlen) fun _ => .full
      rw [s.left_of_lt (Nat.lt_of_not_le hlen)]
      exact ⟨s, Loop.exec_of_inr _ hend, rfl, rfl⟩

/-- At the first record that the grammar does not allow, the loop leaves with `corrupt`. -/
theorem replayLoop_rejected (hbuf : s.buf.length = 36)
    (hwrap : s.prevBatchNo.toNat < 2 ^ 64 - 1)
    (hbatch : ∀ r ∈ s.left file, (readEntry r).batchNo.toNat < 2 ^ 64 - 1)
    (h : ¬ AcceptedFrom Z s.prevBatchNo.toNat s.prevState (s.left file)) :
    ∃ s', (replayLoop Z file fun _ => .full).exec s = (s', false) ∧ s'.out.corrupt = true := by
  induction s using (replayLoop Z file fun _ => .full).induct with
  | turn s ih =>
    by_cases hlen : s.offset + 36 ≤ file.length
    · rw [s.left_of_le hlen] at h hbatch
      rw [acceptedFrom_cons] at h
      -- either this record is refused, or one behind it
      by_cases hhere : Sound Z (s.next file) ∧
          LegalStep s.prevBatchNo.toNat s.prevState (readEntry (s.next file))
      · have hturn := replayTurn_accepted hlen hbuf hhere.1 hhere.2
        obtain ⟨hfirst, hrest⟩ := List.forall_mem_cons.mp hbatch
        obtain ⟨s', hexec, hcorrupt⟩ := ih _ hturn (s.length_next hlen) hfirst hrest
          fun htail => h ⟨hhere, htail⟩
        exact ⟨s', by rw [Loop.exec_of_inl _ hturn, hexec], hcorrupt⟩
      · obtain ⟨s', hturn, hcorrupt⟩ := replayTurn_rejected hlen hbuf hwrap hhere
        exact ⟨s', Loop.exec_of_inr _ hturn, hcorrupt⟩
    · -- with no record left there is nothing to refuse
      rw [s.left_of_lt (Nat.lt_of_not_le hlen)] at h
      exact absurd ⟨by simp, trivial⟩ h

end Replay

section OpenOrCreate

variable {Z : Zlib} {c : Commitlog} {file : List UInt8}

/-- A faultless `open_or_create` of an existing file is the replay of that file. -/
theorem Commitlog.openOrCreate_existing (hfile : c.file = some file) (out : Reply) :
    c.openOrCreate Z out {} = ({ c with isOpen := true } : Commitlog).replay Z file out {} := by
  simp only [openOrCreate, hfile, Bool.true_eq_false, if_false]

/-- An accepted file is cut to its complete records, and `offset` is the end of these. -/
theorem Commitlog.openOrCreate_accepted (hfile : c.file = some file) (hoffset : c.offset = 0)
    (h : Accepted Z file) :
    c.openOrCreate Z {} {} =
      ({ c with
          isOpen := true
          offset := 36 * (file.length / 36)
          file := some (file.take (36 * (file.length / 36))) },
        replyOf (entriesOf file), true) := by
  -- the loop runs from offset 0 with an empty `out`
  obtain ⟨s', hexec, hoff, hout⟩ := replayLoop_accepted
    (s := { offset := 0, out := {} }) rfl (Nat.zero_le _) h
  have hleft : ReplayState.left { offset := 0, out := {} } file = completeRecords file := rfl
  rw [hleft, completeRecords, Records.length_complete, Nat.zero_add] at hoff
  rw [hleft, foldl_record] at hout
  have hle : 36 * (file.length / 36) ≤ file.length := Nat.mul_div_le _ _
  rw [openOrCreate_existing hfile, replay]
  simp only [hoffset, Bool.true_eq_false, if_false, hexec, if_true, hoff, hout,
    ftruncate_of_le hle]
  rfl

/-- Any other file is reported corrupt and left as it was. -/
theorem Commitlog.openOrCreate_rejected (hfile : c.file = some file) (hoffset : c.offset = 0)
    (hbatch : ∀ e ∈ entriesOf file, e.batchNo.toNat < 2 ^ 64 - 1) (h : ¬ Accepted Z file) :
    (c.openOrCreate Z {} {}).2.2 = false ∧ (c.openOrCreate Z {} {}).2.1.corrupt = true ∧
      (c.openOrCreate Z {} {}).1.file = some file := by
  obtain ⟨s', hexec, hcorrupt⟩ := replayLoop_rejected
    (s := { offset := 0, out := {} }) rfl (by decide)
    (fun r hr => hbatch _ (List.mem_map_of_mem hr)) h
  rw [openOrCreate_existing hfile, replay]
  simp only [hoffset, Bool.true_eq_false, if_false, hexec, Bool.false_eq_true]
  exact ⟨trivial, hcorrupt, hfile⟩

end OpenOrCreate

/-- Replay of any file with a fresh object: it succeeds exactly on the files of the grammar,
and then `out` is the summary of the entries and the file is cut to its complete records.
On every other file it returns false with `corrupt` set and leaves the file alone. -/
theorem openOrCreate_replay {Z : Zlib} {file : List UInt8}
    (hbatch : ∀ e ∈ entriesOf file, e.batchNo.toNat < 2 ^ 64 - 1) (log : CommitEntry) :
    let r := ({ log, file := some file } : Commitlog).openOrCreate Z {} {}
    (r.2.2 = true ∧ r.2.1.corrupt = false ↔ Accepted Z file) ∧
      (Accepted Z file → r.2.1 = replyOf (entriesOf file) ∧
        r.1.file = some (file.take (36 * (file.length / 36)))) ∧
      (¬ Accepted Z file → r.2.2 = false ∧ r.2.1.corrupt = true ∧ r.1.file = some file) := by
  intro r
  -- the grammar decides: the two lemmas above are the two cases
  by_cases h : Accepted Z file
  · have hopen := Commitlog.openOrCreate_accepted (c := { log, file := some file }) rfl rfl h
    refine ⟨iff_of_true ?_ h, fun _ => ?_, absurd h⟩
    · simp only [r, hopen]
      exact ⟨trivial, rfl⟩
    · simp only [r, hopen]
      exact ⟨trivial, trivial⟩
  · have hopen := Commitlog.openOrCreate_rejected (c := { log, file := some file }) rfl rfl hbatch h
    refine ⟨iff_of_false ?_ h, fun hacc => absurd hacc h, fun _ => hopen⟩
    rintro ⟨hok, -⟩
    rw [hopen.1] at hok
    cases hok

theorem openOrCreate_replay_credited :
    let file := encodeEntry zlib { batchNo := 1, candidateHw := 5, epoch := 7, state := 1 } ++ [0, 0]
    let r := ({ file := some file } : Commitlog).openOrCreate zlib {} {}
    r.2.2 = true ∧ r.2.1.corrupt = false ↔ Accepted zlib file :=
  (openOrCreate_replay (by decide +kernel) {}).1

end ServiceInfra
