import ServiceInfra.CommitLog.Replay

/-!
# Rounds of crash and re-open

A commit log over its life: legal entries are appended, a crash cuts the file at any
byte, a fresh object re-opens it, and so on. `keptAfter` is what should be left: a cut
at `len` keeps `len / 36` entries. `KeepsEntries` links the file and the object in
memory to that list; every step keeps the link.

Main results:
- `KeepsEntries.append`, `KeepsEntries.reopen`: the two steps
- `runLog_kept`: after every run of rounds, every re-open replays what is left
-/

namespace ServiceInfra

open Library

/-! ## Runs -/

/-- A step in the life of a commit log. -/
inductive LogOp where
  /-- `log` is set to the entry and `append` is called. -/
  | append (e : CommitEntry)
  /-- The file is cut to `len` bytes and a fresh object re-opens it. -/
  | crash (len : Nat)
  deriving DecidableEq, Repr

namespace Commitlog

/-- Set `log` and append. -/
def write (Z : Zlib) (c : Commitlog) (e : CommitEntry) : Commitlog × Bool :=
  ({ c with log := e } : Commitlog).append Z {}

/-- A fresh object opens what a cut at `len` leaves of the file. -/
def reopen (Z : Zlib) (c : Commitlog) (len : Nat) : Commitlog × Reply × Bool :=
  ({ file := c.file.map (List.take len) } : Commitlog).openOrCreate Z {} {}

/-- One step. -/
def step (Z : Zlib) (c : Commitlog) : LogOp → Commitlog
  | .append e => (c.write Z e).1
  | .crash len => (c.reopen Z len).1

end Commitlog

/-- A run of steps. -/
def runLog (Z : Zlib) (c : Commitlog) (ops : List LogOp) : Commitlog :=
  ops.foldl (Commitlog.step Z) c

/-- The log just created on a fresh path. -/
def createdLog (Z : Zlib) : Commitlog := (({ file := none } : Commitlog).openOrCreate Z {} {}).1

/-- The entries that should be left after a step. -/
def keptStep (kept : List CommitEntry) : LogOp → List CommitEntry
  | .append e => kept ++ [e]
  | .crash len => kept.take (len / 36)

/-- The entries that should be left after a run. -/
def keptAfter (kept : List CommitEntry) (ops : List LogOp) : List CommitEntry :=
  ops.foldl keptStep kept

/-- Every append of the run continues the entries that are left at that point. -/
def LegalOps : List CommitEntry → List LogOp → Prop
  | _, [] => True
  | kept, .append e :: ops => Legal 0 0 (kept ++ [e]) ∧ LegalOps (kept ++ [e]) ops
  | kept, .crash len :: ops => LegalOps (kept.take (len / 36)) ops

/-! ## Legal lists -/

theorem Legal.of_append {batch : Nat} {state : UInt8} {es fs : List CommitEntry}
    (h : Legal batch state (es ++ fs)) : Legal batch state es := by
  induction es generalizing batch state with
  | nil => trivial
  | cons e es ih => exact ⟨h.1, ih h.2⟩

theorem Legal.take {batch : Nat} {state : UInt8} {es : List CommitEntry}
    (h : Legal batch state es) (n : Nat) : Legal batch state (es.take n) := by
  rw [← List.take_append_drop n es] at h
  exact h.of_append

/-! ## Written files -/

section Written

variable {Z : Zlib}

theorem completeRecords_written (es : List CommitEntry) {tail : List UInt8}
    (htail : tail.length < 36) :
    completeRecords (es.flatMap (encodeEntry Z) ++ tail) = es.map (encodeEntry Z) :=
  Records.complete_flatMap_append (by norm_num) (length_encodeEntry Z) es htail

theorem entriesOf_written (es : List CommitEntry) {tail : List UInt8} (htail : tail.length < 36) :
    entriesOf (es.flatMap (encodeEntry Z) ++ tail) = es := by
  rw [entriesOf, completeRecords_written es htail, List.map_map]
  have hread : readEntry ∘ encodeEntry Z = id := funext (readEntry_encodeEntry Z)
  rw [hread, List.map_id]

theorem accepted_written {es : List CommitEntry} (h : Legal 0 0 es) {tail : List UInt8}
    (htail : tail.length < 36) : Accepted Z (es.flatMap (encodeEntry Z) ++ tail) where
  sound r hr := by
    rw [completeRecords_written es htail] at hr
    obtain ⟨e, -, rfl⟩ := List.mem_map.mp hr
    exact sound_encodeEntry Z e
  legal := by
    have hentries := entriesOf_written (Z := Z) es htail
    rw [entriesOf] at hentries
    rwa [hentries]

end Written

/-! ## The steps -/

/-- The object is open at the end of a file that holds exactly these entries. -/
structure KeepsEntries (Z : Zlib) (kept : List CommitEntry) (c : Commitlog) : Prop where
  isOpen : c.isOpen = true
  file_eq : c.file = some (kept.flatMap (encodeEntry Z))
  offset_eq : c.offset = 36 * kept.length
  legal : Legal 0 0 kept

section Steps

variable {Z : Zlib} {kept : List CommitEntry} {c : Commitlog}

/-- A cut and a re-open replay the entries before the cut, and keep them. -/
theorem KeepsEntries.reopen (h : KeepsEntries Z kept c) (len : Nat) :
    (c.reopen Z len).2.2 = true ∧ (c.reopen Z len).2.1 = replyOf (kept.take (len / 36)) ∧
      KeepsEntries Z (kept.take (len / 36)) (c.reopen Z len).1 := by
  -- the cut keeps whole records and less than one more, which replay cuts off
  obtain ⟨tail, htail, hcut⟩ := Records.take_flatMap (by norm_num) (length_encodeEntry Z) kept len
  have hlegal := h.legal.take (len / 36)
  have hlength : ((kept.take (len / 36)).flatMap (encodeEntry Z) ++ tail).length / 36 =
      (kept.take (len / 36)).length := by
    rw [List.length_append, Records.length_flatMap (length_encodeEntry Z)]
    omega
  have hfile : c.file.map (List.take len) =
      some ((kept.take (len / 36)).flatMap (encodeEntry Z) ++ tail) := by
    rw [h.file_eq, Option.map_some, hcut]
  have hopen := Commitlog.openOrCreate_accepted
    (c := { file := c.file.map (List.take len) }) hfile rfl (accepted_written hlegal htail)
  rw [entriesOf_written _ htail, hlength] at hopen
  rw [Commitlog.reopen, hopen]
  refine ⟨rfl, rfl, rfl, ?_, rfl, hlegal⟩
  rw [List.take_left' (Records.length_flatMap (length_encodeEntry Z) _)]

/-- An append at the end adds its entry. -/
theorem KeepsEntries.append (h : KeepsEntries Z kept c) {e : CommitEntry}
    (hlegal : Legal 0 0 (kept ++ [e])) :
    (c.write Z e).2 = true ∧ KeepsEntries Z (kept ++ [e]) (c.write Z e).1 := by
  -- the object stands at the end of the file
  have hoffset : c.offset = (kept.flatMap (encodeEntry Z)).length := by
    rw [h.offset_eq, Records.length_flatMap (length_encodeEntry Z)]
  have happend := Commitlog.append_full (Z := Z) (c := { c with log := e }) h.isOpen h.file_eq
    hoffset
  rw [Commitlog.write, happend]
  refine ⟨rfl, h.isOpen, ?_, ?_, hlegal⟩
  · rw [List.flatMap_append, List.flatMap_cons, List.flatMap_nil, List.append_nil]
  · rw [h.offset_eq, List.length_append, List.length_singleton]
    ring

theorem KeepsEntries.run (h : KeepsEntries Z kept c) {ops : List LogOp}
    (hlegal : LegalOps kept ops) : KeepsEntries Z (keptAfter kept ops) (runLog Z c ops) := by
  -- one step after the other, each from what the steps before it kept
  induction ops generalizing kept c with
  | nil => exact h
  | cons op ops ih =>
    cases op with
    | append e => exact ih (h.append hlegal.1).2 hlegal.2
    | crash len => exact ih (h.reopen len).2.2 hlegal

theorem keepsEntries_createdLog (Z : Zlib) : KeepsEntries Z [] (createdLog Z) := by
  -- a fresh path is replayed as an empty file
  have hempty : createdLog Z = (({ file := some [] } : Commitlog).openOrCreate Z {} {}).1 := rfl
  have hopen := Commitlog.openOrCreate_accepted (Z := Z) (c := { file := some [] }) rfl rfl
    ⟨by simp [completeRecords, Records.complete, Records.firstN], trivial⟩
  rw [hempty, hopen]
  exact ⟨rfl, rfl, rfl, trivial⟩

end Steps

/-- After any run of rounds from a fresh log on, the file holds exactly the entries that
should be left, a legal continuation is appended, and a re-open after a cut at any length
replays the entries before the cut. -/
theorem runLog_kept {Z : Zlib} {ops : List LogOp} (hlegal : LegalOps [] ops) :
    let c := runLog Z (createdLog Z) ops
    let kept := keptAfter [] ops
    c.file = some (kept.flatMap (encodeEntry Z)) ∧
      (∀ e, Legal 0 0 (kept ++ [e]) → (c.write Z e).2 = true) ∧
      ∀ len, (c.reopen Z len).2.2 = true ∧ (c.reopen Z len).2.1 = replyOf (kept.take (len / 36)) := by
  have h := (keepsEntries_createdLog Z).run hlegal
  exact ⟨h.file_eq, fun e he => (h.append he).1,
    fun len => ⟨(h.reopen len).1, (h.reopen len).2.1⟩⟩

theorem runLog_kept_round :
    let ops : List LogOp := [.append { batchNo := 1, candidateHw := 5, epoch := 7 },
      .append { batchNo := 1, candidateHw := 5, epoch := 7, state := 1 }, .crash 50]
    LegalOps [] ops ∧
      ((runLog zlib (createdLog zlib) ops).reopen zlib 36).2.1 =
        replyOf [{ batchNo := 1, candidateHw := 5, epoch := 7 }] := by
  have hlegal : LegalOps [] [.append { batchNo := 1, candidateHw := 5, epoch := 7 },
      .append { batchNo := 1, candidateHw := 5, epoch := 7, state := 1 }, .crash 50] :=
    ⟨by decide, by decide, trivial⟩
  exact ⟨hlegal, ((runLog_kept (Z := zlib) hlegal).2.2 36).2⟩

end ServiceInfra
