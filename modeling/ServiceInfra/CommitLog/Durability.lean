import ServiceInfra.Library.TransitionSystem
import ServiceInfra.CommitLog.Faults

/-!
# A commit log over crashes and faults

The life of a commit log: opens that may fail, appends that may be cut short, `sync`, and
crashes at any point. A crash leaves a front of the file that has at least the records of the
last `sync`; one inside an append is a crash behind an append whose write was cut short and
not rolled back, or whose record was whole. The appended entries follow the grammar.

Main results:
- `LogInv.openOrCreate_replies`: an open never finds the log corrupt
- `credit_kept`: the credited mark of what was synced is never lost
-/

namespace ServiceInfra

open Library

/-! ## State and steps -/

/-- A commit log with the history of its entries. -/
structure LogStore where
  /-- The last open returned true, and no crash since. -/
  up : Bool := false
  log : Commitlog
  /-- What the last open replied. -/
  reply : Reply := {}
  /-- How many bytes a crash leaves at least. -/
  secured : Nat := 0
  /-- The entries of the whole records. -/
  kept : List CommitEntry := []
  /-- Those at the last `sync` that succeeded. -/
  synced : List CommitEntry := []

/-- The labels of the steps. -/
inductive LogStoreAction where
  /-- `open_or_create` of a new object; its reads are whole, whatever `io` says of them. -/
  | openOrCreate (io : OpenOrCreateIo)
  | append (a : CommitCall)
  | sync (ok : Bool)
  /-- The process ends, and `n` bytes are left. -/
  | crash (n : Nat)

/-- The same outcomes, with reads that get every byte. -/
def OpenOrCreateIo.whole (io : OpenOrCreateIo) : OpenOrCreateIo :=
  { io with read := fun _ => .full }

namespace LogStore

variable (Z : Zlib)

def bytes (s : LogStore) : List UInt8 := s.log.file.getD []

def openOrCreate (s : LogStore) (io : OpenOrCreateIo) : Option LogStore :=
  if s.up then none
  else
    let (log, reply, up) := ({ file := s.log.file } : Commitlog).openOrCreate Z {} io.whole
    some { s with up, log, reply }

def append (s : LogStore) (a : CommitCall) : Option LogStore :=
  if s.up = true ∧ Legal 0 0 (s.kept ++ [a.entry]) then
    let (log, ok) := s.log.call Z a
    some { s with log, kept := if ok then s.kept ++ [a.entry] else s.kept }
  else none

def sync (s : LogStore) (ok : Bool) : Option LogStore :=
  if s.up then
    some (if s.log.sync ok then { s with secured := s.log.offset, synced := s.kept } else s)
  else none

def crash (s : LogStore) (n : Nat) : Option LogStore :=
  if s.secured ≤ n then
    some { s with
      up := false
      log := { file := s.log.file.map (List.take n) }
      kept := s.kept.take (n / 36) }
  else none

/-- One step. -/
def step (s : LogStore) : LogStoreAction → Option LogStore
  | .openOrCreate io => s.openOrCreate Z io
  | .append a => s.append Z a
  | .sync ok => s.sync ok
  | .crash n => s.crash n

end LogStore

/-- The commit log over all starts of the process, from a path without a file on. -/
def logStore (Z : Zlib) : TransitionSystem LogStore LogStoreAction where
  init s := s = { log := { file := none } }
  step s a t := s.step Z a = some t

/-! ## Opening -/

section Opening

variable {Z : Zlib} {c : Commitlog} {file : List UInt8} (io : OpenOrCreateIo)

/-- The replay of an accepted file fails only where `fstat` does. -/
theorem Commitlog.replay_whole (hoffset : c.offset = 0) (h : Accepted Z file) :
    (c.replay Z file {} io.whole).2.1.corrupt = false ∧
      ((c.replay Z file {} io.whole).2.2 = true →
        (c.replay Z file {} io.whole).2.1 = replyOf (entriesOf file)) ∧
      ((c.replay Z file {} io.whole).2.2 = false →
        (c.replay Z file {} io.whole).1.file = c.file) := by
  obtain ⟨s', hexec, -, hout⟩ := replayLoop_accepted
    (s := { offset := 0, out := {} }) rfl (Nat.zero_le _) h
  have hleft : ReplayState.left { offset := 0, out := {} } file = completeRecords file := rfl
  rw [hleft, foldl_record] at hout
  rw [replay]
  by_cases hstat : io.whole.fstat = false
  · rw [if_pos hstat]
    exact ⟨rfl, by simp, fun _ => rfl⟩
  · have hread : io.whole.read = fun _ => .full := rfl
    simp only [if_neg hstat, hread, hoffset, hexec, if_true]
    rw [hout]
    exact ⟨rfl, fun _ => rfl, by simp⟩

/-- An open of an accepted file never finds it corrupt, and one that fails leaves the bytes. -/
theorem Commitlog.openOrCreate_whole (hoffset : c.offset = 0)
    (h : Accepted Z (c.file.getD [])) :
    (c.openOrCreate Z {} io.whole).2.1.corrupt = false ∧
      ((c.openOrCreate Z {} io.whole).2.2 = true →
        (c.openOrCreate Z {} io.whole).2.1 = replyOf (entriesOf (c.file.getD []))) ∧
      ((c.openOrCreate Z {} io.whole).2.2 = false →
        (c.openOrCreate Z {} io.whole).1.file.getD [] = c.file.getD []) := by
  rw [openOrCreate]
  split
  · exact ⟨rfl, by simp, fun _ => rfl⟩
  · cases hfile : c.file with
    | none =>
      rw [hfile] at h
      simp only
      split
      · exact ⟨rfl, by simp, fun _ => rfl⟩
      · obtain ⟨hcorrupt, hreply, hfailed⟩ := replay_whole io
          (c := { c with isOpen := true, file := some [] }) hoffset h
        exact ⟨hcorrupt, hreply, fun hfalse => congrArg (·.getD []) (hfailed hfalse)⟩
    | some file =>
      rw [hfile] at h
      simp only
      split
      · exact ⟨rfl, by simp, fun _ => rfl⟩
      · obtain ⟨hcorrupt, hreply, hfailed⟩ := replay_whole io
          (c := { c with isOpen := true, file := some file }) hoffset h
        exact ⟨hcorrupt, hreply, fun hfalse => congrArg (·.getD []) (hfailed hfalse)⟩

end Opening

/-! ## Summaries of more entries -/

section Summaries

variable {es fs : List CommitEntry}

theorem Reply.creditHw_record_le (out : Reply) (e : CommitEntry) :
    out.creditHw ≤ (out.record e).creditHw := by
  simp only [Reply.record]
  split
  · rename_i hmark
    exact UInt64.le_of_lt hmark.2
  · exact UInt64.le_refl _

/-- The credited mark never goes back. -/
theorem creditHw_mono (h : es <+: fs) : (replyOf es).creditHw ≤ (replyOf fs).creditHw := by
  obtain ⟨rest, rfl⟩ := h
  induction rest using List.reverseRecOn with
  | nil =>
    rw [List.append_nil]
    exact UInt64.le_refl _
  | append_singleton rest e ih =>
    rw [← List.append_assoc, replyOf_append]
    exact UInt64.le_trans ih (Reply.creditHw_record_le _ _)

/-- The last entry of a legal list is not of a batch before the others. -/
theorem Legal.last_batch_le {batch : Nat} {state : UInt8} {e : CommitEntry}
    (h : Legal batch state (es ++ [e])) :
    (es.getLast?.map fun e => e.batchNo.toNat).getD batch ≤ e.batchNo.toNat := by
  induction es generalizing batch state with
  | nil =>
    obtain ⟨⟨⟨hsame, -⟩ | hnext, -⟩, -⟩ := h
    · exact hsame.ge
    · exact (Nat.le_succ _).trans hnext.ge
  | cons d es ih =>
    have htail := ih h.2
    rw [List.getLast?_cons]
    cases hlast : es.getLast? with
    | none => rwa [hlast] at htail
    | some last => rwa [hlast] at htail

/-- Nor does the last batch, over legal entries. -/
theorem lastBatchNo_mono (hlegal : Legal 0 0 fs) (h : es <+: fs) :
    (replyOf es).lastBatchNo ≤ (replyOf fs).lastBatchNo := by
  obtain ⟨rest, rfl⟩ := h
  induction rest using List.reverseRecOn with
  | nil =>
    rw [List.append_nil]
    exact UInt64.le_refl _
  | append_singleton rest e ih =>
    rw [← List.append_assoc] at hlegal ⊢
    refine UInt64.le_trans (ih hlegal.of_append) ?_
    have hle := hlegal.last_batch_le
    have hrecord : ((replyOf (es ++ rest)).record e).lastBatchNo = e.batchNo := by
      simp only [Reply.record]
      split <;> rfl
    rw [replyOf_append, hrecord, UInt64.le_iff_toNat_le, replyOf]
    cases hlast : (es ++ rest).getLast? with
    | none => exact Nat.zero_le _
    | some last => rwa [hlast] at hle

end Summaries

/-! ## The invariant -/

/-- The file is the records of the kept entries and less than one more. -/
structure LogInv (Z : Zlib) (s : LogStore) : Prop where
  legal : Legal 0 0 s.kept
  synced_front : s.synced <+: s.kept
  secured_eq : s.secured = 36 * s.synced.length
  bytes_eq : ∃ left, left.length < 36 ∧ s.bytes = s.kept.flatMap (encodeEntry Z) ++ left
  opened : s.up = true → ∃ left, s.log.Holds (s.kept.flatMap (encodeEntry Z)) left

section Steps

variable {Z : Zlib} {s t : LogStore}

theorem recordsEnd_written (es : List CommitEntry) {left : List UInt8} (hleft : left.length < 36) :
    recordsEnd (es.flatMap (encodeEntry Z) ++ left) = (es.flatMap (encodeEntry Z)).length := by
  rw [recordsEnd, List.length_append, Records.length_flatMap (length_encodeEntry Z)]
  omega

/-- A front of the file is the records of a front of the entries, and less than one more. -/
theorem take_written (es : List CommitEntry) {left : List UInt8} (hleft : left.length < 36)
    (n : Nat) :
    ∃ tail, tail.length < 36 ∧ (es.flatMap (encodeEntry Z) ++ left).take n =
      (es.take (n / 36)).flatMap (encodeEntry Z) ++ tail := by
  have hlength := Records.length_flatMap (length_encodeEntry Z) es
  by_cases hn : n ≤ 36 * es.length
  · rw [List.take_append_of_le_length (by omega)]
    exact Records.take_flatMap (by norm_num) (length_encodeEntry Z) es n
  · -- the cut is behind all the records
    have hall : es.length ≤ n / 36 := by omega
    refine ⟨left.take (n - 36 * es.length), ?_, ?_⟩
    · rw [List.length_take]
      omega
    · rw [List.take_of_length_le hall, List.take_append, hlength, List.take_of_length_le]
      omega

theorem LogInv.start : LogInv Z { log := { file := none } } where
  legal := trivial
  synced_front := List.prefix_rfl
  secured_eq := rfl
  bytes_eq := ⟨[], by decide, rfl⟩
  opened hup := by cases hup

theorem LogInv.accepted (h : LogInv Z s) :
    Accepted Z s.bytes ∧ entriesOf s.bytes = s.kept := by
  obtain ⟨left, hleft, hbytes⟩ := h.bytes_eq
  rw [hbytes]
  exact ⟨accepted_written h.legal hleft, entriesOf_written _ hleft⟩

/-- An open never finds the log corrupt, and replies what was kept. -/
theorem LogInv.openOrCreate_replies (h : LogInv Z s) (io : OpenOrCreateIo) :
    let r := ({ file := s.log.file } : Commitlog).openOrCreate Z {} io.whole
    r.2.1.corrupt = false ∧ (r.2.2 = true → r.2.1 = replyOf s.kept) := by
  obtain ⟨haccepted, hentries⟩ := h.accepted
  obtain ⟨hcorrupt, hreply, -⟩ :=
    Commitlog.openOrCreate_whole io (c := { file := s.log.file }) rfl haccepted
  refine ⟨hcorrupt, fun hok => (hreply hok).trans ?_⟩
  exact congrArg replyOf hentries

theorem LogInv.openOrCreate (h : LogInv Z s) {io : OpenOrCreateIo}
    (hstep : s.openOrCreate Z io = some t) : LogInv Z t := by
  rw [LogStore.openOrCreate] at hstep
  split at hstep
  · cases hstep
  · simp only [Option.some.injEq] at hstep
    subst hstep
    obtain ⟨left, hleft, hbytes⟩ := h.bytes_eq
    obtain ⟨-, -, hfailed⟩ := Commitlog.openOrCreate_whole io
      (c := { file := s.log.file }) rfl h.accepted.1
    by_cases hok : (({ file := s.log.file } : Commitlog).openOrCreate Z {} io.whole).2.2 = true
    · -- the offset stands behind the records
      obtain ⟨left', hholds⟩ := Commitlog.openOrCreate_holds rfl hok
      have hfile : s.log.file.getD [] = s.kept.flatMap (encodeEntry Z) ++ left := hbytes
      simp only [hfile, recordsEnd_written _ hleft, List.take_left] at hholds
      refine ⟨h.legal, h.synced_front, h.secured_eq, ⟨left', hholds.left_lt, ?_⟩,
        fun _ => ⟨left', hholds⟩⟩
      rw [LogStore.bytes, hholds.file_eq, Option.getD_some]
    · have hfile := hfailed (Bool.not_eq_true _ ▸ hok)
      refine ⟨h.legal, h.synced_front, h.secured_eq, ⟨left, hleft, ?_⟩, fun hup => absurd hup hok⟩
      exact hfile.trans hbytes

theorem LogInv.append (h : LogInv Z s) {a : CommitCall} (hstep : s.append Z a = some t) :
    LogInv Z t := by
  rw [LogStore.append] at hstep
  split at hstep
  · rename_i hguard
    obtain ⟨hup, hlegal⟩ := hguard
    simp only [Option.some.injEq] at hstep
    subst hstep
    obtain ⟨left, hholds⟩ := h.opened hup
    rcases hholds.call a with ⟨hok, hnext⟩ | ⟨hfalse, left', hnext⟩
    · rw [if_pos hok]
      have hbytes : s.kept.flatMap (encodeEntry Z) ++ encodeEntry Z a.entry =
          (s.kept ++ [a.entry]).flatMap (encodeEntry Z) := by
        rw [List.flatMap_append, List.flatMap_cons, List.flatMap_nil, List.append_nil]
      rw [hbytes] at hnext
      refine ⟨hlegal, h.synced_front.trans (List.prefix_append _ _), h.secured_eq,
        ⟨[], by decide, ?_⟩, fun _ => ⟨[], hnext⟩⟩
      rw [LogStore.bytes, hnext.file_eq, Option.getD_some]
    · rw [if_neg (by rw [hfalse]; exact Bool.false_ne_true)]
      refine ⟨h.legal, h.synced_front, h.secured_eq, ⟨left', hnext.left_lt, ?_⟩,
        fun _ => ⟨left', hnext⟩⟩
      rw [LogStore.bytes, hnext.file_eq, Option.getD_some]
  · cases hstep

theorem LogInv.sync (h : LogInv Z s) {ok : Bool} (hstep : s.sync ok = some t) : LogInv Z t := by
  rw [LogStore.sync] at hstep
  split at hstep
  · rename_i hup
    cases hstep
    split
    · obtain ⟨left, hholds⟩ := h.opened hup
      refine ⟨h.legal, List.prefix_rfl, ?_, h.bytes_eq, h.opened⟩
      exact hholds.offset_eq.trans (Records.length_flatMap (length_encodeEntry Z) _)
    · exact h
  · cases hstep

theorem LogInv.crash (h : LogInv Z s) {n : Nat} (hstep : s.crash n = some t) : LogInv Z t := by
  rw [LogStore.crash] at hstep
  split at hstep
  · rename_i hn
    cases hstep
    obtain ⟨left, hleft, hbytes⟩ := h.bytes_eq
    obtain ⟨tail, htail, htake⟩ := take_written (Z := Z) s.kept hleft n
    have hsynced := List.prefix_iff_eq_take.mp h.synced_front
    have hsecured := h.secured_eq
    refine ⟨h.legal.take _, ?_, h.secured_eq, ⟨tail, htail, ?_⟩, by simp⟩
    · -- the synced records lie in front of the cut
      show s.synced <+: s.kept.take (n / 36)
      rw [hsynced]
      exact List.take_prefix_take_left (by omega)
    · rw [← htake, ← hbytes, LogStore.bytes, LogStore.bytes]
      cases s.log.file with
      | none => exact List.take_nil.symm
      | some file => rfl
  · cases hstep

/-- Every step keeps the invariant. -/
theorem LogInv.step (h : LogInv Z s) {a : LogStoreAction} (hstep : s.step Z a = some t) :
    LogInv Z t := by
  cases a with
  | openOrCreate io => exact h.openOrCreate hstep
  | append a => exact h.append hstep
  | sync ok => exact h.sync hstep
  | crash n => exact h.crash hstep

theorem logInv_reachable (h : (logStore Z).Reachable s) : LogInv Z s :=
  h.invariant (fun _ hinit => hinit ▸ .start) fun _ _ _ hs hstep => hs.step hstep

/-- What is synced stays synced. -/
theorem LogInv.synced_step (h : LogInv Z s) {a : LogStoreAction} (hstep : s.step Z a = some t) :
    s.synced <+: t.synced := by
  cases a with
  | openOrCreate io =>
    rw [LogStore.step, LogStore.openOrCreate] at hstep
    split at hstep
    · cases hstep
    · simp only [Option.some.injEq] at hstep
      subst hstep
      exact List.prefix_rfl
  | append a =>
    rw [LogStore.step, LogStore.append] at hstep
    split at hstep
    · simp only [Option.some.injEq] at hstep
      subst hstep
      exact List.prefix_rfl
    · cases hstep
  | sync ok =>
    rw [LogStore.step, LogStore.sync] at hstep
    split at hstep
    · cases hstep
      split
      · exact h.synced_front
      · exact List.prefix_rfl
    · cases hstep
  | crash n =>
    rw [LogStore.step, LogStore.crash] at hstep
    split at hstep
    · cases hstep
      exact List.prefix_rfl
    · cases hstep

theorem LogInv.synced_run (h : (logStore Z).Reachable s) {as : List LogStoreAction}
    (hrun : (logStore Z).Run s as t) : s.synced <+: t.synced :=
  h.run_rel (R := fun s t => s.synced <+: t.synced) (fun _ => List.prefix_rfl)
    (fun _ _ _ => List.IsPrefix.trans)
    (fun _ _ _ hs hstep => (logInv_reachable hs).synced_step hstep) hrun

end Steps

/-- The entries that were synced at some time are the first of those kept ever after. No open
finds the log corrupt, one that returns true replies exactly what was kept, and neither the
credited mark nor the last batch is behind that of the synced entries. -/
theorem credit_kept {Z : Zlib} {s t : LogStore} (h : (logStore Z).Reachable s)
    {as : List LogStoreAction} (hrun : (logStore Z).Run s as t) (io : OpenOrCreateIo) :
    let r := ({ file := t.log.file } : Commitlog).openOrCreate Z {} io.whole
    s.synced <+: t.kept ∧ r.2.1.corrupt = false ∧
      (r.2.2 = true → r.2.1 = replyOf t.kept ∧ (replyOf s.synced).creditHw ≤ r.2.1.creditHw ∧
        (replyOf s.synced).lastBatchNo ≤ r.2.1.lastBatchNo) := by
  intro r
  have hinv := logInv_reachable (h.run hrun)
  have hkept : s.synced <+: t.kept := (LogInv.synced_run h hrun).trans hinv.synced_front
  obtain ⟨hcorrupt, hreply⟩ := hinv.openOrCreate_replies io
  refine ⟨hkept, hcorrupt, fun hok => ?_⟩
  have heq : r.2.1 = replyOf t.kept := hreply hok
  rw [heq]
  exact ⟨rfl, creditHw_mono hkept, lastBatchNo_mono hinv.legal hkept⟩

/-- A credited entry is synced; the next record is cut short, not rolled back, and then cut by
the crash. -/
theorem credit_kept_short :
    ∃ s t as, (logStore zlib).Reachable s ∧ (logStore zlib).Run s as t ∧
      (replyOf s.synced).creditHw = 9 ∧ t.bytes.length = 50 ∧ t.kept = s.synced ∧
      let r := ({ file := t.log.file } : Commitlog).openOrCreate zlib {} {}
      r.2.2 = true ∧ 9 ≤ r.2.1.creditHw := by
  let as : List LogStoreAction :=
    [.openOrCreate {}, .append ⟨{ batchNo := 1, candidateHw := 9, state := 1 }, {}⟩, .sync true]
  let bs : List LogStoreAction :=
    [.append ⟨{ batchNo := 1, candidateHw := 9, state := 2 },
      { pwrite := .short 20, ftruncate := false }⟩, .crash 50]
  have hinit : (logStore zlib).Reachable { log := { file := none } } := .of_init rfl
  have hrun : (as.foldlM (LogStore.step zlib) { log := { file := none } }).any (fun s =>
      decide ((replyOf s.synced).creditHw = 9) &&
        (bs.foldlM (LogStore.step zlib) s).any fun t =>
          decide (t.bytes.length = 50 ∧ t.kept = s.synced ∧
            (({ file := t.log.file } : Commitlog).openOrCreate zlib {} {}).2.2 = true)) = true := by
    decide +kernel
  obtain ⟨s, hs, hfacts⟩ := (Option.any_eq_true _ _).mp hrun
  obtain ⟨hfirst, hrest⟩ := Bool.and_eq_true_iff.mp hfacts
  obtain ⟨t, ht, hlast⟩ := (Option.any_eq_true _ _).mp hrest
  have hmark := of_decide_eq_true hfirst
  obtain ⟨hlength, hkept, hok⟩ := of_decide_eq_true hlast
  have hreach := hinit.foldlM (f := LogStore.step zlib) (fun _ _ _ h => h) hs
  have hthen : (logStore zlib).Run s bs t :=
    .of_foldlM (f := LogStore.step zlib) (fun _ _ _ h => h) ht
  obtain ⟨-, -, hreply⟩ := credit_kept hreach hthen {}
  obtain ⟨-, hcredit, -⟩ := hreply hok
  rw [hmark] at hcredit
  exact ⟨s, t, bs, hreach, hthen, hmark, hlength, hkept, hok, hcredit⟩

end ServiceInfra
