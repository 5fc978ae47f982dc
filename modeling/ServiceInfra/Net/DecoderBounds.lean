import ServiceInfra.Net.Connection
import ServiceInfra.Net.Decoding
import ServiceInfra.Library.TransitionSystem

/-!
# The buffer of the decoder

`messagedecode::feed` statement by statement, in the arithmetic of its types: `idx` is an
`int`, `Inputbuf.size()-idx` a `size_t`. A statement that reads outside the buffer or adds
past the largest `int` has no result.

Nothing of this happens: along any sequence of calls the cursor stays inside the buffer and
below a constant, so the unsigned difference is the difference, and `feed` does what
`MessageDecode.feed` does with natural numbers.

Main results:
- `Bounded.step`: what the bounds are at each point of the loop, and that no statement leaves them
- `steps_feed`: a call comes to its end, as the decoder over natural numbers does
- `feed_bounds`: the bounds of every reachable state
-/

namespace ServiceInfra.Net

open Library

/-! ## The statements of `feed` -/

/-- Where a call of `feed` is. -/
inductive FeedPoint where
  /-- No call is running. -/
  | idle
  /-- At the head of the `while(1)`. -/
  | head
  /-- Behind the `if` that drops the read bytes. -/
  | compacted
  /-- Before `idx+=4`, in front of a message of that length. -/
  | header (msgLen : UInt32)
  /-- Behind `idx+=4`. -/
  | body (msgLen : UInt32)
  deriving DecidableEq, Repr

/-- `net::messagedecode`, in the middle of `feed` or between two calls. -/
structure FeedState where
  inputbuf : List UInt8 := []
  msg : List (List UInt8) := []
  error : Bool := false
  /-- `idx`, an `int`. -/
  idx : Int := 0
  point : FeedPoint := .idle
  deriving DecidableEq, Repr

/-- The bytes given to `feed`, as many as an `ssize_t` counts. -/
structure Chunk where
  bytes : List UInt8
  length_lt : bytes.length < 2 ^ 63

namespace FeedState

/-- `Inputbuf.size()-idx`, a `size_t`. -/
def left (s : FeedState) : Nat := ((s.inputbuf.length - s.idx) % 2 ^ 64).toNat

/-- The start of `feed`, up to its loop. -/
def feed (s : FeedState) (chunk : Chunk) : FeedState :=
  if s.error then s else { s with inputbuf := s.inputbuf ++ chunk.bytes, point := .head }

/-- `take`. -/
def take (s : FeedState) : FeedState := { s with msg := [] }

/-- The next statement of a running call. -/
def step (s : FeedState) : Option FeedState :=
  match s.point with
  | .idle => none
  | .head =>
      if 1024 * 512 < s.idx then
        -- `Inputbuf.begin()+idx` past the end
        if s.inputbuf.length < s.idx then none
        else some { s with inputbuf := s.inputbuf.drop s.idx.toNat, idx := 0, point := .compacted }
      else some { s with point := .compacted }
  | .compacted =>
      if s.left < 4 then some { s with point := .idle }
      -- the `memcpy` reads outside the buffer
      else if s.idx < 0 ∨ s.inputbuf.length < s.idx + 4 then none
      else
        let msgLen := readCrcBig (s.inputbuf.drop s.idx.toNat)
        if messagemaxlen < msgLen then
          some { s with error := true, inputbuf := [], idx := 0, point := .idle }
        else if s.left - 4 < msgLen.toNat then some { s with point := .idle }
        else some { s with point := .header msgLen }
  | .header msgLen =>
      -- an `int` does not wrap
      if 2 ^ 31 ≤ s.idx + 4 then none else some { s with idx := s.idx + 4, point := .body msgLen }
  | .body msgLen =>
      -- the `append` reads outside the buffer
      if s.idx < 0 ∨ s.inputbuf.length < s.idx + msgLen.toNat then none
      else
        -- `idx+=msg_len` adds unsigned numbers and converts the sum
        some { s with
          msg := s.msg ++ [(s.inputbuf.drop s.idx.toNat).take msgLen.toNat]
          idx := toInt (s.idx + msgLen.toNat)
          point := .head }

/-- A call runs from one state to another. -/
def Steps (s t : FeedState) : Prop := Relation.ReflTransGen (fun s t => s.step = some t) s t

/-- The decoder with its cursor as a natural number. -/
def decoder (s : FeedState) : MessageDecode := ⟨s.inputbuf, s.msg, s.error, s.idx.toNat⟩

end FeedState

/-- What happens to a decoder. -/
inductive FeedEvent where
  /-- `feed` is called. -/
  | feed (chunk : Chunk)
  /-- `take` is called. -/
  | take
  /-- The running call executes its next statement. -/
  | statement

/-- A decoder from its construction on, with any calls. -/
def feedSystem : TransitionSystem FeedState FeedEvent where
  init s := s = {}
  step s
    | .feed chunk, t => s.point = .idle ∧ t = s.feed chunk
    | .take, t => s.point = .idle ∧ t = s.take
    | .statement, t => s.step = some t

/-! ## The bounds -/

namespace FeedState

/-- The bounds that hold at the point where the decoder is. -/
structure Bounded (s : FeedState) : Prop where
  idx_nonneg : 0 ≤ s.idx
  idx_le_length : s.idx ≤ s.inputbuf.length
  length_lt : s.inputbuf.length < 2 ^ 64
  at_point :
    match s.point with
    | .idle => s.idx ≤ 524288 ∧ s.inputbuf.length - s.idx < 4 + 1048576
    | .head => s.idx ≤ 524288 + 4 + 1048576
    | .compacted => s.idx ≤ 524288
    | .header msgLen =>
        s.idx ≤ 524288 ∧ msgLen.toNat ≤ 1048576 ∧ s.idx + 4 + msgLen.toNat ≤ s.inputbuf.length
    | .body msgLen =>
        s.idx ≤ 524288 + 4 ∧ msgLen.toNat ≤ 1048576 ∧ s.idx + msgLen.toNat ≤ s.inputbuf.length

namespace Bounded

theorem fresh : Bounded {} := by
  constructor <;> simp

/-- Inside the buffer the unsigned difference is the difference. -/
theorem left_eq {s : FeedState} (h : Bounded s) : (s.left : Int) = s.inputbuf.length - s.idx := by
  have hlow := h.idx_nonneg
  have hhigh := h.idx_le_length
  have hlen := h.length_lt
  rw [left, Int.emod_eq_of_lt (by omega) (by omega), Int.toNat_of_nonneg (by omega)]

/-- At every point the cursor is below the largest sum that the loop makes. -/
theorem idx_le {s : FeedState} (h : Bounded s) : s.idx ≤ 524288 + 4 + 1048576 := by
  have hpoint := h.at_point
  split at hpoint <;> omega

theorem feed {s : FeedState} (h : Bounded s) (hidle : s.point = .idle) (chunk : Chunk) :
    Bounded (s.feed chunk) := by
  obtain ⟨hlow, hhigh, hlen, hpoint⟩ := h
  simp only [hidle] at hpoint
  unfold FeedState.feed
  split
  · exact ⟨hlow, hhigh, hlen, by simpa only [hidle] using hpoint⟩
  · have hchunk := chunk.length_lt
    constructor
    · exact hlow
    · simp only [List.length_append, Nat.cast_add]
      omega
    · simp only [List.length_append]
      omega
    · simp only
      omega

theorem take {s : FeedState} (h : Bounded s) : Bounded s.take := by
  obtain ⟨hlow, hhigh, hlen, hpoint⟩ := h
  exact ⟨hlow, hhigh, hlen, hpoint⟩

end Bounded

/-! ## The statements under the bounds -/

/-- The unsigned difference is the number of unread bytes. -/
theorem Bounded.left_eq_length {s : FeedState} (h : Bounded s) :
    s.left = s.decoder.unread.length := by
  have hleft := h.left_eq
  have hlow := h.idx_nonneg
  simp only [decoder, MessageDecode.unread, List.length_drop]
  omega

theorem Bounded.compact_decoder {s : FeedState} (h : Bounded s) :
    s.decoder.compact =
      if 1024 * 512 < s.idx then
        { s.decoder with inputbuf := s.inputbuf.drop s.idx.toNat, idx := 0 }
      else s.decoder := by
  have hidx : (s.decoder.idx : Int) = s.idx := Int.toNat_of_nonneg h.idx_nonneg
  unfold MessageDecode.compact
  by_cases hbig : 1024 * 512 < s.idx
  · rw [if_pos hbig, if_pos (by omega)]
    rfl
  · rw [if_neg hbig, if_neg (by omega)]

theorem Bounded.step_head {s : FeedState} (h : Bounded s) (hpoint : s.point = .head) :
    s.step = some { s with
      inputbuf := s.decoder.compact.inputbuf
      idx := s.decoder.compact.idx
      point := .compacted } := by
  have hlow := h.idx_nonneg
  have hhigh := h.idx_le_length
  rw [FeedState.step, hpoint, h.compact_decoder]
  simp only
  by_cases hbig : 1024 * 512 < s.idx
  · -- the cursor is inside the buffer, so the rest can be copied
    rw [if_pos hbig, if_pos hbig, if_neg (by omega)]
    simp
  · rw [if_neg hbig, if_neg hbig]
    simp [decoder, hlow]

/-- Behind the compaction the call goes on as the parser says of the unread bytes. -/
theorem Bounded.step_compacted {s : FeedState} (h : Bounded s) (hpoint : s.point = .compacted) :
    s.step =
      match framing.next s.decoder.unread with
      | .more => some { s with point := .idle }
      | .broken => some { s with error := true, inputbuf := [], idx := 0, point := .idle }
      | .item _ _ => some { s with point := .header (readCrcBig s.decoder.unread) } := by
  have hlow := h.idx_nonneg
  have hlen : s.decoder.unread.length = s.inputbuf.length - s.idx.toNat := List.length_drop
  rw [framing_next, framingNext, step, hpoint, h.left_eq_length]
  simp only
  -- both sides make the same three tests
  by_cases h4 : s.decoder.unread.length < 4
  · simp only [if_pos h4]
  · -- four unread bytes are inside the buffer
    have hread : ¬ (s.idx < 0 ∨ (s.inputbuf.length : Int) < s.idx + 4) := by omega
    simp only [if_neg h4, if_neg hread]
    change (if messagemaxlen < readCrcBig s.decoder.unread then _ else _) = _
    by_cases hbig : messagemaxlen < readCrcBig s.decoder.unread
    · simp only [if_pos hbig]
    · by_cases hbody : s.decoder.unread.length - 4 < (readCrcBig s.decoder.unread).toNat
      · simp only [if_neg hbig, if_pos hbody]
        exact if_pos hbody
      · simp only [if_neg hbig, if_neg hbody]
        exact if_neg hbody

theorem Bounded.step_header {s : FeedState} {msgLen : UInt32} (h : Bounded s)
    (hpoint : s.point = .header msgLen) :
    s.step = some { s with idx := s.idx + 4, point := .body msgLen } := by
  have hidx := h.idx_le
  rw [step, hpoint]
  exact if_neg (by omega)

theorem Bounded.step_body {s : FeedState} {msgLen : UInt32} (h : Bounded s)
    (hpoint : s.point = .body msgLen) :
    s.step = some { s with
      msg := s.msg ++ [(s.inputbuf.drop s.idx.toNat).take msgLen.toNat]
      idx := s.idx + msgLen.toNat
      point := .head } := by
  have hlow := h.idx_nonneg
  have hbody := h.at_point
  simp only [hpoint] at hbody
  rw [step, hpoint]
  simp only
  -- the sum fits an `int`
  rw [if_neg (by omega), toInt_of_lt (by omega) (by omega)]

/-- A running call has a next statement, and it keeps the bounds. -/
theorem Bounded.step {s : FeedState} (h : Bounded s) (hrun : s.point ≠ .idle) :
    ∃ t, s.step = some t ∧ Bounded t := by
  have hlow := h.idx_nonneg
  have hhigh := h.idx_le_length
  have hlen := h.length_lt
  have hbound := h.at_point
  cases hpoint : s.point with
  | idle => exact absurd hpoint hrun
  | head =>
    refine ⟨_, h.step_head hpoint, ?_⟩
    rw [h.compact_decoder]
    simp only [hpoint] at hbound
    split
    · constructor <;> simp only [List.length_drop] <;> omega
    · constructor <;> simp only [decoder] <;> omega
  | compacted =>
    simp only [hpoint] at hbound
    rw [h.step_compacted hpoint]
    cases hnext : framing.next s.decoder.unread with
    | more =>
      refine ⟨_, rfl, hlow, hhigh, hlen, hbound, ?_⟩
      -- fewer than four bytes, or a body that is not all there
      have hmore := hnext
      rw [framing_next, framingNext_eq_more, UInt32.le_iff_toNat_le, messagemaxlen_toNat] at hmore
      have hunread : s.decoder.unread.length = s.inputbuf.length - s.idx.toNat := List.length_drop
      simp only
      omega
    | broken =>
      refine ⟨_, rfl, le_rfl, ?_, ?_, ?_⟩ <;> simp
    | item v n =>
      refine ⟨_, rfl, hlow, hhigh, hlen, hbound, ?_⟩
      obtain ⟨-, hmax, hle, -, -⟩ := framingNext_eq_item.mp hnext
      rw [UInt32.le_iff_toNat_le, messagemaxlen_toNat] at hmax
      have hunread : s.decoder.unread.length = s.inputbuf.length - s.idx.toNat := List.length_drop
      simp only
      omega
  | header msgLen =>
    simp only [hpoint] at hbound
    refine ⟨_, h.step_header hpoint, ?_⟩
    constructor <;> simp only <;> omega
  | body msgLen =>
    simp only [hpoint] at hbound
    refine ⟨_, h.step_body hpoint, ?_⟩
    constructor <;> simp only <;> omega

theorem Bounded.next {s t : FeedState} (h : Bounded s) (hstep : s.step = some t) : Bounded t := by
  have hrun : s.point ≠ .idle := by
    intro hidle
    simp [FeedState.step, hidle] at hstep
  obtain ⟨u, hu, hbounded⟩ := h.step hrun
  rw [hstep] at hu
  cases hu
  exact hbounded

/-! ## A whole call -/

theorem Bounded.steps {s t : FeedState} (h : Bounded s) (hsteps : Steps s t) : Bounded t := by
  induction hsteps with
  | refl => exact h
  | tail _ hlast ih => exact ih.next hlast

/-- A message is passed with its header and appended. -/
theorem Bounded.steps_header {s : FeedState} {msgLen : UInt32} (h : Bounded s)
    (hpoint : s.point = .header msgLen) :
    ∃ t, Steps s t ∧ t.point = .head ∧
      t.decoder = { s.decoder with
        msg := s.msg ++ [(s.decoder.unread.drop 4).take msgLen.toNat]
        idx := s.decoder.idx + (4 + msgLen.toNat) } := by
  have hlow := h.idx_nonneg
  have hpassed := h.step_header hpoint
  have happended := (h.next hpassed).step_body rfl
  refine ⟨_, .head hpassed (.single happended), rfl, ?_⟩
  -- the cursor moves by the header and by the body
  have hheader : (s.idx + 4).toNat = s.idx.toNat + 4 := by omega
  have hbody : (s.idx + 4 + msgLen.toNat).toNat = s.idx.toNat + (4 + msgLen.toNat) := by omega
  simp [decoder, MessageDecode.unread, List.drop_drop, hheader, hbody]

/-- The statements of one turn do what the turn over natural numbers does. -/
theorem Bounded.steps_turn {s : FeedState} (h : Bounded s) (hpoint : s.point = .head) :
    ∃ t, Steps s t ∧
      match s.decoder.feedTurn with
      | .inl d => t.point = .head ∧ t.decoder = d
      | .inr d => t.point = .idle ∧ t.decoder = d := by
  have hhead := h.step_head hpoint
  generalize hs₁ : ({ s with
      inputbuf := s.decoder.compact.inputbuf
      idx := s.decoder.compact.idx
      point := .compacted } : FeedState) = s₁ at hhead
  have hbounded := h.next hhead
  have hdecoder : s₁.decoder = s.decoder.compact := by
    rw [← hs₁]
    simp only [decoder, Int.toNat_natCast]
    rw [MessageDecode.mk.injEq]
    simp
  have hmsg : s₁.msg = s.decoder.msg := by
    rw [← hs₁]
    rfl
  have hunread : s₁.decoder.unread = s.decoder.unread := by
    rw [hdecoder]
    exact s.decoder.compact_unread
  -- both sides ask the parser about the same unread bytes
  have hnext := hbounded.step_compacted (by rw [← hs₁])
  have hturn := s.decoder.feedTurn_eq
  rw [hunread] at hnext
  cases hverdict : framing.next s.decoder.unread with
  | more =>
    rw [hverdict] at hnext hturn
    refine ⟨_, .head hhead (.single hnext), ?_⟩
    rw [hturn, ← hdecoder]
    exact ⟨rfl, rfl⟩
  | broken =>
    rw [hverdict] at hnext hturn
    refine ⟨_, .head hhead (.single hnext), ?_⟩
    rw [hturn, ← hdecoder]
    exact ⟨rfl, rfl⟩
  | item v n =>
    rw [hverdict] at hnext hturn
    obtain ⟨-, -, -, rfl, rfl⟩ := framingNext_eq_item.mp hverdict
    obtain ⟨t, hsteps, hpoint', hdecoder'⟩ := (hbounded.next hnext).steps_header rfl
    refine ⟨t, .head hhead (.head hnext hsteps), ?_⟩
    have hsame : t.decoder = { s₁.decoder with
        msg := s₁.msg ++ [(s₁.decoder.unread.drop 4).take (readCrcBig s.decoder.unread).toNat]
        idx := s₁.decoder.idx + (4 + (readCrcBig s.decoder.unread).toNat) } := hdecoder'
    rw [hturn, ← hdecoder, ← hmsg]
    rw [hunread] at hsame
    exact ⟨hpoint', hsame⟩

/-- A call goes from the head of the loop to its end, where it leaves what the loop over
natural numbers leaves. -/
theorem Bounded.steps_feedLoop {s : FeedState} (h : Bounded s) (hpoint : s.point = .head) :
    ∃ t, Steps s t ∧ t.point = .idle ∧ t.decoder = MessageDecode.feedLoop.exec s.decoder := by
  -- along the turns of the loop over natural numbers
  generalize hd : s.decoder = d
  induction d using MessageDecode.feedLoop.induct generalizing s with
  | turn d ih =>
    subst hd
    obtain ⟨t, hsteps, hturn⟩ := h.steps_turn hpoint
    cases hbody : s.decoder.feedTurn with
    | inl d =>
      rw [hbody] at hturn
      obtain ⟨hpoint', hdecoder⟩ := hturn
      obtain ⟨u, hrest, hidle, hu⟩ := ih d hbody (h.steps hsteps) hpoint' hdecoder
      refine ⟨u, hsteps.trans hrest, hidle, ?_⟩
      rw [MessageDecode.feedLoop.exec_of_inl hbody]
      exact hu
    | inr d =>
      rw [hbody] at hturn
      obtain ⟨hidle, hdecoder⟩ := hturn
      refine ⟨t, hsteps, hidle, ?_⟩
      rw [MessageDecode.feedLoop.exec_of_inr hbody]
      exact hdecoder

/-- Every call of `feed` ends, with the decoder that `MessageDecode.feed` makes. -/
theorem Bounded.steps_feed {s : FeedState} (h : Bounded s) (hidle : s.point = .idle)
    (chunk : Chunk) :
    ∃ t, Steps (s.feed chunk) t ∧ t.point = .idle ∧ t.decoder = s.decoder.feed chunk.bytes := by
  have hstart := h.feed hidle chunk
  cases herror : s.error with
  | true =>
    -- a broken decoder returns at once
    have hsame : s.feed chunk = s := by simp [FeedState.feed, herror]
    have hfeed : s.decoder.feed chunk.bytes = s.decoder :=
      MessageDecode.feed_of_error herror chunk.bytes
    rw [hsame, hfeed]
    exact ⟨s, .refl, hidle, rfl⟩
  | false =>
    have hfeed : s.feed chunk =
        { s with inputbuf := s.inputbuf ++ chunk.bytes, point := .head } := by
      simp [FeedState.feed, herror]
    have hloop : s.decoder.feed chunk.bytes =
        MessageDecode.feedLoop.exec (s.feed chunk).decoder := by
      rw [hfeed]
      simp [MessageDecode.feed, decoder, herror]
    rw [hloop]
    exact hstart.steps_feedLoop (by rw [hfeed])

end FeedState

/-! ## Every reachable state -/

/-- Every reachable state is within the bounds of its point. -/
theorem feedSystem_bounded {s : FeedState} (h : feedSystem.Reachable s) : s.Bounded := by
  apply h.invariant
  · rintro s rfl
    exact .fresh
  · intro s a t hs hstep
    cases a with
    | feed chunk =>
      obtain ⟨hidle, rfl⟩ := hstep
      exact hs.feed hidle chunk
    | take =>
      obtain ⟨-, rfl⟩ := hstep
      exact hs.take
    | statement => exact hs.next hstep

/-- The bounds of the decoder. Whatever it is fed, and wherever a call of `feed` is, the cursor
is inside the buffer and below the sum of the three constants, so the unsigned difference is
the difference and no addition to the `int` overflows. The next statement of a running call
can be executed; a call ends, with the decoder of `MessageDecode.feed`. Between two calls the
cursor is at most at 512 KiB, and behind it lies less than one message of the largest size
with its header. -/
theorem feed_bounds {s : FeedState} (h : feedSystem.Reachable s) :
    (0 ≤ s.idx ∧ s.idx ≤ s.inputbuf.length ∧ s.idx ≤ 524288 + 4 + 1048576) ∧
      (s.left : Int) = s.inputbuf.length - s.idx ∧
      (∀ msgLen, s.point = .header msgLen → s.idx + 4 < 2 ^ 31) ∧
      (∀ msgLen, s.point = .body msgLen → s.idx + msgLen.toNat < 2 ^ 31) ∧
      (s.point ≠ .idle → s.step.isSome) ∧
      (s.point = .idle →
        (∀ chunk, ∃ t, (s.feed chunk).Steps t ∧ t.point = .idle ∧
          t.decoder = s.decoder.feed chunk.bytes) ∧
        (s.error = false → s.idx ≤ 524288 ∧ s.inputbuf.length - s.idx < 4 + 1048576 ∧
          s.inputbuf.length < 1572868)) := by
  have hs := feedSystem_bounded h
  have hpoint := hs.at_point
  refine ⟨⟨hs.idx_nonneg, hs.idx_le_length, hs.idx_le⟩, hs.left_eq, ?_, ?_, ?_, ?_⟩
  · intro msgLen hheader
    simp only [hheader] at hpoint
    omega
  · intro msgLen hbody
    simp only [hbody] at hpoint
    omega
  · intro hrun
    obtain ⟨t, hstep, -⟩ := hs.step hrun
    simp [hstep]
  · intro hidle
    simp only [hidle] at hpoint
    refine ⟨hs.steps_feed hidle, ?_⟩
    intro herror
    omega

theorem feed_bounds_header :
    ∃ s : FeedState, s.point = .head ∧ s.inputbuf = [0, 0, 0, 1, 97] ∧
      (s.idx ≤ s.inputbuf.length ∧ s.step.isSome) := by
  have hreach : feedSystem.Reachable { inputbuf := [0, 0, 0, 1, 97], point := .head } := by
    apply TransitionSystem.Reachable.step (a := .feed ⟨[0, 0, 0, 1, 97], by simp⟩) (.of_init rfl)
    exact ⟨rfl, rfl⟩
  obtain ⟨⟨-, hidx, -⟩, -, -, -, hstep, -⟩ := feed_bounds hreach
  exact ⟨_, rfl, rfl, hidx, hstep (by simp)⟩

end ServiceInfra.Net
