import Mathlib.Data.List.TakeWhile
import ServiceInfra.Net.Message
import ServiceInfra.Library.StreamParser

/-!
# Decoding a byte stream

What the decoder is for: however a byte stream is cut into chunks and whenever the
queue is taken, the messages delivered are those of the plain parse of the whole
stream. The parse is an instance of the stream-parser library, and the decoder
simulates it: its queue holds the items not yet taken, its unread bytes are the rest.

Main results:
- `MessageDecode.run_eq_parse`: the decoder computes the parse
- `MessageDecode.run_encode`: encoding and decoding are inverse
-/

namespace ServiceInfra.Net

open Library

/-! ## The framing as a stream parser -/

/-- The framing: four bytes of length, then the body; a length above the limit breaks
the stream. -/
def framingNext (bs : List UInt8) : Verdict (List UInt8) :=
  if bs.length < 4 then .more
  else if messagemaxlen < readCrcBig bs then .broken
  else if bs.length - 4 < (readCrcBig bs).toNat then .more
  else .item ((bs.drop 4).take (readCrcBig bs).toNat) (4 + (readCrcBig bs).toNat)

/-- An item is read exactly when its header and body are there and within the limit. -/
theorem framingNext_eq_item {bs v : List UInt8} {n : Nat} :
    framingNext bs = .item v n ↔
      4 ≤ bs.length ∧ readCrcBig bs ≤ messagemaxlen ∧ 4 + (readCrcBig bs).toNat ≤ bs.length ∧
        v = (bs.drop 4).take (readCrcBig bs).toNat ∧ n = 4 + (readCrcBig bs).toNat := by
  unfold framingNext
  split
  · -- not even a header
    simp only [reduceCtorEq, false_iff, not_and]
    omega
  · split
    · -- a length above the limit
      rename_i hbig
      simp [UInt32.not_le.mpr hbig]
    · rename_i hbig
      split
      · simp only [reduceCtorEq, false_iff, not_and]
        omega
      · -- header and body are there
        simp only [Verdict.item.injEq, UInt32.not_lt.mp hbig, true_and]
        constructor
        · rintro ⟨rfl, rfl⟩
          exact ⟨by omega, by omega, rfl, rfl⟩
        · rintro ⟨-, -, rfl, rfl⟩
          exact ⟨rfl, rfl⟩

theorem framingNext_eq_broken {bs : List UInt8} :
    framingNext bs = .broken ↔ 4 ≤ bs.length ∧ messagemaxlen < readCrcBig bs := by
  unfold framingNext
  split
  · simp only [reduceCtorEq, false_iff, not_and]
    omega
  · split
    · simp_all
    · split <;> simp_all

theorem framingNext_eq_more {bs : List UInt8} :
    framingNext bs = .more ↔
      bs.length < 4 ∨
        (readCrcBig bs ≤ messagemaxlen ∧ bs.length < 4 + (readCrcBig bs).toNat) := by
  unfold framingNext
  split
  · rename_i h4
    simp [h4]
  · split
    · rename_i h4 hbig
      simp [h4, UInt32.not_le.mpr hbig]
    · rename_i h4 hbig
      split
      · simp only [UInt32.not_lt.mp hbig, true_and, true_iff]
        omega
      · simp only [reduceCtorEq, false_iff, not_or, not_and]
        omega

/-- The stream of length-prefixed messages. -/
def framing : StreamParser UInt8 (List UInt8) where
  next := framingNext
  item_bounds h := by
    obtain ⟨-, -, hle, -, rfl⟩ := framingNext_eq_item.mp h
    exact ⟨by omega, hle⟩
  item_append ys h := by
    obtain ⟨h4, hmax, hle, rfl, rfl⟩ := framingNext_eq_item.mp h
    -- an item lies in the part that was there before, and neither its length nor its
    -- body changes
    have hread := readCrcBig_append h4 ys
    refine framingNext_eq_item.mpr ?_
    rw [hread, List.length_append, List.drop_append_of_le_length h4,
      List.take_append_of_le_length (by rw [List.length_drop]; omega)]
    exact ⟨by omega, hmax, by omega, rfl, rfl⟩
  broken_append ys h := by
    obtain ⟨h4, hmax⟩ := framingNext_eq_broken.mp h
    refine framingNext_eq_broken.mpr ⟨by rw [List.length_append]; omega, ?_⟩
    rwa [readCrcBig_append h4]

theorem framing_next (bs : List UInt8) : framing.next bs = framingNext bs := rfl

/-- An encoded message within the limit is read back. -/
theorem framing_encode {m : List UInt8} (h : m.length ≤ 1048576) (ys : List UInt8) :
    framing.next (encode m ++ ys) = .item m (encode m).length := by
  have hread : readCrcBig (encode m ++ ys) = UInt32.ofNat m.length := by
    rw [encode, List.append_assoc, readCrcBig_writeU32Be]
  -- `htonl` of a `uint32_t`: the size fits
  have hlen : (UInt32.ofNat m.length).toNat = m.length := by
    rw [UInt32.toNat_ofNat']
    omega
  rw [framing_next, framingNext_eq_item, hread, hlen]
  have hlength : (encode m ++ ys).length = 4 + m.length + ys.length := by
    simp [Nat.add_comm]
  refine ⟨by omega, ?_, by omega, ?_, by simp [Nat.add_comm]⟩
  · rw [UInt32.le_iff_toNat_le, hlen, messagemaxlen_toNat]
    exact h
  · rw [encode, List.append_assoc, List.drop_left' (length_writeU32Be _), List.take_left]

/-- An encoded message above the limit breaks the stream. -/
theorem framing_encode_broken {m : List UInt8} (h : 1048576 < m.length) (hm : m.length < 2 ^ 32)
    (ys : List UInt8) : framing.next (encode m ++ ys) = .broken := by
  have hread : readCrcBig (encode m ++ ys) = UInt32.ofNat m.length := by
    rw [encode, List.append_assoc, readCrcBig_writeU32Be]
  rw [framing_next, framingNext_eq_broken]
  refine ⟨by rw [List.length_append, length_encode]; omega, ?_⟩
  rw [hread, UInt32.lt_iff_toNat_lt, UInt32.toNat_ofNat', Nat.mod_eq_of_lt hm,
    messagemaxlen_toNat]
  exact h

/-- The symbols of an item are its encoding. -/
theorem encode_of_framing {bs v : List UInt8} {n : Nat} (h : framing.next bs = .item v n) :
    bs.take n = encode v := by
  obtain ⟨h4, -, hle, rfl, rfl⟩ := framingNext_eq_item.mp h
  have hlen : ((bs.drop 4).take (readCrcBig bs).toNat).length = (readCrcBig bs).toNat := by
    rw [List.length_take, List.length_drop]
    omega
  rw [encode, hlen, UInt32.ofNat_toNat, writeU32Be_readCrcBig h4, List.take_add]

/-! ## The decoder simulates the parse -/

namespace MessageDecode

/-- The bytes fed and not yet read. -/
def unread (d : MessageDecode) : List UInt8 := d.inputbuf.drop d.idx

/-- One turn of `feed` does what the parser says of the unread bytes. -/
theorem feedTurn_eq (d : MessageDecode) :
    match framing.next d.unread with
    | .more => feedTurn d = .inr d.compact
    | .broken => feedTurn d = .inr { d.compact with error := true, inputbuf := [], idx := 0 }
    | .item v n =>
        feedTurn d = .inl { d.compact with msg := d.msg ++ [v], idx := d.compact.idx + n } := by
  have hlen : d.unread.length = d.compact.inputbuf.length - d.compact.idx := by
    rw [unread, List.length_drop, compact_unread_length]
  -- dropping the read bytes first changes nothing that is unread
  have hread : d.unread = d.compact.inputbuf.drop d.compact.idx := d.compact_unread.symm
  show match framingNext d.unread with
    | .more => _
    | .broken => _
    | .item v n => _
  unfold framingNext feedTurn
  simp only [← hread, ← hlen, compact_msg]
  -- both sides make the same three tests on the unread bytes
  by_cases h4 : d.unread.length < 4
  · simp only [if_pos h4]
  · by_cases hbig : messagemaxlen < readCrcBig d.unread
    · simp only [if_neg h4, if_pos hbig]
    · by_cases hbody : d.unread.length - 4 < (readCrcBig d.unread).toNat
      · simp only [if_neg h4, if_neg hbig, if_pos hbody]
      · simp only [if_neg h4, if_neg hbig, if_neg hbody]
        rw [Nat.add_assoc, hread, List.drop_drop]

/-- What `feed`'s loop makes of a decoder, in terms of the parse of the unread bytes. -/
structure Fed (d d' : MessageDecode) : Prop where
  msg_eq : d'.msg = d.msg ++ (framing.parse d.unread).items
  error_eq : d'.error = (framing.parse d.unread).broken
  unread_eq : d'.error = false → d'.unread = (framing.parse d.unread).rest
  idx_le : d'.idx ≤ d'.inputbuf.length

theorem compact_idx_le {d : MessageDecode} (h : d.idx ≤ d.inputbuf.length) :
    d.compact.idx ≤ d.compact.inputbuf.length := by
  unfold compact
  split
  · exact Nat.zero_le _
  · exact h

theorem feedLoop_fed (d : MessageDecode) (hidx : d.idx ≤ d.inputbuf.length)
    (herr : d.error = false) : Fed d (feedLoop.exec d) := by
  -- along the turns of the loop: one turn is one step of the parse
  induction d using feedLoop.induct with
  | turn d ih =>
    have hturn := d.feedTurn_eq
    cases hn : framing.next d.unread with
    | more =>
      rw [hn] at hturn
      have hparse := framing.parse_of_more hn
      rw [feedLoop.exec_of_inr hturn]
      refine ⟨?_, ?_, ?_, compact_idx_le hidx⟩ <;> rw [hparse]
      · simp
      · simpa using herr
      · exact fun _ => d.compact_unread
    | broken =>
      rw [hn] at hturn
      have hparse := framing.parse_of_broken hn
      rw [feedLoop.exec_of_inr hturn]
      refine ⟨?_, ?_, ?_, le_rfl⟩ <;> rw [hparse]
      · simp
      · simp
    | item v n =>
      rw [hn] at hturn
      -- the cursor stays inside the buffer, since an item lies inside the unread bytes
      have hle : n ≤ d.compact.inputbuf.length - d.compact.idx := by
        rw [compact_unread_length, ← List.length_drop]
        exact (framing.item_bounds hn).2
      have hunread : ({ d.compact with
          msg := d.msg ++ [v], idx := d.compact.idx + n } : MessageDecode).unread =
            d.unread.drop n := by
        rw [unread, unread, ← d.compact_unread, List.drop_drop]
      -- the next turn starts behind the item
      have hpos := (framing.item_bounds hn).1
      obtain ⟨hmsg, herror, hrest, hidx'⟩ := ih _ hturn (by simp only; omega) (by simpa using herr)
      rw [hunread] at hmsg herror hrest
      rw [feedLoop.exec_of_inl hturn]
      constructor
      · rw [hmsg, framing.parse_of_item hn]
        simp
      · rw [herror, framing.parse_of_item hn]
      · rw [framing.parse_of_item hn]
        exact hrest
      · exact hidx'

/-! ## Runs of calls -/

/-- A call on a decoder. -/
inductive Call where
  | feed (data : List UInt8)
  | take
  deriving DecidableEq, Repr

/-- A decoder with the messages taken from it so far. -/
structure Session where
  decoder : MessageDecode := {}
  taken : List (List UInt8) := []

/-- One call. -/
def Session.call (s : Session) : Call → Session
  | .feed data => { s with decoder := s.decoder.feed data }
  | .take => ⟨s.decoder.take.2, s.taken ++ s.decoder.take.1⟩

/-- The session after some calls on a fresh decoder. -/
def run (calls : List Call) : Session := calls.foldl Session.call {}

/-- Everything delivered, with a final `take`. -/
def Session.delivered (s : Session) : List (List UInt8) := s.taken ++ s.decoder.take.1

/-- The byte stream that some calls feed. -/
def fedBytes (calls : List Call) : List UInt8 :=
  calls.flatMap fun
    | .feed data => data
    | .take => []

/-- The simulation: after `stream` was fed, the session has delivered the items of its
parse, and while unbroken the unread bytes are the rest. -/
structure Simulates (stream : List UInt8) (s : Session) : Prop where
  delivered_eq : s.delivered = (framing.parse stream).items
  error_eq : s.decoder.error = (framing.parse stream).broken
  unread_eq : s.decoder.error = false → s.decoder.unread = (framing.parse stream).rest
  idx_le : s.decoder.idx ≤ s.decoder.inputbuf.length

theorem simulates_fresh : Simulates [] {} := by
  have hparse : framing.parse [] = ⟨[], false, []⟩ := framing.parse_of_more rfl
  constructor <;> simp [hparse, Session.delivered, take, unread]

theorem feed_of_error {d : MessageDecode} (h : d.error = true) (data : List UInt8) :
    d.feed data = d := by
  simp [feed, h]

theorem Simulates.feed {stream : List UInt8} {s : Session} (h : Simulates stream s)
    (data : List UInt8) : Simulates (stream ++ data) (s.call (.feed data)) := by
  cases herr : s.decoder.error with
  | true =>
    -- once broken, neither side looks at more input
    have hbroken : (framing.parse stream).broken = true := by rw [← h.error_eq, herr]
    have hsame : s.call (.feed data) = s := by
      simp [Session.call, feed_of_error herr]
    rw [hsame]
    refine ⟨?_, ?_, ?_, h.idx_le⟩ <;> rw [framing.parse_append_of_broken hbroken]
    · exact h.delivered_eq
    · exact h.error_eq
    · simp [herr]
  | false =>
    -- unbroken: the parse goes on from its rest, the decoder from its unread bytes
    have hbroken : (framing.parse stream).broken = false := by rw [← h.error_eq, herr]
    have hunread : ({ s.decoder with
        inputbuf := s.decoder.inputbuf ++ data } : MessageDecode).unread =
          (framing.parse stream).rest ++ data := by
      rw [← h.unread_eq herr, unread, unread, List.drop_append_of_le_length h.idx_le]
    have hfed := feedLoop_fed { s.decoder with inputbuf := s.decoder.inputbuf ++ data }
      (by have := h.idx_le; simp only [List.length_append]; omega) herr
    have hcall : s.call (.feed data) = { s with
        decoder := feedLoop.exec { s.decoder with inputbuf := s.decoder.inputbuf ++ data } } := by
      simp [Session.call, MessageDecode.feed, herr]
    have hdelivered := h.delivered_eq
    simp only [Session.delivered, MessageDecode.take] at hdelivered
    rw [hcall]
    refine ⟨?_, ?_, ?_, hfed.idx_le⟩ <;> rw [framing.parse_append hbroken, ← hunread]
    · simp only [Session.delivered, MessageDecode.take]
      rw [hfed.msg_eq, ← hdelivered, List.append_assoc]
    · exact hfed.error_eq
    · exact hfed.unread_eq

theorem Simulates.take {stream : List UInt8} {s : Session} (h : Simulates stream s) :
    Simulates stream (s.call .take) := by
  constructor
  · rw [← h.delivered_eq]
    simp [Session.delivered, Session.call, MessageDecode.take]
  · exact h.error_eq
  · exact h.unread_eq
  · exact h.idx_le

/-- Every run keeps the simulation. -/
theorem run_simulates (calls : List Call) : Simulates (fedBytes calls) (run calls) := by
  -- the last call acts on what the calls before it made
  induction calls using List.reverseRecOn with
  | nil => exact simulates_fresh
  | append_singleton calls c ih =>
    have hrun : run (calls ++ [c]) = (run calls).call c := by simp [run]
    rw [hrun]
    cases c with
    | feed data => simpa [fedBytes] using ih.feed data
    | take => simpa [fedBytes] using ih.take

/-- The decoder computes the plain parse of the stream: its messages, and whether it
breaks. Once broken, later feeds change nothing. -/
theorem run_eq_parse (calls : List Call) :
    (run calls).delivered = (framing.parse (fedBytes calls)).items ∧
      (run calls).decoder.brokenmessage = (framing.parse (fedBytes calls)).broken ∧
      ((run calls).decoder.brokenmessage = true →
        ∀ data, (run calls).decoder.feed data = (run calls).decoder) := by
  have h := run_simulates calls
  exact ⟨h.delivered_eq, h.error_eq, fun hbroken => feed_of_error hbroken⟩

/-! ## Encoding and decoding -/

/-- The parse of a stream of encoded messages. -/
theorem parse_encode {msgs : List (List UInt8)} (hsize : ∀ m ∈ msgs, m.length < 2 ^ 32) :
    (framing.parse (msgs.flatMap encode)).items = msgs.takeWhile (·.length ≤ 1048576) ∧
      ((framing.parse (msgs.flatMap encode)).broken = true ↔
        ∃ m ∈ msgs, 1048576 < m.length) := by
  let small : List UInt8 → Bool := fun m => m.length ≤ 1048576
  -- the messages in front of the first one above the limit are read back
  have hsplit : msgs.flatMap encode =
      (msgs.takeWhile small).flatMap encode ++ (msgs.dropWhile small).flatMap encode := by
    rw [← List.flatMap_append, List.takeWhile_append_dropWhile]
  have hread : ∀ m ∈ msgs.takeWhile small, ∀ ys,
      framing.next (encode m ++ ys) = .item m (encode m).length := by
    intro m hm ys
    have hle : m.length ≤ 1048576 := by simpa [small] using List.mem_takeWhile_imp hm
    exact framing_encode hle ys
  rw [hsplit, framing.parse_flatMap hread]
  cases hrest : msgs.dropWhile small with
  | nil =>
    have hparse : framing.parse [] = ⟨[], false, []⟩ := framing.parse_of_more rfl
    have hall : ∀ m ∈ msgs, m.length ≤ 1048576 := by
      intro m hm
      simpa [small] using List.dropWhile_eq_nil_iff.mp hrest m hm
    refine ⟨by simp [hparse, small], ?_⟩
    rw [List.flatMap_nil, hparse]
    apply iff_of_false Bool.false_ne_true
    rintro ⟨m, hm, hbig⟩
    exact Nat.not_lt.mpr (hall m hm) hbig
  | cons m rest =>
    -- the first message above the limit breaks the parse
    have hm : m ∈ msgs := by
      apply List.dropWhile_sublist small |>.subset
      rw [hrest]
      exact List.mem_cons_self
    have hbig : 1048576 < m.length := by
      have hhead := List.head_dropWhile_not small (l := msgs) (by simp [hrest])
      simpa [small, hrest] using hhead
    have hparse := framing.parse_of_broken
      (framing_encode_broken hbig (hsize m hm) (rest.flatMap encode))
    rw [List.flatMap_cons, hparse]
    refine ⟨by simp [small], ?_⟩
    exact iff_of_true rfl ⟨m, hm, hbig⟩

/-- Encoding and decoding are inverse over message streams. A stream of encoded messages
delivers the longest prefix of messages within the limit, and breaks exactly when some
message exceeds it; and while a decoder is unbroken, the encodings of what it delivered
followed by its unread bytes are what it was fed. -/
theorem run_encode :
    (∀ (msgs : List (List UInt8)) (calls : List Call), (∀ m ∈ msgs, m.length < 2 ^ 32) →
      fedBytes calls = msgs.flatMap encode →
      (run calls).delivered = msgs.takeWhile (·.length ≤ 1048576) ∧
        ((run calls).decoder.brokenmessage = true ↔ ∃ m ∈ msgs, 1048576 < m.length)) ∧
    (∀ calls : List Call, (run calls).decoder.brokenmessage = false →
      (run calls).delivered.flatMap encode ++ (run calls).decoder.unread = fedBytes calls) := by
  constructor
  · intro msgs calls hsize hfed
    have h := run_simulates calls
    rw [hfed] at h
    obtain ⟨hitems, hbroken⟩ := parse_encode hsize
    exact ⟨h.delivered_eq.trans hitems, by rw [brokenmessage, h.error_eq]; exact hbroken⟩
  · intro calls hbroken
    have h := run_simulates calls
    rw [h.delivered_eq, h.unread_eq hbroken]
    exact framing.flatMap_items_append_rest (fun _ _ _ => encode_of_framing) _

/-- Two messages, cut inside the header of the second. -/
theorem run_encode_chunks :
    let calls : List Call :=
      [.feed [0, 0, 0, 1, 0x41, 0, 0], .take, .feed [0, 2, 0x42, 0x43], .take]
    (run calls).delivered = [[0x41], [0x42, 0x43]] ∧
      (run calls).delivered.flatMap encode ++ (run calls).decoder.unread = fedBytes calls := by
  intro calls
  have hdelivered := (run_encode.1 [[0x41], [0x42, 0x43]] calls (by decide) (by decide)).1
  exact ⟨hdelivered, run_encode.2 calls (by decide +kernel)⟩

end MessageDecode

end ServiceInfra.Net
