import ServiceInfra.ByteOrder
import ServiceInfra.Library.Loop

/-!
# Message framing

`net::encode` and `net::messagedecode`. A message travels as its length in four
big-endian bytes followed by its bytes. The decoder buffers what it is fed, moves
the complete messages to a queue, and gives up for good on a length above
`messagemaxlen`.
-/

namespace ServiceInfra.Net

open Library

/-- The largest message the decoder accepts. -/
def messagemaxlen : UInt32 := 1024 * 1024

@[simp] theorem messagemaxlen_toNat : messagemaxlen.toNat = 1048576 := by decide

/-- `net::encode`: `htonl` of the size, then the bytes. -/
def encode (msg : List UInt8) : List UInt8 :=
  writeU32Be (UInt32.ofNat msg.length) ++ msg

@[simp] theorem length_encode (msg : List UInt8) : (encode msg).length = msg.length + 4 := by
  simp [encode, Nat.add_comm]

/-! ## The decoder -/

/-- `net::messagedecode`. -/
structure MessageDecode where
  /-- `Inputbuf`: the bytes fed and not yet dropped. -/
  inputbuf : List UInt8 := []
  /-- `msg`: the complete messages not yet taken. -/
  msg : List (List UInt8) := []
  /-- `error`: a length above the limit was seen. -/
  error : Bool := false
  /-- `idx`: where the unread part of `inputbuf` starts. -/
  idx : Nat := 0
  deriving DecidableEq, Repr

namespace MessageDecode

/-- The start of each turn of `feed`: drop the read bytes once there are more than
512 KiB of them. -/
def compact (d : MessageDecode) : MessageDecode :=
  if 1024 * 512 < d.idx then { d with inputbuf := d.inputbuf.drop d.idx, idx := 0 } else d

/-- One turn of the `while(1)` in `feed`. -/
def feedTurn (d : MessageDecode) : MessageDecode ⊕ MessageDecode :=
  let d := d.compact
  if d.inputbuf.length - d.idx < 4 then .inr d
  else
    -- `memcpy` of four bytes, then `ntohl`
    let msgLen := readCrcBig (d.inputbuf.drop d.idx)
    if messagemaxlen < msgLen then .inr { d with error := true, inputbuf := [], idx := 0 }
    else if d.inputbuf.length - d.idx - 4 < msgLen.toNat then .inr d
    else
      .inl { d with
        msg := d.msg ++ [(d.inputbuf.drop (d.idx + 4)).take msgLen.toNat]
        idx := d.idx + 4 + msgLen.toNat }

theorem compact_unread (d : MessageDecode) :
    d.compact.inputbuf.drop d.compact.idx = d.inputbuf.drop d.idx := by
  unfold compact
  split <;> simp

theorem compact_unread_length (d : MessageDecode) :
    d.compact.inputbuf.length - d.compact.idx = d.inputbuf.length - d.idx := by
  -- the unread part has the same bytes, so as many of them
  simpa using congrArg List.length d.compact_unread

@[simp] theorem compact_msg (d : MessageDecode) : d.compact.msg = d.msg := by
  unfold compact
  split <;> rfl

@[simp] theorem compact_error (d : MessageDecode) : d.compact.error = d.error := by
  unfold compact
  split <;> rfl

/-- The loop of `feed`: each message read shortens the unread part. -/
def feedLoop : Loop MessageDecode MessageDecode where
  body := feedTurn
  variant d := d.inputbuf.length - d.idx
  variant_lt d d' h := by
    -- only the turn that reads a message goes on, and it moves the cursor
    rw [← d.compact_unread_length]
    simp only [feedTurn] at h
    split at h
    · cases h
    · split at h
      · cases h
      · split at h
        · cases h
        · cases h
          simp only
          omega

/-- `messagedecode::feed`. -/
def feed (d : MessageDecode) (data : List UInt8) : MessageDecode :=
  if d.error then d else feedLoop.exec { d with inputbuf := d.inputbuf ++ data }

/-- `messagedecode::take`: hand over the queue and leave it empty. -/
def take (d : MessageDecode) : List (List UInt8) × MessageDecode :=
  (d.msg, { d with msg := [] })

/-- `messagedecode::brokenmessage`. -/
def brokenmessage (d : MessageDecode) : Bool := d.error

end MessageDecode

end ServiceInfra.Net
