import ServiceInfra.Library.BigEndian
import Mathlib.Tactic

/-!
# Big-endian fields

The four helpers that `Segment.cpp` and `Commit_log.cpp` each define for
themselves, in the same words: `read_crc_big`, `read_u64_be`, `write_u32_be` and
`write_u64_be`. A pointer argument is the byte string that starts there; reading past
its end reads 0, which no caller whose buffer is long enough can see.
-/

namespace ServiceInfra

open Library

/-! ## The helpers -/

/-- `read_crc_big`: four bytes, most significant first. -/
def readCrcBig (p : List UInt8) : UInt32 :=
  ((p.getD 0 0).toUInt32 <<< 24) ||| ((p.getD 1 0).toUInt32 <<< 16) |||
    ((p.getD 2 0).toUInt32 <<< 8) ||| ((p.getD 3 0).toUInt32 <<< 0)

/-- `read_u64_be`: eight bytes, most significant first. -/
def readU64Be (p : List UInt8) : UInt64 :=
  ((p.getD 0 0).toUInt64 <<< 56) ||| ((p.getD 1 0).toUInt64 <<< 48) |||
    ((p.getD 2 0).toUInt64 <<< 40) ||| ((p.getD 3 0).toUInt64 <<< 32) |||
    ((p.getD 4 0).toUInt64 <<< 24) ||| ((p.getD 5 0).toUInt64 <<< 16) |||
    ((p.getD 6 0).toUInt64 <<< 8) ||| (p.getD 7 0).toUInt64

/-- `write_u32_be`: the four bytes it stores at `p`. -/
def writeU32Be (v : UInt32) : List UInt8 :=
  [((v >>> 24) &&& 0xFF).toUInt8, ((v >>> 16) &&& 0xFF).toUInt8,
    ((v >>> 8) &&& 0xFF).toUInt8, (v &&& 0xFF).toUInt8]

/-- `write_u64_be`: the eight bytes it stores at `p`. -/
def writeU64Be (v : UInt64) : List UInt8 :=
  [((v >>> 56) &&& 0xFF).toUInt8, ((v >>> 48) &&& 0xFF).toUInt8,
    ((v >>> 40) &&& 0xFF).toUInt8, ((v >>> 32) &&& 0xFF).toUInt8,
    ((v >>> 24) &&& 0xFF).toUInt8, ((v >>> 16) &&& 0xFF).toUInt8,
    ((v >>> 8) &&& 0xFF).toUInt8, (v &&& 0xFF).toUInt8]

/-! ## Their values -/

private theorem shiftLeft_mod (b k w : Nat) (hb : b < 256) (hk : k + 8 ≤ w) :
    b <<< k % 2 ^ w = b * 2 ^ k := by
  -- a shifted byte fits the word
  have hlt : b * 2 ^ k < 2 ^ w := calc
    b * 2 ^ k < 256 * 2 ^ k := Nat.mul_lt_mul_of_pos_right hb (Nat.two_pow_pos k)
    _ = 2 ^ (k + 8) := by rw [pow_add]; ring
    _ ≤ 2 ^ w := Nat.pow_le_pow_right (by norm_num) hk
  rw [Nat.shiftLeft_eq, Nat.mod_eq_of_lt hlt]

theorem readCrcBig_toNat (a b c d : UInt8) (rest : List UInt8) :
    (readCrcBig (a :: b :: c :: d :: rest)).toNat = BigEndian.ofBytes [a, b, c, d] := by
  have ha : a.toNat < 256 := a.toNat_lt
  have hb : b.toNat < 256 := b.toNat_lt
  have hc : c.toNat < 256 := c.toNat_lt
  have hd : d.toNat < 256 := d.toNat_lt
  -- the shifts on machine words are products, and the ors are sums
  have hshift : (readCrcBig (a :: b :: c :: d :: rest)).toNat =
      a.toNat <<< 24 % 2 ^ 32 ||| b.toNat <<< 16 % 2 ^ 32 ||| c.toNat <<< 8 % 2 ^ 32 |||
        d.toNat <<< 0 % 2 ^ 32 := by
    simp [readCrcBig, UInt32.toNat_or, UInt32.toNat_shiftLeft]
  rw [hshift, shiftLeft_mod _ _ _ ha (by norm_num), shiftLeft_mod _ _ _ hb (by norm_num),
    shiftLeft_mod _ _ _ hc (by norm_num), shiftLeft_mod _ _ _ hd (by norm_num),
    BigEndian.shift_or_byte _ 16 hb, BigEndian.shift_or_byte _ 8 hc,
    BigEndian.shift_or_byte _ 0 hd]
  simp only [BigEndian.ofBytes_cons, BigEndian.ofBytes_nil, List.length_cons, List.length_nil]
  ring

theorem readCrcBig_toNat_of_length {p : List UInt8} (h : p.length = 4) :
    (readCrcBig p).toNat = BigEndian.ofBytes p := by
  match p, h with
  | [a, b, c, d], _ => exact readCrcBig_toNat a b c d []

theorem readU64Be_toNat (a b c d e f g h : UInt8) (rest : List UInt8) :
    (readU64Be (a :: b :: c :: d :: e :: f :: g :: h :: rest)).toNat =
      BigEndian.ofBytes [a, b, c, d, e, f, g, h] := by
  have hlt : ∀ x : UInt8, x.toNat < 256 := fun x => x.toNat_lt
  have hshift : (readU64Be (a :: b :: c :: d :: e :: f :: g :: h :: rest)).toNat =
      a.toNat <<< 56 % 2 ^ 64 ||| b.toNat <<< 48 % 2 ^ 64 ||| c.toNat <<< 40 % 2 ^ 64 |||
        d.toNat <<< 32 % 2 ^ 64 ||| e.toNat <<< 24 % 2 ^ 64 ||| f.toNat <<< 16 % 2 ^ 64 |||
        g.toNat <<< 8 % 2 ^ 64 ||| h.toNat <<< 0 % 2 ^ 64 := by
    simp [readU64Be, UInt64.toNat_or, UInt64.toNat_shiftLeft]
  rw [hshift, shiftLeft_mod _ _ _ (hlt a) (by norm_num), shiftLeft_mod _ _ _ (hlt b) (by norm_num),
    shiftLeft_mod _ _ _ (hlt c) (by norm_num), shiftLeft_mod _ _ _ (hlt d) (by norm_num),
    shiftLeft_mod _ _ _ (hlt e) (by norm_num), shiftLeft_mod _ _ _ (hlt f) (by norm_num),
    shiftLeft_mod _ _ _ (hlt g) (by norm_num), shiftLeft_mod _ _ _ (hlt h) (by norm_num),
    BigEndian.shift_or_byte _ 48 (hlt b), BigEndian.shift_or_byte _ 40 (hlt c),
    BigEndian.shift_or_byte _ 32 (hlt d), BigEndian.shift_or_byte _ 24 (hlt e),
    BigEndian.shift_or_byte _ 16 (hlt f), BigEndian.shift_or_byte _ 8 (hlt g),
    BigEndian.shift_or_byte _ 0 (hlt h)]
  simp only [BigEndian.ofBytes_cons, BigEndian.ofBytes_nil, List.length_cons, List.length_nil]
  ring

theorem writeU32Be_eq (v : UInt32) : writeU32Be v = BigEndian.toBytes 4 v.toNat := by
  -- the mask and the narrowing to a byte both take the remainder
  have hbyte : ∀ n : Nat, n % 256 &&& 255 = n % 256 := fun n => by
    rw [show 255 = 2 ^ 8 - 1 from rfl, Nat.and_two_pow_sub_one_eq_mod]
    omega
  simp only [writeU32Be, BigEndian.toBytes_succ, BigEndian.toBytes_zero, List.cons.injEq,
    and_true]
  refine ⟨?_, ?_, ?_, ?_⟩ <;> apply UInt8.toNat_inj.mp <;>
    simp [Nat.shiftRight_eq_div_pow, hbyte]

theorem writeU64Be_eq (v : UInt64) : writeU64Be v = BigEndian.toBytes 8 v.toNat := by
  have hbyte : ∀ n : Nat, n % 256 &&& 255 = n % 256 := fun n => by
    rw [show 255 = 2 ^ 8 - 1 from rfl, Nat.and_two_pow_sub_one_eq_mod]
    omega
  simp only [writeU64Be, BigEndian.toBytes_succ, BigEndian.toBytes_zero, List.cons.injEq,
    and_true]
  refine ⟨?_, ?_, ?_, ?_, ?_, ?_, ?_, ?_⟩ <;> apply UInt8.toNat_inj.mp <;>
    simp [Nat.shiftRight_eq_div_pow, hbyte]

@[simp] theorem length_writeU32Be (v : UInt32) : (writeU32Be v).length = 4 := rfl

/-! ## Round trips -/

@[simp] theorem readCrcBig_writeU32Be (v : UInt32) (rest : List UInt8) :
    readCrcBig (writeU32Be v ++ rest) = v := by
  apply UInt32.toNat_inj.mp
  have hread : (readCrcBig (writeU32Be v ++ rest)).toNat = BigEndian.ofBytes (writeU32Be v) :=
    readCrcBig_toNat _ _ _ _ rest
  rw [hread, writeU32Be_eq, BigEndian.ofBytes_toBytes]
  exact Nat.mod_eq_of_lt v.toNat_lt

@[simp] theorem readU64Be_writeU64Be (v : UInt64) (rest : List UInt8) :
    readU64Be (writeU64Be v ++ rest) = v := by
  apply UInt64.toNat_inj.mp
  have hread : (readU64Be (writeU64Be v ++ rest)).toNat = BigEndian.ofBytes (writeU64Be v) :=
    readU64Be_toNat _ _ _ _ _ _ _ _ rest
  rw [hread, writeU64Be_eq, BigEndian.ofBytes_toBytes]
  exact Nat.mod_eq_of_lt v.toNat_lt

/-- The value depends on the four bytes at `p`. -/
theorem readCrcBig_congr {p q : List UInt8} (h : ∀ i < 4, p.getD i 0 = q.getD i 0) :
    readCrcBig p = readCrcBig q := by
  simp only [readCrcBig, h 0 (by norm_num), h 1 (by norm_num), h 2 (by norm_num),
    h 3 (by norm_num)]

/-- Only the first four bytes are read. -/
theorem readCrcBig_append {p : List UInt8} (h : 4 ≤ p.length) (q : List UInt8) :
    readCrcBig (p ++ q) = readCrcBig p := by
  match p, h with
  | a :: b :: c :: d :: p, _ => rfl

/-- Writing back what was read gives the bytes it was read from. -/
theorem writeU32Be_readCrcBig {p : List UInt8} (h : 4 ≤ p.length) :
    writeU32Be (readCrcBig p) = p.take 4 := by
  match p, h with
  | a :: b :: c :: d :: p, _ =>
    rw [writeU32Be_eq, readCrcBig_toNat]
    exact BigEndian.toBytes_ofBytes [a, b, c, d]

theorem writeU64Be_readU64Be {p : List UInt8} (h : 8 ≤ p.length) :
    writeU64Be (readU64Be p) = p.take 8 := by
  match p, h with
  | a :: b :: c :: d :: e :: f :: g :: i :: p, _ =>
    rw [writeU64Be_eq, readU64Be_toNat]
    exact BigEndian.toBytes_ofBytes [a, b, c, d, e, f, g, i]

end ServiceInfra
