import Mathlib.Tactic

/-!
# Big-endian byte strings

The value of a byte string read most significant byte first, and the `w`-byte
string of a value. The two are inverse on strings of a fixed length, and both
split along concatenation.
-/

namespace ServiceInfra.Library.BigEndian

/-! ## Reading -/

/-- The value of a byte string, most significant byte first. -/
def ofBytes : List UInt8 → Nat
  | [] => 0
  | b :: bs => b.toNat * 256 ^ bs.length + ofBytes bs

@[simp] theorem ofBytes_nil : ofBytes [] = 0 := rfl

@[simp] theorem ofBytes_cons (b : UInt8) (bs : List UInt8) :
    ofBytes (b :: bs) = b.toNat * 256 ^ bs.length + ofBytes bs := rfl

theorem ofBytes_lt (bs : List UInt8) : ofBytes bs < 256 ^ bs.length := by
  induction bs with
  | nil => simp
  | cons b bs ih =>
    have hb : b.toNat + 1 ≤ 256 := b.toNat_lt
    calc ofBytes (b :: bs) < b.toNat * 256 ^ bs.length + 256 ^ bs.length := by
          simpa using ih
      _ = (b.toNat + 1) * 256 ^ bs.length := by ring
      _ ≤ 256 * 256 ^ bs.length := Nat.mul_le_mul_right _ hb
      _ = 256 ^ (b :: bs).length := by rw [List.length_cons, pow_succ]; ring

theorem ofBytes_append (xs ys : List UInt8) :
    ofBytes (xs ++ ys) = ofBytes xs * 256 ^ ys.length + ofBytes ys := by
  induction xs with
  | nil => simp
  | cons x xs ih =>
    -- a byte in front of `xs` weighs `256 ^ ys.length` more behind `ys`
    rw [List.cons_append, ofBytes_cons, ofBytes_cons, ih, List.length_append, pow_add]
    ring

/-- Or-ing a byte in just below the bytes read so far appends it to their value. -/
theorem shift_or_byte (x k : Nat) {b : Nat} (hb : b < 256) :
    x * 2 ^ (k + 8) ||| b * 2 ^ k = (x * 256 + b) * 2 ^ k := by
  have hlt : b * 2 ^ k < 2 ^ (k + 8) := by
    rw [pow_add, mul_comm (2 ^ k)]
    exact Nat.mul_lt_mul_of_pos_right hb (Nat.two_pow_pos k)
  -- the byte lies below the lowest bit of the rest, so the or is a sum
  rw [← Nat.shiftLeft_eq, ← Nat.shiftLeft_add_eq_or_of_lt hlt, Nat.shiftLeft_eq, pow_add]
  ring

/-! ## Writing -/

/-- The last `w` base-256 digits of a value, most significant first. -/
def toBytes : Nat → Nat → List UInt8
  | 0, _ => []
  | w + 1, n => UInt8.ofNat (n / 256 ^ w) :: toBytes w n

@[simp] theorem toBytes_zero (n : Nat) : toBytes 0 n = [] := rfl

@[simp] theorem toBytes_succ (w n : Nat) :
    toBytes (w + 1) n = UInt8.ofNat (n / 256 ^ w) :: toBytes w n := rfl

@[simp] theorem length_toBytes (w n : Nat) : (toBytes w n).length = w := by
  induction w with
  | zero => rfl
  | succ w ih => rw [toBytes_succ, List.length_cons, ih]

theorem take_toBytes (k w n : Nat) : (toBytes (k + w) n).take k = toBytes k (n / 256 ^ w) := by
  induction k with
  | zero => simp
  | succ k ih =>
    -- the first digit of both is the one of weight `256 ^ (k + w)`
    rw [Nat.add_right_comm, toBytes_succ, List.take_succ_cons, ih,
      toBytes_succ, Nat.div_div_eq_div_mul, ← pow_add, Nat.add_comm w k]

theorem drop_toBytes (k w n : Nat) : (toBytes (k + w) n).drop k = toBytes w n := by
  induction k with
  | zero => simp
  | succ k ih =>
    rw [Nat.add_right_comm, toBytes_succ, List.drop_succ_cons, ih]

/-! ## Round trips -/

theorem ofBytes_toBytes (w n : Nat) : ofBytes (toBytes w n) = n % 256 ^ w := by
  induction w with
  | zero => simp [Nat.mod_one]
  | succ w ih =>
    have hdigit : (UInt8.ofNat (n / 256 ^ w)).toNat = n / 256 ^ w % 256 := UInt8.toNat_ofNat'
    rw [toBytes_succ, ofBytes_cons, length_toBytes, ih, hdigit, pow_succ, Nat.mod_mul]
    ring

theorem toBytes_mod (w n m : Nat) : toBytes w (m * 256 ^ w + n) = toBytes w n := by
  induction w generalizing m with
  | zero => rfl
  | succ w ih =>
    -- the digit at `256 ^ w` loses `256 * m`, which a byte does not see
    have hsplit : m * 256 ^ (w + 1) + n = (m * 256) * 256 ^ w + n := by ring
    have hdiv : (m * 256 * 256 ^ w + n) / 256 ^ w = n / 256 ^ w + 256 * m := by
      rw [Nat.add_comm, Nat.add_mul_div_right _ _ (Nat.pow_pos (by norm_num))]
      ring
    rw [hsplit, toBytes_succ, toBytes_succ, ih, hdiv]
    congr 1
    apply UInt8.toNat_inj.mp
    simp [UInt8.toNat_ofNat']

theorem toBytes_ofBytes (bs : List UInt8) : toBytes bs.length (ofBytes bs) = bs := by
  induction bs with
  | nil => rfl
  | cons b bs ih =>
    have hdiv : (b.toNat * 256 ^ bs.length + ofBytes bs) / 256 ^ bs.length = b.toNat := by
      rw [Nat.add_comm, Nat.add_mul_div_right _ _ (Nat.pow_pos (by norm_num)),
        Nat.div_eq_of_lt (ofBytes_lt bs), Nat.zero_add]
    rw [List.length_cons, ofBytes_cons, toBytes_succ, hdiv, toBytes_mod, ih, UInt8.ofNat_toNat]

end ServiceInfra.Library.BigEndian
