import Mathlib.Tactic

/-!
# zlib's checksum

zlib is linked from outside the repository; the segment files and the commit log use
one function of it, `crc32(crc, buf, len)`, and rely on one fact about it: over no
bytes it returns the value it was given. `crc32(0L, Z_NULL, 0)`, the initial value,
is a case of that. The development takes the function as a parameter, and `zlib`
is the checksum zlib documents, for evaluating concrete files. What is said about damaged
files relies on the checksum to detect a changed byte, `Zlib.DetectsByte`, and
`zlib_detectsByte` is that zlib's does.
-/

namespace ServiceInfra

/-- What the code uses of zlib. -/
structure Zlib where
  /-- `crc32(crc, buf, len)` over the bytes of `buf`. -/
  crc32 : UInt32 → List UInt8 → UInt32
  /-- Over no bytes the running value comes back. -/
  crc32_nil : ∀ crc, crc32 crc [] = crc

/-- One bit of the reflected polynomial division. -/
def crcBit (c : UInt32) : UInt32 :=
  if c &&& 1 = 1 then (0xEDB88320 : UInt32) ^^^ (c >>> 1) else c >>> 1

/-- One byte of the running value. -/
def crcByte (c : UInt32) (b : UInt8) : UInt32 :=
  crcBit (crcBit (crcBit (crcBit (crcBit (crcBit (crcBit (crcBit (c ^^^ b.toUInt32))))))))

/-- The CRC-32 that zlib documents. -/
def zlib : Zlib where
  crc32 crc buf := ~~~ (buf.foldl crcByte (~~~ crc))
  crc32_nil crc := by simp

/-- The published check value: the checksum of the ASCII digits `1` to `9`. -/
example : zlib.crc32 0 [49, 50, 51, 52, 53, 54, 55, 56, 57] = 0xCBF43926 := by decide +kernel

/-! ## Error detection -/

/-- What zlib documents of its checksum beyond that: it may be computed in parts, and a
message with one byte changed never keeps it. -/
structure Zlib.DetectsByte (Z : Zlib) : Prop where
  running : ∀ crc xs ys, Z.crc32 (Z.crc32 crc xs) ys = Z.crc32 crc (xs ++ ys)
  changed : ∀ crc xs ys {a b}, a ≠ b → Z.crc32 crc (xs ++ a :: ys) ≠ Z.crc32 crc (xs ++ b :: ys)

theorem and_one_iff (c : UInt32) : c &&& 1 = 1 ↔ c.toBitVec.getLsbD 0 = true := by
  rw [← UInt32.toNat_inj, UInt32.toNat_and, UInt32.toNat_one, Nat.and_one_is_mod,
    ← BitVec.testBit_toNat, Nat.testBit_zero]
  simp

/-- A bit of the quotient: the one above it, flipped by the polynomial. -/
theorem getLsbD_crcBit (c : UInt32) (i : Nat) :
    (crcBit c).toBitVec.getLsbD i =
      ((c.toBitVec.getLsbD 0 && (0xEDB88320#32).getLsbD i) ^^ c.toBitVec.getLsbD (1 + i)) := by
  unfold crcBit
  simp only [and_one_iff]
  by_cases h : c.toBitVec.getLsbD 0 = true
  · rw [if_pos h, h, Bool.true_and, UInt32.toBitVec_xor, BitVec.getLsbD_xor,
      UInt32.toBitVec_shiftRight]
    simp
  · rw [if_neg h, (Bool.not_eq_true _).mp h, Bool.false_and, Bool.false_xor]
    simp

theorem crcBit_injective : Function.Injective crcBit := by
  intro c d h
  have hbits : ∀ i, (crcBit c).toBitVec.getLsbD i = (crcBit d).toBitVec.getLsbD i :=
    fun i => by rw [h]
  simp only [getLsbD_crcBit] at hbits
  -- the top bit of the polynomial shows the bit that is shifted out
  have hlow : c.toBitVec.getLsbD 0 = d.toBitVec.getLsbD 0 := by
    have htop := hbits 31
    simpa [show (0xEDB88320#32).getLsbD 31 = true by decide] using htop
  refine UInt32.toBitVec_inj.mp (BitVec.eq_of_getLsbD_eq fun i hi => ?_)
  cases i with
  | zero => exact hlow
  | succ i =>
    have hnext := hbits i
    rw [hlow] at hnext
    rw [Nat.add_comm]
    exact Bool.xor_right_inj.mp hnext

/-- A byte loses nothing of the running value. -/
theorem crcByte_injective (b : UInt8) : Function.Injective fun c => crcByte c b := by
  intro c d h
  simp only [crcByte, crcBit_injective.eq_iff] at h
  exact (UInt32.xor_left_inj _).mp h

theorem crcByte_ne (c : UInt32) {a b : UInt8} (h : a ≠ b) : crcByte c a ≠ crcByte c b := by
  intro heq
  simp only [crcByte, crcBit_injective.eq_iff] at heq
  have hwide : a.toUInt32 = b.toUInt32 := (UInt32.xor_right_inj c).mp heq
  refine h (UInt8.toNat_inj.mp ?_)
  have hnat := congrArg UInt32.toNat hwide
  simpa using hnat

theorem foldl_crcByte_injective (ys : List UInt8) :
    Function.Injective fun c => ys.foldl crcByte c := by
  induction ys with
  | nil => exact fun _ _ h => h
  | cons y ys ih => exact fun c d h => crcByte_injective y (ih h)

theorem zlib_detectsByte : zlib.DetectsByte where
  running crc xs ys := by simp [zlib]
  changed crc xs ys a b h := by
    intro heq
    simp only [zlib, UInt32.not_inj, List.foldl_append, List.foldl_cons] at heq
    exact crcByte_ne _ h (foldl_crcByte_injective ys heq)

/-- The change of a byte, as a change of the list. -/
theorem Zlib.DetectsByte.set {Z : Zlib} (h : Z.DetectsByte) (crc : UInt32) {xs : List UInt8}
    {k : Nat} (hk : k < xs.length) {b : UInt8} (hb : xs[k]? ≠ some b) :
    Z.crc32 crc (xs.set k b) ≠ Z.crc32 crc xs := by
  have hne : b ≠ xs[k] := by
    rintro rfl
    exact hb (List.getElem?_eq_getElem hk)
  have hold : xs = xs.take k ++ xs[k] :: xs.drop (k + 1) := by
    rw [List.getElem_cons_drop, List.take_append_drop]
  rw [List.set_eq_take_append_cons_drop, if_pos hk]
  conv_rhs => rw [hold]
  exact h.changed crc _ _ hne

end ServiceInfra
