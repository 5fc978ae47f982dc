import Mathlib.Tactic

/-!
# Fixed-width records

A list read as records of a fixed width `w`, and what is left over. Encoding items one
after another in `w` symbols each and reading the records back gives the encodings;
cutting such a list anywhere keeps a prefix of the records and less than one more.
-/

namespace ServiceInfra.Library.Records

universe u v

variable {α : Type u} {β : Type v} {w : Nat}

/-- The first `n` records of width `w`. -/
def firstN (w : Nat) : Nat → List α → List (List α)
  | 0, _ => []
  | n + 1, xs => xs.take w :: firstN w n (xs.drop w)

/-- The complete records of width `w`. -/
def complete (w : Nat) (xs : List α) : List (List α) := firstN w (xs.length / w) xs

@[simp] theorem length_firstN (w n : Nat) (xs : List α) : (firstN w n xs).length = n := by
  induction n generalizing xs with
  | zero => rfl
  | succ n ih => rw [firstN, List.length_cons, ih]

@[simp] theorem length_complete (w : Nat) (xs : List α) :
    (complete w xs).length = xs.length / w := length_firstN _ _ _

theorem complete_of_lt {xs : List α} (h : xs.length < w) : complete w xs = [] := by
  rw [complete, Nat.div_eq_of_lt h, firstN]

theorem complete_of_le {xs : List α} (hw : 0 < w) (h : w ≤ xs.length) :
    complete w xs = xs.take w :: complete w (xs.drop w) := by
  have hdiv : xs.length / w = (xs.drop w).length / w + 1 := by
    rw [List.length_drop, Nat.div_eq_sub_div hw h]
  rw [complete, hdiv, firstN, complete]

theorem complete_append {r xs : List α} (hw : 0 < w) (hr : r.length = w) :
    complete w (r ++ xs) = r :: complete w xs := by
  rw [complete_of_le hw (by rw [List.length_append]; omega), List.take_left' hr,
    List.drop_left' hr]

/-- Whole records at the front are read apart from what follows. -/
theorem complete_append_of_length {xs : List α} {n : Nat} (hw : 0 < w)
    (hxs : xs.length = w * n) (ys : List α) :
    complete w (xs ++ ys) = complete w xs ++ complete w ys := by
  induction n generalizing xs with
  | zero =>
    have hnil : xs = [] := List.length_eq_zero_iff.mp (by rw [hxs, Nat.mul_zero])
    have hnone : complete w ([] : List α) = [] := complete_of_lt hw
    rw [hnil, hnone, List.nil_append, List.nil_append]
  | succ n ih =>
    have hle : w ≤ xs.length := by
      rw [hxs, Nat.mul_succ]
      omega
    -- one record off the front of both
    have hfront : (xs.take w).length = w := List.length_take_of_le hle
    have hrest : (xs.drop w).length = w * n := by
      rw [List.length_drop, hxs, Nat.mul_succ]
      omega
    have hsplit : xs ++ ys = xs.take w ++ (xs.drop w ++ ys) := by
      rw [← List.append_assoc, List.take_append_drop]
    rw [hsplit, complete_append hw hfront, ih hrest, complete_of_le hw hle, List.cons_append]

/-- Reading back items written one after another, with less than a record behind them. -/
theorem complete_flatMap_append {enc : β → List α} (hw : 0 < w)
    (henc : ∀ b, (enc b).length = w) (bs : List β) {tail : List α} (htail : tail.length < w) :
    complete w (bs.flatMap enc ++ tail) = bs.map enc := by
  -- one record off the front, one item off the list
  induction bs with
  | nil => exact complete_of_lt htail
  | cons b bs ih =>
    rw [List.flatMap_cons, List.append_assoc, complete_append hw (henc b), ih, List.map_cons]

theorem length_flatMap {enc : β → List α} (henc : ∀ b, (enc b).length = w) (bs : List β) :
    (bs.flatMap enc).length = w * bs.length := by
  induction bs with
  | nil => rfl
  | cons b bs ih =>
    rw [List.flatMap_cons, List.length_append, henc, ih, List.length_cons]
    ring

/-- A cut keeps the items before it and less than one record of the next. -/
theorem take_flatMap {enc : β → List α} (hw : 0 < w) (henc : ∀ b, (enc b).length = w)
    (bs : List β) (n : Nat) :
    ∃ tail, tail.length < w ∧ (bs.flatMap enc).take n = (bs.take (n / w)).flatMap enc ++ tail := by
  induction bs generalizing n with
  | nil => exact ⟨[], hw, by simp⟩
  | cons b bs ih =>
    -- the cut is in the first record, or behind it
    by_cases hn : n < w
    · refine ⟨(enc b).take n, ?_, ?_⟩
      · rw [List.length_take]
        omega
      · rw [Nat.div_eq_of_lt hn, List.take_zero, List.flatMap_nil, List.nil_append,
          List.flatMap_cons, List.take_append_of_le_length (by rw [henc]; omega)]
    · obtain ⟨tail, htail, hrest⟩ := ih (n - w)
      have hdiv : n / w = (n - w) / w + 1 := Nat.div_eq_sub_div hw (by omega)
      refine ⟨tail, htail, ?_⟩
      rw [List.flatMap_cons, List.take_append, henc, hrest, hdiv, List.take_succ_cons,
        List.flatMap_cons, List.take_of_length_le (by rw [henc]; omega), List.append_assoc]

end ServiceInfra.Library.Records
