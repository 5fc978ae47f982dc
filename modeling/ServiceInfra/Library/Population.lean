import Mathlib.Tactic
import Mathlib.Algebra.BigOperators.Group.Finset.Basic

/-!
# Populations

A finite number of members, each in a state of its own, with what they amount to
together: a weight for every state, added up over the members. A step of one member
changes the sum by the difference of two weights.
-/

namespace ServiceInfra.Library

universe u v w

section Total

variable {ι : Type u} {α : Type v} {M : Type w} [Fintype ι] [AddCommMonoid M]

/-- The weights of the members together. -/
def total (weight : α → M) (state : ι → α) : M := ∑ i, weight (state i)

variable {weight : α → M} {state : ι → α}

variable (weight state) in
/-- A member goes from one state to another. -/
theorem total_update [DecidableEq ι] (i : ι) (a : α) :
    total weight (Function.update state i a) + weight (state i) =
      total weight state + weight a := by
  have hrest : ∑ j ∈ Finset.univ.erase i, weight (Function.update state i a j) =
      ∑ j ∈ Finset.univ.erase i, weight (state j) :=
    Finset.sum_congr rfl fun j hj => by rw [Function.update_of_ne (Finset.ne_of_mem_erase hj)]
  rw [total, total, ← Finset.add_sum_erase _ _ (Finset.mem_univ i),
    ← Finset.add_sum_erase _ (fun j => weight (state j)) (Finset.mem_univ i), hrest,
    Function.update_self]
  exact (add_right_comm _ _ _).trans (by rw [add_comm (weight a), add_right_comm])

theorem total_of_zero (h : ∀ i, weight (state i) = 0) : total weight state = 0 :=
  Finset.sum_eq_zero fun i _ => h i

end Total

theorem eq_zero_of_total {ι : Type u} {α : Type v} [Fintype ι] {weight : α → Nat} {state : ι → α}
    (h : total weight state = 0) (i : ι) : weight (state i) = 0 :=
  Finset.sum_eq_zero_iff.mp h i (Finset.mem_univ i)

theorem total_of_const {ι : Type u} {α : Type v} [Fintype ι] {weight : α → Nat} {state : ι → α}
    {n : Nat} (h : ∀ i, weight (state i) = n) : total weight state = Fintype.card ι * n := by
  rw [total, Finset.sum_congr rfl fun i _ => h i, Finset.sum_const, Finset.card_univ, smul_eq_mul]

theorem total_le_card {ι : Type u} {α : Type v} [Fintype ι] {weight : α → Nat} {state : ι → α}
    (h : ∀ i, weight (state i) ≤ 1) : total weight state ≤ Fintype.card ι := by
  have hle := Finset.sum_le_card_nsmul Finset.univ (fun i => weight (state i)) 1 fun i _ => h i
  rwa [Finset.card_univ, smul_eq_mul, mul_one] at hle

/-- Every weight grows by one at most. -/
theorem total_le_add_card {ι : Type u} {α : Type v} [Fintype ι] {weight : α → Nat}
    {before after : ι → α} (h : ∀ i, weight (after i) ≤ weight (before i) + 1) :
    total weight after ≤ total weight before + Fintype.card ι := by
  have hsum := Finset.sum_le_sum fun i (_ : i ∈ Finset.univ) => h i
  rwa [Finset.sum_add_distrib, Finset.sum_const, Finset.card_univ, smul_eq_mul, mul_one] at hsum

end ServiceInfra.Library
