import Mathlib.Data.List.GetD
import ServiceInfra.Library.Loop

/-!
# Binary search that remembers a candidate

A search between `left` and `right` that leaves where it meets the target, and otherwise
notes every element it finds below the target on its way. What it notes is `remember` of
the element, and the note of the last one is its result. On a list that is split at the
target, the elements below it in front, the last note is that of the greatest of them.

Main results:
- `search_found`: where the target is in the list, the search meets it
- `search_missed`: otherwise it ends with the note of the last element below the target
-/

namespace ServiceInfra.Library.BinarySearch

universe u v

/-- The local variables of a search. -/
structure State (β : Type v) where
  left : Int
  right : Int
  result : β

section Search

variable {α : Type u} {β : Type v} [Inhabited α] [DecidableEq α] [LT α] [DecidableLT α]

/-- One turn: the element met, the next bounds, or the last note. -/
def turn (xs : List α) (target : α) (remember : α → β) (s : State β) : State β ⊕ (α ⊕ β) :=
  if s.left ≤ s.right then
    let medium := s.left + (s.right - s.left) / 2
    let x := xs.getD medium.toNat default
    if target = x then .inr (.inl x)
    else if x < target then .inl { s with left := medium + 1, result := remember x }
    else .inl { s with right := medium - 1 }
  else .inr (.inr s.result)

/-- The search as a loop. -/
def search (xs : List α) (target : α) (remember : α → β) : Loop (State β) (α ⊕ β) where
  body := turn xs target remember
  variant s := (s.right - s.left + 1).toNat
  variant_lt s s' h := by
    unfold turn at h
    simp only at h
    split at h
    · split at h
      · cases h
      · -- either bound moves past the middle
        split at h
        · cases h
          simp only
          omega
        · cases h
          simp only
          omega
    · cases h

end Search

/-! ## The bounds -/

section Bounds

variable {α : Type u} {β : Type v} [Inhabited α]

/-- The bounds enclose position `n`, and the note is that of the element in front of `left`. -/
structure Encloses (xs : List α) (remember : α → β) (init : β) (n : Nat) (s : State β) : Prop where
  left_nonneg : 0 ≤ s.left
  left_le : s.left ≤ n
  le_right : (n : Int) ≤ s.right + 1
  right_lt : s.right < xs.length
  result_eq : s.result =
    if s.left = 0 then init else remember (xs.getD (s.left - 1).toNat default)

variable {xs below above : List α} {remember : α → β} {init : β} {s : State β}

theorem encloses_start {n : Nat} (h : n ≤ xs.length) :
    Encloses xs remember init n ⟨0, xs.length - 1, init⟩ where
  left_nonneg := le_rfl
  left_le := Int.natCast_nonneg n
  le_right := by
    simp only
    omega
  right_lt := by
    simp only
    omega
  result_eq := rfl

/-- An element below the target raises `left`. -/
theorem Encloses.raise {n : Nat} (h : Encloses xs remember init n s) {medium : Int}
    (hle : s.left ≤ medium) (hn : medium < n) :
    Encloses xs remember init n
      { s with left := medium + 1, result := remember (xs.getD medium.toNat default) } where
  left_nonneg := by
    have hleft := h.left_nonneg
    simp only
    omega
  left_le := by
    simp only
    omega
  le_right := h.le_right
  right_lt := h.right_lt
  result_eq := by
    have hleft := h.left_nonneg
    simp only [Int.add_sub_cancel]
    rw [if_neg (by omega)]

/-- Any other element lowers `right`. -/
theorem Encloses.lower {n : Nat} (h : Encloses xs remember init n s) {medium : Int}
    (hle : medium ≤ s.right) (hn : (n : Int) ≤ medium) :
    Encloses xs remember init n { s with right := medium - 1 } where
  left_nonneg := h.left_nonneg
  left_le := h.left_le
  le_right := by
    simp only
    omega
  right_lt := by
    have hright := h.right_lt
    simp only
    omega
  result_eq := h.result_eq

theorem getD_below {i : Nat} (hi : i < below.length) :
    (below ++ above).getD i default ∈ below := by
  rw [List.getD_append _ _ _ _ hi, List.getD_eq_getElem _ _ hi]
  exact List.getElem_mem hi

theorem getD_above {i : Nat} (hle : below.length ≤ i) (hi : i < (below ++ above).length) :
    (below ++ above).getD i default ∈ above := by
  rw [List.length_append] at hi
  rw [List.getD_append_right _ _ _ _ hle, List.getD_eq_getElem _ _ (by omega)]
  exact List.getElem_mem _

end Bounds

/-! ## What a search finds -/

section Result

variable {α : Type u} {β : Type v} [Inhabited α] [DecidableEq α] [LT α] [DecidableLT α]
  {below above : List α} {target : α} {remember : α → β} {init : β}

/-- Where the target is in the list, the search meets it. -/
theorem search_found (hbelow : ∀ x ∈ below, x < target ∧ target ≠ x)
    (habove : ∀ x ∈ above, ¬ x < target ∧ target ≠ x) :
    (search (below ++ target :: above) target remember).exec
      ⟨0, (below ++ target :: above).length - 1, init⟩ = .inl target := by
  have hlen : (below ++ target :: above).length = below.length + 1 + above.length := by
    rw [List.length_append, List.length_cons]
    omega
  -- the target stays between the bounds
  refine Loop.exec_induction _
    (fun s => Encloses (below ++ target :: above) remember init below.length s ∧
      (below.length : Int) ≤ s.right) (fun r : α ⊕ β => r = .inl target) ?_
    ⟨encloses_start (by omega), by simp only [hlen]; omega⟩
  rintro s ⟨h, hright⟩
  have hleft := h.left_nonneg
  have hleft' := h.left_le
  have hlt := h.right_lt
  show (∃ s', turn _ _ _ s = .inl s' ∧ _) ∨ ∃ r, turn _ _ _ s = .inr r ∧ _
  unfold turn
  rw [if_pos (by omega)]
  simp only
  generalize hmedium : s.left + (s.right - s.left) / 2 = medium
  have hlo : s.left ≤ medium := by omega
  have hhi : medium ≤ s.right := by omega
  rcases lt_trichotomy medium.toNat below.length with hm | hm | hm
  · have hmem : (below ++ target :: above).getD medium.toNat default ∈ below := getD_below hm
    obtain ⟨hx, hne⟩ := hbelow _ hmem
    rw [if_neg hne, if_pos hx]
    exact .inl ⟨_, rfl, h.raise hlo (by omega), hright⟩
  · have hx : (below ++ target :: above).getD medium.toNat default = target := by
      rw [hm, List.getD_append_right _ _ _ _ le_rfl, Nat.sub_self]
      rfl
    rw [hx, if_pos rfl]
    exact .inr ⟨_, rfl, rfl⟩
  · have hmem : (below ++ target :: above).getD medium.toNat default ∈ above := by
      have hsplit : below ++ target :: above = (below ++ [target]) ++ above := by
        rw [List.append_assoc, List.singleton_append]
      rw [hsplit]
      refine getD_above ?_ ?_
      · rw [List.length_append, List.length_singleton]
        omega
      · rw [← hsplit, hlen]
        omega
    obtain ⟨hx, hne⟩ := habove _ hmem
    rw [if_neg hne, if_neg hx]
    exact .inl ⟨_, rfl, h.lower hhi (by omega), by simp only; omega⟩

/-- Where it is not, the search ends with the note of the last element below it. -/
theorem search_missed (hbelow : ∀ x ∈ below, x < target ∧ target ≠ x)
    (habove : ∀ x ∈ above, ¬ x < target ∧ target ≠ x) :
    (search (below ++ above) target remember).exec
        ⟨0, (below ++ above).length - 1, init⟩ =
      .inr ((below.getLast?.map remember).getD init) := by
  refine Loop.exec_induction _ (Encloses (below ++ above) remember init below.length)
    (fun r : α ⊕ β => r = .inr ((below.getLast?.map remember).getD init)) ?_
    (encloses_start (by rw [List.length_append]; omega))
  intro s h
  have hleft := h.left_nonneg
  have hleft' := h.left_le
  have hright := h.le_right
  have hlt := h.right_lt
  show (∃ s', turn _ _ _ s = .inl s' ∧ _) ∨ ∃ r, turn _ _ _ s = .inr r ∧ _
  unfold turn
  by_cases hin : s.left ≤ s.right
  · rw [if_pos hin]
    simp only
    generalize hmedium : s.left + (s.right - s.left) / 2 = medium
    have hlo : s.left ≤ medium := by omega
    have hhi : medium ≤ s.right := by omega
    by_cases hm : medium.toNat < below.length
    · have hmem : (below ++ above).getD medium.toNat default ∈ below := getD_below hm
      obtain ⟨hx, hne⟩ := hbelow _ hmem
      rw [if_neg hne, if_pos hx]
      exact .inl ⟨_, rfl, h.raise hlo (by omega)⟩
    · have hmem : (below ++ above).getD medium.toNat default ∈ above :=
        getD_above (Nat.le_of_not_lt hm) (by omega)
      obtain ⟨hx, hne⟩ := habove _ hmem
      rw [if_neg hne, if_neg hx]
      exact .inl ⟨_, rfl, h.lower hhi (by omega)⟩
  · -- the bounds have met behind the elements below the target
    rw [if_neg hin]
    refine .inr ⟨_, rfl, ?_⟩
    have hend : s.left = below.length := by omega
    rw [h.result_eq, hend]
    cases hlast : below.getLast? with
    | none =>
      rw [List.getLast?_eq_none_iff.mp hlast]
      rfl
    | some x =>
      have hne : below ≠ [] := by
        rintro rfl
        cases hlast
      have hpos := List.length_pos_iff.mpr hne
      have hx : (below ++ above).getD ((below.length : Int) - 1).toNat default = x := by
        rw [show ((below.length : Int) - 1).toNat = below.length - 1 by omega,
          List.getD_append _ _ _ _ (by omega), List.getD_eq_getElem?_getD,
          ← List.getLast?_eq_getElem?, hlast]
        rfl
      rw [if_neg (by omega), hx]
      rfl

end Result

end ServiceInfra.Library.BinarySearch
