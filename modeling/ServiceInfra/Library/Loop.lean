import Mathlib.Tactic

/-!
# Loops with a variant

A `while (1)` loop that leaves through `return` is one function from a state to
either the next state or a result. A `Loop` packs such a body with a variant that
every further turn lowers, so running it is total and still computable.

Main results:
- `Loop.exec_of_inl`, `Loop.exec_of_inr`: the loop unfolds one turn at a time
- `Loop.turns_eq_some_exec`: counting turns without the variant finds the same result
- `Loop.exec_induction`, `Loop.Reaches.invariant`: the invariant rule, for the result and on the way
- `Loop.everyTurn_of_inl`: what holds of every turn, one turn at a time
-/

namespace ServiceInfra.Library

universe u v

/-- A loop that leaves with a result, with the variant that bounds its turns. -/
structure Loop (σ : Type u) (ρ : Type v) where
  /-- One turn: go round again with a new state, or leave with a result. -/
  body : σ → σ ⊕ ρ
  /-- A bound on the turns still to come. -/
  variant : σ → Nat
  /-- Going round again lowers the variant. -/
  variant_lt : ∀ s s', body s = .inl s' → variant s' < variant s

namespace Loop

variable {σ : Type u} {ρ : Type v} (L : Loop σ ρ)

/-! ## Running -/

/-- Run the body for at most `n` turns; `none` when it has not left by then. -/
def turns : Nat → σ → Option ρ
  | 0, _ => none
  | n + 1, s =>
      match L.body s with
      | .inl s' => turns n s'
      | .inr r => some r

theorem turns_isSome {n : Nat} {s : σ} (h : L.variant s < n) : (L.turns n s).isSome = true := by
  -- each turn uses up one of `n` and lowers the variant
  induction n generalizing s with
  | zero => exact absurd h (Nat.not_lt_zero _)
  | succ n ih =>
    unfold turns
    cases hb : L.body s with
    | inl s' =>
      have hlt := L.variant_lt s s' hb
      exact ih (by omega)
    | inr r => rfl

/-- Run the loop to its end. -/
def exec (s : σ) : ρ :=
  (L.turns (L.variant s + 1) s).get (L.turns_isSome (Nat.lt_succ_self _))

/-- Two turn counts that both see the loop leave see the same result. -/
theorem turns_unique {n m : Nat} {s : σ} {r r' : ρ}
    (h : L.turns n s = some r) (h' : L.turns m s = some r') : r = r' := by
  -- both counts see the same turns
  induction n generalizing m s with
  | zero => simp [turns] at h
  | succ n ih =>
    cases m with
    | zero => simp [turns] at h'
    | succ m =>
      unfold turns at h h'
      cases hb : L.body s with
      | inl s' =>
        rw [hb] at h h'
        exact ih h h'
      | inr r₀ =>
        rw [hb] at h h'
        simp only [Option.some.injEq] at h h'
        exact h.symm.trans h'

/-- Counting turns alone, without the variant, finds the loop's result. -/
theorem turns_eq_some_exec {n : Nat} {s : σ} (h : L.variant s < n) :
    L.turns n s = some (L.exec s) := by
  obtain ⟨r, hr⟩ := Option.isSome_iff_exists.mp (L.turns_isSome h)
  have hexec : L.turns (L.variant s + 1) s = some (L.exec s) := by
    simp only [exec, Option.some_get]
  rw [hr, L.turns_unique hr hexec]

theorem exec_of_inr {s : σ} {r : ρ} (h : L.body s = .inr r) : L.exec s = r := by
  have hrun : L.turns (L.variant s + 1) s = some r := by
    simp only [turns, h]
  have hexec := L.turns_eq_some_exec (s := s) (Nat.lt_succ_self _)
  exact L.turns_unique hexec hrun

theorem exec_of_inl {s s' : σ} (h : L.body s = .inl s') : L.exec s = L.exec s' := by
  have hlt := L.variant_lt s s' h
  have hexec := L.turns_eq_some_exec (s := s) (Nat.lt_succ_self _)
  have hrun : L.turns (L.variant s + 1) s = some (L.exec s') := by
    simp only [turns, h]
    exact L.turns_eq_some_exec hlt
  exact L.turns_unique hexec hrun

/-! ## Reasoning -/

/-- Induction along the turns of the loop. -/
theorem induct {motive : σ → Prop}
    (turn : ∀ s, (∀ s', L.body s = .inl s' → motive s') → motive s) (s : σ) : motive s := by
  induction hv : L.variant s using Nat.strongRecOn generalizing s with
  | ind n ih =>
    refine turn s fun s' hs' => ?_
    exact ih _ (hv ▸ L.variant_lt s s' hs') s' rfl

/-- The invariant rule: when every turn from a state with `Inv` keeps it or leaves with
`Post`, the result has `Post`. -/
theorem exec_induction (Inv : σ → Prop) (Post : ρ → Prop)
    (turn : ∀ s, Inv s → (∃ s', L.body s = .inl s' ∧ Inv s') ∨ ∃ r, L.body s = .inr r ∧ Post r)
    {s : σ} (hs : Inv s) : Post (L.exec s) := by
  -- induction on the turns still to come
  induction s using L.induct with
  | turn s ih =>
    rcases turn s hs with ⟨s', hbody, hs'⟩ | ⟨r, hbody, hr⟩
    · rw [L.exec_of_inl hbody]
      exact ih s' hbody hs'
    · rw [L.exec_of_inr hbody]
      exact hr

/-- The states that turns lead to. -/
def Reaches (s t : σ) : Prop := Relation.ReflTransGen (fun s t => L.body s = .inl t) s t

/-- What every turn that goes on keeps holds of every state that turns lead to. -/
theorem Reaches.invariant {L : Loop σ ρ} {Inv : σ → Prop}
    (turn : ∀ s s', Inv s → L.body s = .inl s' → Inv s') {s t : σ} (h : L.Reaches s t)
    (hs : Inv s) : Inv t := by
  induction h with
  | refl => exact hs
  | tail _ hturn ih => exact turn _ _ ih hturn

/-- `Q` holds of every turn that goes on, from `s` to the end of the loop. -/
def EveryTurn (Q : σ → σ → Prop) (s : σ) : Prop :=
  ∀ t t', L.Reaches s t → L.body t = .inl t' → Q t t'

theorem everyTurn_of_inr {Q : σ → σ → Prop} {s : σ} {r : ρ} (h : L.body s = .inr r) :
    L.EveryTurn Q s := by
  intro t t' hreach hturn
  -- no turn leads away from `s`
  rcases hreach.cases_head with rfl | ⟨u, hfirst, -⟩
  · rw [h] at hturn
    cases hturn
  · rw [h] at hfirst
    cases hfirst

theorem everyTurn_of_inl {Q : σ → σ → Prop} {s s' : σ} (h : L.body s = .inl s') :
    L.EveryTurn Q s ↔ Q s s' ∧ L.EveryTurn Q s' := by
  constructor
  · intro hevery
    exact ⟨hevery s s' .refl h, fun t t' hreach => hevery t t' (.head h hreach)⟩
  · rintro ⟨hfirst, hrest⟩ t t' hreach hturn
    rcases hreach.cases_head with rfl | ⟨u, hhead, htail⟩
    · rw [h] at hturn
      cases hturn
      exact hfirst
    · rw [h] at hhead
      cases hhead
      exact hrest t t' htail hturn

/-- Two loops whose turns agree where the first one passes have the same result. -/
theorem exec_congr {L' : Loop σ ρ} (Inv : σ → Prop)
    (hbody : ∀ s, Inv s → L.body s = L'.body s)
    (hkeep : ∀ s s', Inv s → L.body s = .inl s' → Inv s') {s : σ} (hs : Inv s) :
    L.exec s = L'.exec s := by
  induction s using L.induct with
  | turn s ih =>
    have hsame := hbody s hs
    cases hturn : L.body s with
    | inl s' =>
      rw [hturn] at hsame
      rw [L.exec_of_inl hturn, L'.exec_of_inl hsame.symm]
      exact ih s' hturn (hkeep s s' hs hturn)
    | inr r =>
      rw [hturn] at hsame
      rw [L.exec_of_inr hturn, L'.exec_of_inr hsame.symm]

end Loop

end ServiceInfra.Library
