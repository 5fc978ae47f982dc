import Mathlib.Tactic

/-!
# Chains of labelled steps

A partial function `next : σ → Option (α × σ)` reads one item off a state. `Chain`
is its iteration: the items read from one state to another. Since `next` is a
function, a chain that stops at a state where nothing can be read extends every
other chain from the same start.
-/

namespace ServiceInfra.Library

universe u v

/-- `Chain next s as t`: reading the items `as` leads from `s` to `t`. -/
inductive Chain {σ : Type u} {α : Type v} (next : σ → Option (α × σ)) :
    σ → List α → σ → Prop where
  | nil (s : σ) : Chain next s [] s
  | cons {s s' t : σ} {a : α} {as : List α} :
      next s = some (a, s') → Chain next s' as t → Chain next s (a :: as) t

namespace Chain

variable {σ : Type u} {α : Type v} {next : σ → Option (α × σ)}

theorem eq_of_nil {s t : σ} (h : Chain next s [] t) : s = t := by
  cases h with
  | nil => rfl

/-- A nonempty chain reads a first item. -/
theorem next_ne_none {s t : σ} {as : List α} (h : Chain next s as t) (hne : as ≠ []) :
    next s ≠ none := by
  cases h with
  | nil => exact absurd rfl hne
  | cons hs _ =>
    rw [hs]
    exact Option.some_ne_none _

theorem append {s t u : σ} {as bs : List α} (h : Chain next s as t) (h' : Chain next t bs u) :
    Chain next s (as ++ bs) u := by
  induction h with
  | nil s => exact h'
  | cons hs _ ih => exact .cons hs (ih h')

theorem snoc {s t u : σ} {as : List α} {a : α} (h : Chain next s as t)
    (h' : next t = some (a, u)) : Chain next s (as ++ [a]) u :=
  h.append (.cons h' (.nil u))

/-- A chain that ends where nothing can be read extends every chain from its start. -/
theorem extends_of_stuck {s t u : σ} {as bs : List α} (h : Chain next s as t)
    (hstuck : next t = none) (h' : Chain next s bs u) :
    ∃ cs, as = bs ++ cs ∧ Chain next u cs t := by
  -- along the other chain: each of its items is the next one of this chain too
  induction h' generalizing as with
  | nil s => exact ⟨as, rfl, h⟩
  | @cons s s' u b bs hs _ ih =>
    cases h with
    | nil =>
      rw [hstuck] at hs
      cases hs
    | cons hs' htail =>
      rw [hs] at hs'
      obtain ⟨rfl, rfl⟩ : b = _ ∧ s' = _ := by simpa using hs'
      obtain ⟨cs, rfl, hcs⟩ := ih htail
      exact ⟨cs, rfl, hcs⟩

/-- Two chains from one start that both end where nothing can be read are the same. -/
theorem stuck_unique {s t u : σ} {as bs : List α} (h : Chain next s as t) (ht : next t = none)
    (h' : Chain next s bs u) (hu : next u = none) : as = bs ∧ t = u := by
  obtain ⟨cs, rfl, hcs⟩ := h.extends_of_stuck ht h'
  cases hcs with
  | nil => exact ⟨List.append_nil bs, rfl⟩
  | cons hs _ =>
    rw [hu] at hs
    cases hs

/-- A quantity that every step raises is raised by every nonempty chain. -/
theorem measure_le {f : σ → Nat} (hf : ∀ s a s', next s = some (a, s') → f s < f s')
    {s t : σ} {as : List α} (h : Chain next s as t) : f s + as.length ≤ f t := by
  induction h with
  | nil s => simp
  | cons hs _ ih =>
    have hlt := hf _ _ _ hs
    simp only [List.length_cons]
    omega

/-! ## Renaming states and items -/

section Map

variable {τ : Type u} {β : Type v} {next' : τ → Option (β × τ)} {g : σ → τ} {k : α → β}

/-- Where one system reads what the other reads under other names, so do their chains. -/
theorem map (hnext : ∀ s, next' (g s) = (next s).map (Prod.map k g)) {s t : σ} {as : List α}
    (h : Chain next s as t) : Chain next' (g s) (as.map k) (g t) := by
  induction h with
  | nil s => exact .nil _
  | @cons s s' t a as hs _ ih =>
    refine .cons ?_ ih
    rw [hnext, hs]
    rfl

/-- Every chain of the renamed system is a renamed chain. -/
theorem of_map (hnext : ∀ s, next' (g s) = (next s).map (Prod.map k g)) {s : σ} {u : τ}
    {bs : List β} (h : Chain next' (g s) bs u) :
    ∃ as t, bs = as.map k ∧ u = g t ∧ Chain next s as t := by
  generalize hgs : g s = s₀ at h
  induction h generalizing s with
  | nil s₀ => exact ⟨[], s, rfl, hgs.symm, .nil s⟩
  | @cons s₀ s₁ u b bs hs _ ih =>
    subst hgs
    -- the first item is the renamed first item here
    rw [hnext] at hs
    obtain ⟨⟨a, s'⟩, hs', hab⟩ := Option.map_eq_some_iff.mp hs
    obtain ⟨rfl, hs₁⟩ := Prod.mk.inj hab
    obtain ⟨as, t, rfl, hu, htail⟩ := ih hs₁
    exact ⟨a :: as, t, rfl, hu, .cons hs' htail⟩

end Map

end Chain

end ServiceInfra.Library
