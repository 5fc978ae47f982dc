import Mathlib.Tactic

/-!
# Labelled transition systems

Initial states, labelled steps, runs and reachable states, with the induction rules
that turn what one step preserves into what a whole run preserves, and simulations
between two systems.
-/

namespace ServiceInfra.Library

universe u v

/-- A labelled transition system. -/
structure TransitionSystem (σ : Type u) (α : Type v) where
  /-- The states a run may start in. -/
  init : σ → Prop
  /-- The steps. -/
  step : σ → α → σ → Prop

namespace TransitionSystem

variable {σ : Type u} {α : Type v} (T : TransitionSystem σ α)

/-- `T.Run s as t`: the steps labelled `as` lead from `s` to `t`. -/
inductive Run (s : σ) : List α → σ → Prop where
  | nil : Run s [] s
  | snoc {t u : σ} {as : List α} {a : α} :
      Run s as t → T.step t a u → Run s (as ++ [a]) u

/-- The states that some run from an initial state reaches. -/
def Reachable (t : σ) : Prop := ∃ s as, T.init s ∧ T.Run s as t

variable {T}

theorem Reachable.of_init {s : σ} (h : T.init s) : T.Reachable s := ⟨s, [], h, .nil⟩

theorem Reachable.step {s t : σ} {a : α} (h : T.Reachable s) (h' : T.step s a t) :
    T.Reachable t := by
  obtain ⟨s₀, as, hinit, hrun⟩ := h
  exact ⟨s₀, as ++ [a], hinit, hrun.snoc h'⟩

/-- Where a partial function takes the steps, what it leads to is reachable. -/
theorem Reachable.foldlM {f : σ → α → Option σ} (hf : ∀ s a t, f s a = some t → T.step s a t)
    {s t : σ} {as : List α} (h : T.Reachable s) (hrun : as.foldlM f s = some t) :
    T.Reachable t := by
  induction as generalizing s with
  | nil =>
    cases hrun
    exact h
  | cons a as ih =>
    obtain ⟨u, hstep, hrest⟩ := Option.bind_eq_some_iff.mp hrun
    exact ih (h.step (hf s a u hstep)) hrest

theorem Run.append {s t u : σ} {as bs : List α} (h : T.Run s as t) (h' : T.Run t bs u) :
    T.Run s (as ++ bs) u := by
  induction h' with
  | nil => rwa [List.append_nil]
  | snoc _ hlast ih =>
    rw [← List.append_assoc]
    exact ih.snoc hlast

/-- Where a partial function takes the steps, what it leads to is the end of a run. -/
theorem Run.of_foldlM {f : σ → α → Option σ} (hf : ∀ s a t, f s a = some t → T.step s a t)
    {s t : σ} {as : List α} (hrun : as.foldlM f s = some t) : T.Run s as t := by
  induction as generalizing s with
  | nil =>
    cases hrun
    exact .nil
  | cons a as ih =>
    obtain ⟨u, hstep, hrest⟩ := Option.bind_eq_some_iff.mp hrun
    exact (Run.nil.snoc (hf s a u hstep)).append (ih hrest)

/-- What every step preserves, every run preserves. -/
theorem Run.invariant {Inv : σ → Prop} (hstep : ∀ s a t, Inv s → T.step s a t → Inv t)
    {s t : σ} {as : List α} (h : T.Run s as t) (hs : Inv s) : Inv t := by
  induction h with
  | nil => exact hs
  | snoc _ hlast ih => exact hstep _ _ _ ih hlast

/-- What the steps with certain labels preserve, a run of such steps preserves. -/
theorem Run.invariant_of {P : α → Prop} {Inv : σ → Prop}
    (hstep : ∀ s a t, P a → Inv s → T.step s a t → Inv t)
    {s t : σ} {as : List α} (h : T.Run s as t) (has : ∀ a ∈ as, P a) (hs : Inv s) : Inv t := by
  induction h with
  | nil => exact hs
  | snoc _ hlast ih =>
    obtain ⟨hfront, ha⟩ := List.forall_mem_append.mp has
    exact hstep _ _ _ (ha _ List.mem_cons_self) (ih hfront) hlast

/-- A run of steps that each lower a measure is no longer than what it lowers. -/
theorem Run.length_add_le {P : α → Prop} {m : σ → Nat}
    (hlow : ∀ s a t, P a → T.step s a t → m t < m s)
    {s t : σ} {as : List α} (h : T.Run s as t) (has : ∀ a ∈ as, P a) :
    as.length + m t ≤ m s := by
  induction h with
  | nil => simp
  | snoc _ hlast ih =>
    obtain ⟨hfront, ha⟩ := List.forall_mem_append.mp has
    have hlt := hlow _ _ _ (ha _ List.mem_cons_self) hlast
    have hle := ih hfront
    rw [List.length_append, List.length_singleton]
    omega

theorem Reachable.run {s t : σ} {as : List α} (h : T.Reachable s) (hrun : T.Run s as t) :
    T.Reachable t := by
  induction hrun with
  | nil => exact h
  | snoc _ hlast ih => exact ih.step hlast

/-- What every step from a reachable state relates, every run from one does, where the relation
is reflexive and transitive. -/
theorem Reachable.run_rel {R : σ → σ → Prop} (hrefl : ∀ s, R s s)
    (htrans : ∀ s t u, R s t → R t u → R s u)
    (hstep : ∀ s a t, T.Reachable s → T.step s a t → R s t)
    {s t : σ} {as : List α} (h : T.Reachable s) (hrun : T.Run s as t) : R s t := by
  induction hrun with
  | nil => exact hrefl s
  | snoc hfront hlast ih => exact htrans _ _ _ ih (hstep _ _ _ (h.run hfront) hlast)

/-- An invariant that holds initially and is preserved by every step holds of every
reachable state. -/
theorem Reachable.invariant {Inv : σ → Prop} (hinit : ∀ s, T.init s → Inv s)
    (hstep : ∀ s a t, Inv s → T.step s a t → Inv t) {t : σ} (h : T.Reachable t) : Inv t := by
  obtain ⟨s, as, hs, hrun⟩ := h
  exact hrun.invariant hstep (hinit s hs)

/-! ## Runs below a bound -/

section Bounded

variable {f : σ → α → Option σ} {Inv : σ → Prop} {m : σ → Nat}

/-- What only grows is at the end of a run at least what it was at its start. -/
theorem le_of_foldlM (hgrows : ∀ s a t, Inv s → f s a = some t → Inv t ∧ m s ≤ m t)
    {s t : σ} {as : List α} (hs : Inv s) (hrun : as.foldlM f s = some t) : m s ≤ m t := by
  induction as generalizing s with
  | nil =>
    cases hrun
    exact le_rfl
  | cons a as ih =>
    obtain ⟨u, hstep, hrest⟩ := Option.bind_eq_some_iff.mp hrun
    obtain ⟨hu, hle⟩ := hgrows s a u hs hstep
    exact hle.trans (ih hu hrest)

/-- Where the steps of a system are those behind which something that only grows is below a
bound, a run is one of the system if it ends below the bound. -/
theorem Reachable.foldlM_lt {n : Nat}
    (hgrows : ∀ s a t, Inv s → f s a = some t → Inv t ∧ m s ≤ m t)
    (hstep : ∀ s a t, f s a = some t → Inv t → m t < n → T.step s a t)
    {s t : σ} {as : List α} (h : T.Reachable s) (hs : Inv s) (hrun : as.foldlM f s = some t)
    (hlt : m t < n) : T.Reachable t := by
  induction as generalizing s with
  | nil =>
    cases hrun
    exact h
  | cons a as ih =>
    obtain ⟨u, hfirst, hrest⟩ := Option.bind_eq_some_iff.mp hrun
    have hu := (hgrows s a u hs hfirst).1
    have hle := le_of_foldlM hgrows hu hrest
    exact ih (h.step (hstep s a u hfirst hu (hle.trans_lt hlt))) hu hrest

end Bounded

/-! ## Simulations -/

section Simulation

universe w x

variable {τ : Type w} {β : Type x}

/-- A forward simulation: what one step does, one step of the other system does, or none. -/
structure Simulation (T : TransitionSystem σ α) (S : TransitionSystem τ β) (R : σ → τ → Prop) :
    Prop where
  init : ∀ s, T.init s → ∃ s', S.init s' ∧ R s s'
  step : ∀ s a t s', T.step s a t → R s s' → R t s' ∨ ∃ b t', S.step s' b t' ∧ R t t'

/-- Whatever is reachable is related to something reachable in the other system. -/
theorem Simulation.reachable {S : TransitionSystem τ β} {R : σ → τ → Prop}
    (h : Simulation T S R) {s : σ} (hs : T.Reachable s) : ∃ s', S.Reachable s' ∧ R s s' := by
  obtain ⟨s₀, as, hinit, hrun⟩ := hs
  induction hrun with
  | nil =>
    obtain ⟨s', hinit', hrel⟩ := h.init s₀ hinit
    exact ⟨s', .of_init hinit', hrel⟩
  | snoc _ hlast ih =>
    obtain ⟨s', hreach, hrel⟩ := ih
    rcases h.step _ _ _ s' hlast hrel with hsame | ⟨b, t', hstep, hrel'⟩
    · exact ⟨s', hreach, hsame⟩
    · exact ⟨t', hreach.step hstep, hrel'⟩

end Simulation

end TransitionSystem

end ServiceInfra.Library
