import Mathlib.Tactic

/-!
# Runs of a partial step function

A step function `step : σ → α → Option σ` run over a list of labels. `Always` says that a
property holds in every state the run reaches, `Guarded` that a condition on the state
before and the label holds of every step it takes, `Attempted` that it holds of the steps
without a result too. The rule of this module turns what one
step needs into what a whole run needs: where the property survives a step exactly under
the condition, it holds all along a run exactly when the condition does.

Main results:
- `always_iff_guarded`, `Guarded.always_iff_of_inv`, `always_iff_guarded_of_inv`: the rule
- `always_and_attempted_iff`: the rule where steps without a result count
- `Guarded.always`: one direction of it, for a property that steps under the condition keep
-/

namespace ServiceInfra.Library

universe u v

variable {σ : Type u} {α : Type v} (step : σ → α → Option σ)

/-- `P` holds in every state that the run over the labels reaches. -/
def Always (P : σ → Prop) : σ → List α → Prop
  | s, [] => P s
  | s, a :: as => P s ∧ ∀ t, step s a = some t → Always P t as

/-- `G` holds of every step that the run over the labels takes. -/
def Guarded (G : σ → α → Prop) : σ → List α → Prop
  | _, [] => True
  | s, a :: as => ∀ t, step s a = some t → G s a ∧ Guarded G t as

/-- `A` holds of every step that the run over the labels attempts, with or without a result. -/
def Attempted (A : σ → α → Prop) : σ → List α → Prop
  | _, [] => True
  | s, a :: as => A s a ∧ ∀ t, step s a = some t → Attempted A t as

instance decidableAlways (P : σ → Prop) [DecidablePred P] :
    (s : σ) → (as : List α) → Decidable (Always step P s as)
  | s, [] => inferInstanceAs (Decidable (P s))
  | s, a :: as =>
      match h : step s a with
      | none => decidable_of_iff (P s) (by simp [Always, h])
      | some t =>
          have := decidableAlways P t as
          decidable_of_iff (P s ∧ Always step P t as) (by simp [Always, h])

instance decidableGuarded (G : σ → α → Prop) [∀ s, DecidablePred (G s)] :
    (s : σ) → (as : List α) → Decidable (Guarded step G s as)
  | _, [] => inferInstanceAs (Decidable True)
  | s, a :: as =>
      match h : step s a with
      | none => decidable_of_iff True (by simp [Guarded, h])
      | some t =>
          have := decidableGuarded G t as
          decidable_of_iff (G s a ∧ Guarded step G t as) (by simp [Guarded, h])

variable {step}

theorem Always.head {P : σ → Prop} {s : σ} {as : List α} (h : Always step P s as) : P s := by
  cases as with
  | nil => exact h
  | cons a as => exact h.1

/-- The state a run ends in is one of those it reaches. -/
theorem Always.last {P : σ → Prop} {s t : σ} {as : List α} (h : Always step P s as)
    (hrun : as.foldlM step s = some t) : P t := by
  induction as generalizing s with
  | nil =>
    cases hrun
    exact h
  | cons a as ih =>
    obtain ⟨u, hstep, hrest⟩ := Option.bind_eq_some_iff.mp hrun
    exact ih (h.2 u hstep) hrest

/-- The steps attempted after a part of the run are among those of the run. -/
theorem Attempted.of_append {A : σ → α → Prop} {s t : σ} {as bs : List α}
    (h : Attempted step A s (as ++ bs)) (hrun : as.foldlM step s = some t) :
    Attempted step A t bs := by
  induction as generalizing s with
  | nil =>
    cases hrun
    exact h
  | cons a as ih =>
    obtain ⟨u, hstep, hrest⟩ := Option.bind_eq_some_iff.mp hrun
    exact ih (h.2 u hstep) hrest

/-- What follows from the state alone holds of the steps attempted. -/
theorem Always.attempted {P : σ → Prop} {A : σ → α → Prop} (hA : ∀ s a, P s → A s a) {s : σ}
    {as : List α} (h : Always step P s as) : Attempted step A s as := by
  induction as generalizing s with
  | nil => trivial
  | cons a as ih => exact ⟨hA s a h.1, fun t ht => ih (h.2 t ht)⟩

/-- Where every step that starts with `P` ends with `P` exactly under the condition `G`,
`P` holds all along a run exactly when `G` does. -/
theorem always_iff_guarded {Inv Q P : σ → Prop} {G : σ → α → Prop}
    (hinv : ∀ s a t, Inv s → Q s → step s a = some t → Inv t)
    (hstep : ∀ s a t, Inv s → Q s → P s → step s a = some t → (P t ↔ G s a))
    {s : σ} {as : List α} (hs : Inv s) (hQ : Always step Q s as) (hP : P s) :
    Always step P s as ↔ Guarded step G s as := by
  -- step by step: `P` after a step is the condition on it, and the rest is the tail
  induction as generalizing s with
  | nil => exact iff_of_true hP trivial
  | cons a as ih =>
    constructor
    · intro h t ht
      have hPt : P t := (h.2 t ht).head
      exact ⟨(hstep s a t hs hQ.1 hP ht).mp hPt,
        (ih (hinv s a t hs hQ.1 ht) (hQ.2 t ht) hPt).mp (h.2 t ht)⟩
    · intro h
      refine ⟨hP, fun t ht => ?_⟩
      obtain ⟨hG, htail⟩ := h t ht
      have hPt : P t := (hstep s a t hs hQ.1 hP ht).mpr hG
      exact (ih (hinv s a t hs hQ.1 ht) (hQ.2 t ht) hPt).mpr htail

/-- What every step under the condition preserves holds all along a run under it. -/
theorem Guarded.always {Inv : σ → Prop} {G : σ → α → Prop}
    (hstep : ∀ s a t, Inv s → G s a → step s a = some t → Inv t) {s : σ} {as : List α}
    (h : Guarded step G s as) (hs : Inv s) : Always step Inv s as := by
  induction as generalizing s with
  | nil => exact hs
  | cons a as ih =>
    refine ⟨hs, fun t ht => ?_⟩
    obtain ⟨hG, htail⟩ := h t ht
    exact ih htail (hstep s a t hs hG ht)

/-- Along a run of which every step meets `A`: where an invariant that gives `P` survives a
step under the condition `G`, and `P` does not survive it otherwise, `P` holds all along the
run exactly when `G` does. -/
theorem Guarded.always_iff_of_inv {Inv P : σ → Prop} {A G : σ → α → Prop}
    (hP : ∀ s, Inv s → P s)
    (hstep : ∀ s a t, Inv s → A s a → step s a = some t → (P t → G s a) ∧ (G s a → Inv t))
    {s : σ} {as : List α} (h : Guarded step A s as) (hs : Inv s) :
    Always step P s as ↔ Guarded step G s as := by
  -- where the condition has held so far the invariant holds, and `P` decides about the next step
  induction as generalizing s with
  | nil => exact iff_of_true (hP s hs) trivial
  | cons a as ih =>
    constructor
    · intro halways t ht
      obtain ⟨hA, hrest⟩ := h t ht
      obtain ⟨hcond, hnext⟩ := hstep s a t hs hA ht
      have hG := hcond (halways.2 t ht).head
      exact ⟨hG, (ih hrest (hnext hG)).mp (halways.2 t ht)⟩
    · intro hguarded
      refine ⟨hP s hs, fun t ht => ?_⟩
      obtain ⟨hA, hrest⟩ := h t ht
      obtain ⟨hG, htail⟩ := hguarded t ht
      exact (ih hrest ((hstep s a t hs hA ht).2 hG)).mpr htail

/-- A condition that no step can miss. -/
theorem Guarded.of_forall {G : σ → α → Prop} (hG : ∀ s a, G s a) (s : σ) (as : List α) :
    Guarded step G s as := by
  induction as generalizing s with
  | nil => trivial
  | cons a as ih => exact fun t _ => ⟨hG s a, ih t⟩

/-- The same along every run. -/
theorem always_iff_guarded_of_inv {Inv P : σ → Prop} {G : σ → α → Prop}
    (hP : ∀ s, Inv s → P s)
    (hstep : ∀ s a t, Inv s → step s a = some t → (P t → G s a) ∧ (G s a → Inv t))
    {s : σ} {as : List α} (hs : Inv s) : Always step P s as ↔ Guarded step G s as :=
  (Guarded.of_forall (fun _ _ => trivial) s as).always_iff_of_inv (A := fun _ _ => True) hP
    (fun s a t hs _ => hstep s a t hs) hs

/-- Where an invariant decides about every step attempted in the same way as a condition, and
survives the steps under the condition, both the invariant's consequence and the attempted
steps are as wanted all along a run exactly when the condition is met there. -/
theorem always_and_attempted_iff {Inv P : σ → Prop} {A G : σ → α → Prop}
    (hP : ∀ s, Inv s → P s) (hiff : ∀ s a, Inv s → (A s a ↔ G s a))
    (hstep : ∀ s a t, Inv s → G s a → step s a = some t → Inv t) {s : σ} {as : List α}
    (hs : Inv s) : Always step P s as ∧ Attempted step A s as ↔ Attempted step G s as := by
  induction as generalizing s with
  | nil => exact iff_of_true ⟨hP s hs, trivial⟩ trivial
  | cons a as ih =>
    constructor
    · rintro ⟨halways, hA, hrest⟩
      have hG := (hiff s a hs).mp hA
      refine ⟨hG, fun t ht => ?_⟩
      exact (ih (hstep s a t hs hG ht)).mp ⟨halways.2 t ht, hrest t ht⟩
    · rintro ⟨hG, hrest⟩
      have htail := fun t ht => (ih (hstep s a t hs hG ht)).mpr (hrest t ht)
      exact ⟨⟨hP s hs, fun t ht => (htail t ht).1⟩, (hiff s a hs).mpr hG,
        fun t ht => (htail t ht).2⟩

/-- What every step preserves holds all along a run. -/
theorem Always.of_step {Inv : σ → Prop} (hstep : ∀ s a t, Inv s → step s a = some t → Inv t)
    {s : σ} {as : List α} (hs : Inv s) : Always step Inv s as := by
  induction as generalizing s with
  | nil => exact hs
  | cons a as ih => exact ⟨hs, fun t ht => ih (hstep s a t hs ht)⟩

/-- A property that follows from another one along a run. -/
theorem Always.mono {P Q : σ → Prop} (hPQ : ∀ s, P s → Q s) {s : σ} {as : List α}
    (h : Always step P s as) : Always step Q s as := by
  induction as generalizing s with
  | nil => exact hPQ s h
  | cons a as ih => exact ⟨hPQ s h.1, fun t ht => ih (h.2 t ht)⟩

end ServiceInfra.Library
