import ServiceInfra.ConnectionPool.Pool

/-!
# Guards

A `ConnectionGuard` carries a connection of the pool and the callback that gives it back.
Guards are made, moved and destroyed in any order. A guard that is destroyed, or onto which
another one is moved, calls back with the connection that it has; a guard that was moved
from has none.

The abstract side is the `Place` of each connection: not lent yet, with one guard, or
returned. An operation on the guards moves connections from place to place, and `Tracks`
is that the guards and the calls agree with the places.

Main results:
- `Tracks.step`: every operation agrees with a move of the places
- `returned_once`: a connection is with one guard, or was called back once
-/

namespace ServiceInfra.ConnectionPool

/-! ## Guards -/

/-- `ConnectionGuard`, over a type of callbacks; a null pointer and an empty function are
`none`. -/
structure ConnectionGuard (F : Type) where
  conn : Option Conn := none
  returnCallback : Option F := none
  deriving DecidableEq, Repr

/-- `if(conn_&&return_callback_) return_callback_(conn_)`: the call that is made. -/
def ConnectionGuard.callBack {F : Type} (x : ConnectionGuard F) : List (F × Conn) :=
  match x.conn, x.returnCallback with
  | some c, some f => [(f, c)]
  | _, _ => []

/-- The guards that live, by their addresses, and the calls of callbacks so far. -/
structure GuardState (G F : Type) where
  guards : G → Option (ConnectionGuard F) := fun _ => none
  calls : List (F × Conn) := []

/-- The operations on guards. -/
inductive GuardOp (G F : Type) where
  /-- `ConnectionGuard(conn, callback)`. -/
  | construct (g : G) (conn : Conn) (callback : F)
  /-- `ConnectionGuard(nullptr, nullptr)`. -/
  | constructEmpty (g : G)
  | moveConstruct (g other : G)
  | moveAssign (g other : G)
  | destroy (g : G)
  deriving DecidableEq, Repr

namespace GuardState

variable {G F : Type} [DecidableEq G]

/-- What lives at an address. -/
def put (s : GuardState G F) (g : G) (x : Option (ConnectionGuard F)) : GuardState G F :=
  { s with guards := Function.update s.guards g x }

@[simp] theorem put_self (s : GuardState G F) (g : G) (x : Option (ConnectionGuard F)) :
    (s.put g x).guards g = x :=
  Function.update_self ..

@[simp] theorem put_of_ne (s : GuardState G F) {g h : G} (hne : h ≠ g)
    (x : Option (ConnectionGuard F)) : (s.put g x).guards h = s.guards h :=
  Function.update_of_ne hne ..

theorem put_put (s : GuardState G F) (g : G) (x y : Option (ConnectionGuard F)) :
    (s.put g x).put g y = s.put g y := by
  rw [put, put, put, Function.update_idem]

@[simp] theorem put_calls (s : GuardState G F) (g : G) (x : Option (ConnectionGuard F)) :
    (s.put g x).calls = s.calls := rfl

/-- The constructor, at an address where no guard lives. -/
def construct (s : GuardState G F) (g : G) (x : ConnectionGuard F) : Option (GuardState G F) :=
  match s.guards g with
  | some _ => none
  | none => some (s.put g (some x))

/-- The move constructor: `other` is left with null pointers. -/
def moveConstruct (s : GuardState G F) (g other : G) : Option (GuardState G F) :=
  match s.guards g, s.guards other with
  | none, some x => some ((s.put g (some x)).put other (some {}))
  | _, _ => none

/-- `operator=`: onto itself it does nothing, otherwise the guard calls back first. -/
def moveAssign (s : GuardState G F) (g other : G) : Option (GuardState G F) :=
  match s.guards g, s.guards other with
  | some x, some y =>
      if g ≠ other then
        let s := { s with calls := s.calls ++ x.callBack }
        some ((s.put g (some y)).put other (some {}))
      else some s
  | _, _ => none

/-- The destructor. -/
def destroy (s : GuardState G F) (g : G) : Option (GuardState G F) :=
  match s.guards g with
  | some x => some ({ s with calls := s.calls ++ x.callBack }.put g none)
  | none => none

/-- One operation. -/
def step (s : GuardState G F) : GuardOp G F → Option (GuardState G F)
  | .construct g conn callback => s.construct g ⟨some conn, some callback⟩
  | .constructEmpty g => s.construct g {}
  | .moveConstruct g other => s.moveConstruct g other
  | .moveAssign g other => s.moveAssign g other
  | .destroy g => s.destroy g

/-- The guard that lives at `g` has the connection. -/
def Holds (s : GuardState G F) (g : G) (c : Conn) : Prop :=
  (s.guards g).bind ConnectionGuard.conn = some c

/-- A guard that was destroyed has no connection, whatever it had. -/
theorem not_holds_of_destroy {s t : GuardState G F} {g : G} (h : s.destroy g = some t) (c : Conn) :
    ¬ t.Holds g c := by
  unfold destroy at h
  split at h
  · cases h
    simp [Holds]
  · cases h

end GuardState

/-- The connections that a program gives to guards, with their callbacks. -/
def lentBy {G F : Type} (ops : List (GuardOp G F)) : List (Conn × F) :=
  ops.filterMap fun
    | .construct _ conn callback => some (conn, callback)
    | _ => none

theorem lentBy_cons {G F : Type} (op : GuardOp G F) (ops : List (GuardOp G F)) :
    lentBy (op :: ops) = lentBy [op] ++ lentBy ops :=
  List.filterMap_append (l := [op])

/-! ## Places -/

/-- Where a connection is. -/
inductive Place (G : Type) where
  | unlent
  | held (g : G)
  | returned
  deriving DecidableEq, Repr

/-- The guards and the calls agree with the places, after the connections `lent`. -/
structure Tracks {G F : Type} (lent : List (Conn × F)) (s : GuardState G F)
    (place : Conn → Place G) : Prop where
  held_iff : ∀ g c, s.Holds g c ↔ place c = .held g
  /-- A guard has the callback that its connection came with. -/
  callback : ∀ g x c, s.guards g = some x → x.conn = some c →
    ∃ f, x.returnCallback = some f ∧ (c, f) ∈ lent
  unlent : ∀ c f, (c, f) ∈ lent → place c ≠ .unlent
  returned : ∀ c, place c = .returned →
    ∃ f, (c, f) ∈ lent ∧ s.calls.filter (·.2 = c) = [(f, c)]
  uncalled : ∀ c, place c ≠ .returned → s.calls.filter (·.2 = c) = []

/-! ## What an operation does to the places -/

section Steps

variable {G F : Type} {lent : List (Conn × F)} {s t : GuardState G F} {place : Conn → Place G}
  {g other : G} {x y : ConnectionGuard F} {o : Option (ConnectionGuard F)}

namespace Tracks

theorem start : Tracks [] ({} : GuardState G F) fun _ => .unlent where
  held_iff g c := by simp [GuardState.Holds]
  callback g x c hg := by cases hg
  unlent c f hlent := by cases hlent
  returned c hplace := by cases hplace
  uncalled c _ := rfl

/-- The connection of a guard is in its hands, and was not called back. -/
theorem place_of_guard (h : Tracks lent s place) (hg : s.guards g = some x) {c : Conn}
    (hc : x.conn = some c) : place c = .held g := by
  refine (h.held_iff g c).mp ?_
  rw [GuardState.Holds, hg]
  exact hc

/-- A connection that was not lent is nowhere. -/
theorem place_of_fresh (h : Tracks lent s place) {c : Conn} (hfresh : c ∉ lent.map Prod.fst) :
    place c = .unlent := by
  have hnone : ∀ f, (c, f) ∉ lent := fun f hmem => hfresh (List.mem_map_of_mem hmem)
  cases hplace : place c with
  | unlent => rfl
  | held g =>
    obtain ⟨x, hx, hc⟩ := Option.bind_eq_some_iff.mp ((h.held_iff g c).mpr hplace)
    obtain ⟨f, -, hmem⟩ := h.callback g x c hx hc
    exact absurd hmem (hnone f)
  | returned =>
    obtain ⟨f, hmem, -⟩ := h.returned c hplace
    exact absurd hmem (hnone f)

end Tracks

variable [DecidableEq G]

theorem holds_put_self (c : Conn) :
    (s.put g o).Holds g c ↔ o.bind ConnectionGuard.conn = some c := by
  rw [GuardState.Holds, s.put_self]

theorem holds_put_of_ne {h : G} (hne : h ≠ g) (c : Conn) :
    (s.put g o).Holds h c ↔ s.Holds h c := by
  rw [GuardState.Holds, s.put_of_ne hne, GuardState.Holds]

/-- A guard calls back for no connection but its own. -/
theorem filter_callBack_of_ne {c : Conn} (hc : x.conn ≠ some c) :
    x.callBack.filter (·.2 = c) = [] := by
  unfold ConnectionGuard.callBack
  split
  · rename_i d f hconn hcallback
    have hne : d ≠ c := fun heq => hc (by rw [hconn, heq])
    simp [hne]
  · rfl

namespace Tracks

/-- Guards without a connection come and go. -/
theorem put_empty (h : Tracks lent s place) (hg : (s.guards g).bind ConnectionGuard.conn = none)
    (ho : o.bind ConnectionGuard.conn = none) : Tracks lent (s.put g o) place where
  held_iff h' c := by
    rw [← h.held_iff]
    by_cases hne : h' = g
    · rw [hne, holds_put_self, GuardState.Holds, ho, hg]
    · exact holds_put_of_ne hne c
  callback h' x c hx hc := by
    by_cases hne : h' = g
    · rw [hne, s.put_self] at hx
      rw [hx] at ho
      rw [show x.conn = none from ho] at hc
      cases hc
    · rw [s.put_of_ne hne] at hx
      exact h.callback h' x c hx hc
  unlent := h.unlent
  returned := h.returned
  uncalled := h.uncalled

/-- A guard calls back with its connection and keeps nothing. -/
theorem called (h : Tracks lent s place) (hg : s.guards g = some x)
    (ho : o.bind ConnectionGuard.conn = none) :
    Tracks lent ({ s with calls := s.calls ++ x.callBack }.put g o)
      fun c => if x.conn = some c then .returned else place c where
  held_iff h' c := by
    have hold := h.held_iff h' c
    by_cases hc : x.conn = some c
    · have hplace := h.place_of_guard hg hc
      simp only [if_pos hc, reduceCtorEq, iff_false]
      by_cases hne : h' = g
      · rw [hne, holds_put_self, ho]
        simp
      · rw [holds_put_of_ne hne]
        intro hheld
        have heq := (hold.mp hheld).symm.trans hplace
        exact hne (Place.held.inj heq)
    · simp only [if_neg hc]
      rw [← hold]
      by_cases hne : h' = g
      · rw [hne, holds_put_self, ho, GuardState.Holds, hg]
        exact iff_of_false (by simp) hc
      · exact holds_put_of_ne hne c
  callback h' y c hy hc := by
    by_cases hne : h' = g
    · rw [hne, GuardState.put_self] at hy
      rw [hy] at ho
      rw [show y.conn = none from ho] at hc
      cases hc
    · rw [GuardState.put_of_ne _ hne] at hy
      exact h.callback h' y c hy hc
  unlent c f hlent := by
    split
    · simp
    · exact h.unlent c f hlent
  returned c hplace := by
    by_cases hc : x.conn = some c
    · obtain ⟨f, hf, hmem⟩ := h.callback g x c hg hc
      refine ⟨f, hmem, ?_⟩
      have hbefore := h.uncalled c (by rw [h.place_of_guard hg hc]; simp)
      simp [ConnectionGuard.callBack, hc, hf, hbefore]
    · rw [if_neg hc] at hplace
      obtain ⟨f, hmem, hcalls⟩ := h.returned c hplace
      refine ⟨f, hmem, ?_⟩
      rw [GuardState.put_calls, List.filter_append, hcalls, filter_callBack_of_ne hc,
        List.append_nil]
  uncalled c hplace := by
    by_cases hc : x.conn = some c
    · rw [if_pos hc] at hplace
      exact absurd rfl hplace
    · rw [if_neg hc] at hplace
      rw [GuardState.put_calls, List.filter_append, h.uncalled c hplace,
        filter_callBack_of_ne hc, List.append_nil]

/-- A guard without a connection takes over the one of another. -/
theorem moved (h : Tracks lent s place) (hne : g ≠ other)
    (hg : (s.guards g).bind ConnectionGuard.conn = none) (hother : s.guards other = some y) :
    Tracks lent ((s.put g (some y)).put other (some {}))
      fun c => if y.conn = some c then .held g else place c where
  held_iff h' c := by
    have hold := h.held_iff h' c
    by_cases hfrom : h' = other
    · -- the other guard has nothing any more
      subst hfrom
      rw [holds_put_self]
      refine iff_of_false (by simp) ?_
      split
      · simpa using hne
      · rename_i hc
        rw [← hold, GuardState.Holds, hother]
        exact hc
    · rw [holds_put_of_ne hfrom]
      by_cases hto : h' = g
      · subst hto
        rw [holds_put_self]
        split
        · rename_i hc
          exact iff_of_true hc rfl
        · rename_i hc
          rw [← hold, GuardState.Holds, hg]
          exact iff_of_false hc (by simp)
      · rw [holds_put_of_ne hto]
        split
        · rename_i hc
          rw [hold, h.place_of_guard hother hc]
          refine iff_of_false ?_ ?_ <;> simp only [Place.held.injEq]
          · exact fun heq => hfrom heq.symm
          · exact fun heq => hto heq.symm
        · exact hold
  callback h' z c hz hc := by
    by_cases hfrom : h' = other
    · rw [hfrom, GuardState.put_self] at hz
      cases hz
      cases hc
    · rw [GuardState.put_of_ne _ hfrom] at hz
      by_cases hto : h' = g
      · rw [hto, GuardState.put_self] at hz
        cases hz
        exact h.callback other y c hother hc
      · rw [GuardState.put_of_ne _ hto] at hz
        exact h.callback h' z c hz hc
  unlent c f hlent := by
    split
    · simp
    · exact h.unlent c f hlent
  returned c hplace := by
    split at hplace
    · cases hplace
    · exact h.returned c hplace
  uncalled c hplace := by
    split at hplace
    · rename_i hc
      exact h.uncalled c (by rw [h.place_of_guard hother hc]; simp)
    · exact h.uncalled c hplace

/-- A new guard gets a connection that no guard has had. -/
theorem lend (h : Tracks lent s place) (hg : s.guards g = none) {conn : Conn} {f : F}
    (hfresh : conn ∉ lent.map Prod.fst) :
    Tracks (lent ++ [(conn, f)]) (s.put g (some ⟨some conn, some f⟩))
      fun c => if c = conn then .held g else place c where
  held_iff h' c := by
    have hold := h.held_iff h' c
    by_cases hto : h' = g
    · subst hto
      rw [holds_put_self]
      split
      · rename_i hc
        exact iff_of_true (congrArg some hc.symm) rfl
      · rename_i hc
        rw [← hold, GuardState.Holds, hg]
        exact iff_of_false (fun heq => hc (Option.some.inj heq).symm) (by simp)
    · rw [holds_put_of_ne hto, hold]
      split
      · rename_i hc
        rw [hc, h.place_of_fresh hfresh]
        simpa using fun heq => hto heq.symm
      · exact Iff.rfl
  callback h' z c hz hc := by
    by_cases hto : h' = g
    · rw [hto, GuardState.put_self] at hz
      cases hz
      cases hc
      exact ⟨f, rfl, List.mem_append_right _ (List.mem_singleton.mpr rfl)⟩
    · rw [GuardState.put_of_ne _ hto] at hz
      obtain ⟨f', hf', hmem⟩ := h.callback h' z c hz hc
      exact ⟨f', hf', List.mem_append_left _ hmem⟩
  unlent c f' hlent := by
    split
    · simp
    · rename_i hc
      rcases List.mem_append.mp hlent with hmem | hmem
      · exact h.unlent c f' hmem
      · exact absurd (congrArg Prod.fst (List.mem_singleton.mp hmem)) hc
  returned c hplace := by
    split at hplace
    · cases hplace
    · obtain ⟨f', hmem, hcalls⟩ := h.returned c hplace
      exact ⟨f', List.mem_append_left _ hmem, hcalls⟩
  uncalled c hplace := by
    split at hplace
    · rename_i hc
      refine h.uncalled c ?_
      rw [hc, h.place_of_fresh hfresh]
      simp
    · exact h.uncalled c hplace

/-- Every operation moves connections from place to place. -/
theorem step (h : Tracks lent s place) {op : GuardOp G F} (hstep : s.step op = some t)
    (hfresh : ((lent ++ lentBy [op]).map Prod.fst).Nodup) :
    ∃ place, Tracks (lent ++ lentBy [op]) t place := by
  cases op with
  | construct g conn callback =>
    simp only [GuardState.step, GuardState.construct] at hstep
    split at hstep
    · cases hstep
    · rename_i hg
      cases hstep
      refine ⟨_, h.lend hg fun hmem => ?_⟩
      rw [List.map_append] at hfresh
      exact (List.nodup_append.mp hfresh).2.2 conn hmem conn List.mem_cons_self rfl
  | constructEmpty g =>
    simp only [GuardState.step, GuardState.construct] at hstep
    split at hstep
    · cases hstep
    · rename_i hg
      cases hstep
      rw [show lentBy [GuardOp.constructEmpty (F := F) g] = [] from rfl, List.append_nil]
      exact ⟨place, h.put_empty (by rw [hg]; rfl) rfl⟩
  | moveConstruct g other =>
    simp only [GuardState.step, GuardState.moveConstruct] at hstep
    split at hstep
    · rename_i y hg hother
      cases hstep
      have hne : g ≠ other := by
        rintro rfl
        rw [hg] at hother
        cases hother
      rw [show lentBy [GuardOp.moveConstruct (F := F) g other] = [] from rfl, List.append_nil]
      exact ⟨_, h.moved hne (by rw [hg]; rfl) hother⟩
    · cases hstep
  | moveAssign g other =>
    rw [show lentBy [GuardOp.moveAssign (F := F) g other] = [] from rfl, List.append_nil]
    simp only [GuardState.step, GuardState.moveAssign] at hstep
    split at hstep
    · rename_i x y hg hother
      split at hstep
      · rename_i hne
        cases hstep
        -- the guard gives its connection back, and then takes over the other one
        have hcalled := h.called (o := some {}) hg rfl
        have hmoved := hcalled.moved hne (y := y) (by rw [GuardState.put_self]; rfl)
          (by rw [GuardState.put_of_ne _ hne.symm]; exact hother)
        rw [GuardState.put_put] at hmoved
        exact ⟨_, hmoved⟩
      · cases hstep
        exact ⟨place, h⟩
    · cases hstep
  | destroy g =>
    rw [show lentBy [GuardOp.destroy (F := F) g] = [] from rfl, List.append_nil]
    simp only [GuardState.step, GuardState.destroy] at hstep
    split at hstep
    · rename_i x hg
      cases hstep
      exact ⟨_, h.called hg rfl⟩
    · cases hstep

/-- A whole program. -/
theorem run {ops : List (GuardOp G F)} (h : Tracks lent s place)
    (hrun : ops.foldlM GuardState.step s = some t)
    (hfresh : ((lent ++ lentBy ops).map Prod.fst).Nodup) :
    ∃ place, Tracks (lent ++ lentBy ops) t place := by
  induction ops generalizing s lent place with
  | nil =>
    cases hrun
    rw [show lentBy ([] : List (GuardOp G F)) = [] from rfl, List.append_nil]
    exact ⟨place, h⟩
  | cons op ops ih =>
    obtain ⟨u, hstep, hrest⟩ := Option.bind_eq_some_iff.mp hrun
    have hsplit : lent ++ lentBy (op :: ops) = (lent ++ lentBy [op]) ++ lentBy ops := by
      rw [lentBy_cons, List.append_assoc]
    rw [hsplit] at hfresh ⊢
    have hhead : ((lent ++ lentBy [op]).map Prod.fst).Nodup := by
      rw [List.map_append] at hfresh
      exact (List.nodup_append.mp hfresh).1
    obtain ⟨place', hnext⟩ := h.step hstep hhead
    exact ih hnext hrest hfresh

end Tracks

end Steps

/-- Behind every program that gives each connection to one guard: no two guards have the same
connection; a connection that no guard has was called back once, with the callback that it
came with; and one that a guard has was not called back. -/
theorem returned_once {G F : Type} [DecidableEq G] {ops : List (GuardOp G F)}
    (honce : ((lentBy ops).map Prod.fst).Nodup) {s : GuardState G F}
    (hrun : ops.foldlM GuardState.step {} = some s) (c : Conn) :
    (∀ g h, s.Holds g c → s.Holds h c → g = h) ∧
      (∀ f, (c, f) ∈ lentBy ops → (∀ g, ¬ s.Holds g c) → s.calls.filter (·.2 = c) = [(f, c)]) ∧
      ∀ g, s.Holds g c → s.calls.filter (·.2 = c) = [] := by
  obtain ⟨place, htracks⟩ := Tracks.start.run hrun (by rwa [List.nil_append])
  rw [List.nil_append] at htracks
  refine ⟨fun g h hg hh => ?_, fun f hlent hunheld => ?_, fun g hg => ?_⟩
  · rw [htracks.held_iff] at hg hh
    rw [hg] at hh
    exact Place.held.inj hh
  · cases hplace : place c with
    | unlent => exact absurd hplace (htracks.unlent c f hlent)
    | held g => exact absurd ((htracks.held_iff g c).mpr hplace) (hunheld g)
    | returned =>
      obtain ⟨f', hlent', hcalls⟩ := htracks.returned c hplace
      -- a connection comes with one callback
      have hsame := List.inj_on_of_nodup_map honce hlent hlent' rfl
      rw [(Prod.mk.inj hsame).2]
      exact hcalls
  · refine htracks.uncalled c ?_
    rw [(htracks.held_iff g c).mp hg]
    simp

/-- A guard is moved onto one that has a connection, and onto itself; then both guards are
destroyed. -/
def overwriting : List (GuardOp Bool Unit) :=
  [.construct false 100 (), .construct true 200 (), .moveAssign false true,
    .moveAssign false false, .destroy true, .destroy false]

/-- Both connections are called back, in this order. -/
theorem returned_once_overwritten :
    ∃ s, overwriting.foldlM GuardState.step {} = some s ∧ s.calls = [((), 100), ((), 200)] ∧
      s.calls.filter (·.2 = 200) = [((), 200)] := by
  have hrun : (overwriting.foldlM GuardState.step {}).any (fun s =>
      s.calls = [((), 100), ((), 200)] ∧ ∀ g, s.guards g = none) = true := by
    decide +kernel
  obtain ⟨s, hlast, hend⟩ := (Option.any_eq_true _ _).mp hrun
  obtain ⟨hcalls, hnone⟩ := of_decide_eq_true hend
  refine ⟨s, hlast, hcalls, (returned_once (by decide) hlast 200).2.1 () (by decide) fun g => ?_⟩
  rw [GuardState.Holds, hnone g]
  simp

end ServiceInfra.ConnectionPool
