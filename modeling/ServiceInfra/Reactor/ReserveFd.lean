import Mathlib.Data.List.FinRange
import Mathlib.Logic.Function.Basic
import ServiceInfra.Library.PartialRun

/-!
# The reserve descriptor

Every reactor keeps one descriptor on `/dev/null`. Where `accept` finds the table of the
process full, `onaccept` gives the reserve up, accepts a client, closes it, and opens the
reserve again, so that the client does not wake the reactor over and over. The lock keeps
two reactors from doing this at the same time. It does not keep another reactor from
accepting a client: one that does so in between takes the slot, and there is none left for
the reserve.

Main results:
- `reserveKept_iff`: when no run loses a reserve
- `reserveKept_single`: a reactor alone never does
-/

namespace ServiceInfra.Reactor

open Library

/-! ## State -/

/-- What an open descriptor is for. -/
inductive Use (R : Type*) where
  /-- It is the `idle_fd` of a reactor. -/
  | idle (r : R)
  | client (r : R)
  | other
  deriving DecidableEq, Repr

/-- Where a reactor stands in `onaccept`. -/
inductive Place (capacity : Nat) where
  /-- Before `accept`, or not in `onaccept`. -/
  | outside
  /-- `accept` failed with `EMFILE`. -/
  | full
  | locked
  /-- After `close(idle_fd)`. -/
  | idleClosed
  /-- After the second `accept`. -/
  | accepted (client : Option (Fin capacity))
  /-- After `close(client)`. -/
  | clientClosed
  /-- After `open("/dev/null")`. -/
  | reopened
  deriving DecidableEq, Repr

/-- The table of descriptors of the process, and the reactors. -/
structure ProcessFds (R : Type*) (capacity : Nat) where
  table : Fin capacity → Option (Use R)
  /-- `idle_fd`, where `none` is -1. -/
  idleFd : R → Option (Fin capacity)
  place : R → Place capacity
  /-- `g_mutex`, with the reactor that holds it. -/
  mutex : Option R

/-- The labels of the steps. -/
inductive FdAction (R : Type*) (capacity : Nat) where
  /-- The next step of `onaccept`, with or without a client that waits. -/
  | onaccept (r : R) (pending : Bool)
  | onclose (r : R) (fd : Fin capacity)
  deriving DecidableEq, Repr

/-- The reactor holds the lock. -/
def Place.holds {capacity : Nat} : Place capacity → Bool
  | .outside => false
  | .full => false
  | _ => true

/-- Between `close(idle_fd)` and `open("/dev/null")`. -/
def Place.inside {capacity : Nat} : Place capacity → Bool
  | .idleClosed => true
  | .accepted _ => true
  | .clientClosed => true
  | _ => false

/-! ## Steps -/

namespace ProcessFds

variable {R : Type*} {capacity : Nat}

/-- The descriptor that the next `accept` or `open` returns: the lowest free one. -/
def lowestFree (s : ProcessFds R capacity) : Option (Fin capacity) :=
  (List.finRange capacity).find? fun fd => (s.table fd).isNone

def openFd (s : ProcessFds R capacity) (fd : Fin capacity) (use : Use R) : ProcessFds R capacity :=
  { s with table := Function.update s.table fd (some use) }

/-- `close`, which does nothing for -1. -/
def closeFd (s : ProcessFds R capacity) : Option (Fin capacity) → ProcessFds R capacity
  | some fd => { s with table := Function.update s.table fd none }
  | none => s

variable [DecidableEq R]

def goto (s : ProcessFds R capacity) (r : R) (p : Place capacity) : ProcessFds R capacity :=
  { s with place := Function.update s.place r p }

def setIdle (s : ProcessFds R capacity) (r : R) (fd : Option (Fin capacity)) :
    ProcessFds R capacity :=
  { s with idleFd := Function.update s.idleFd r fd }

/-- The next step of `onaccept`. -/
def onaccept (s : ProcessFds R capacity) (r : R) (pending : Bool) :
    Option (ProcessFds R capacity) :=
  match s.place r with
  | .outside =>
      match s.lowestFree with
      | some fd => some (if pending then s.openFd fd (.client r) else s)
      | none => some (s.goto r .full)
  | .full => if s.mutex.isNone then some ({ s with mutex := some r }.goto r .locked) else none
  | .locked => some ((s.closeFd (s.idleFd r)).goto r .idleClosed)
  | .idleClosed =>
      match if pending then s.lowestFree else none with
      | some fd => some ((s.openFd fd (.client r)).goto r (.accepted (some fd)))
      | none => some (s.goto r (.accepted none))
  | .accepted client => some ((s.closeFd client).goto r .clientClosed)
  | .clientClosed =>
      match s.lowestFree with
      | some fd => some (((s.openFd fd (.idle r)).setIdle r (some fd)).goto r .reopened)
      | none => some ((s.setIdle r none).goto r .reopened)
  -- the end of the `lock_guard`
  | .reopened => some ({ s with mutex := none }.goto r .outside)

/-- `onclose` of a client of the reactor. -/
def onclose (s : ProcessFds R capacity) (r : R) (fd : Fin capacity) :
    Option (ProcessFds R capacity) :=
  if s.place r = .outside ∧ s.table fd = some (.client r) then some (s.closeFd (some fd)) else none

/-- One step. -/
def step (s : ProcessFds R capacity) : FdAction R capacity → Option (ProcessFds R capacity)
  | .onaccept r pending => s.onaccept r pending
  | .onclose r fd => s.onclose r fd

end ProcessFds

/-! ## Properties -/

section Properties

variable {R : Type*} {capacity : Nat}

/-- The `idle_fd` of the reactor is open, and its own. -/
def ProcessFds.HasReserve (s : ProcessFds R capacity) (r : R) : Prop :=
  ∃ fd, s.idleFd r = some fd ∧ s.table fd = some (.idle r)

/-- While no reactor is inside the sequence, all have their reserves. -/
def ReserveKept (s : ProcessFds R capacity) : Prop :=
  (∀ r, (s.place r).inside = false) → ∀ r, s.HasReserve r

/-- Where `/dev/null` is to be opened again, a descriptor is free. -/
def ReopenFindsSlot (s : ProcessFds R capacity) : FdAction R capacity → Prop
  | .onaccept r _ => s.place r = .clientClosed → ∃ fd, s.table fd = none
  | .onclose _ _ => True

instance [DecidableEq R] (s : ProcessFds R capacity) : DecidablePred (ReopenFindsSlot s)
  | .onaccept _ _ => inferInstanceAs (Decidable (_ → _))
  | .onclose _ _ => inferInstanceAs (Decidable True)

/-- All reactors have a reserve, and none is in `onaccept`. -/
structure ProcessFds.Started (s : ProcessFds R capacity) : Prop where
  reserve : ∀ r, s.HasReserve r
  outside : ∀ r, s.place r = .outside
  unlocked : s.mutex = none

/-- Outside the sequence the reactor has its reserve, within it a client of its own, and past
the lock it holds the lock. -/
def ReserveInv (s : ProcessFds R capacity) (r : R) : Prop :=
  match s.place r with
  | .outside => s.HasReserve r
  | .full => s.HasReserve r
  | .locked => s.HasReserve r ∧ s.mutex = some r
  | .idleClosed => s.mutex = some r
  | .accepted none => s.mutex = some r
  | .accepted (some fd) => s.table fd = some (.client r) ∧ s.mutex = some r
  | .clientClosed => s.mutex = some r
  | .reopened => s.HasReserve r ∧ s.mutex = some r

/-- What the steps of other reactors leave alone. -/
structure Undisturbed (s t : ProcessFds R capacity) (r : R) : Prop where
  place_eq : t.place r = s.place r
  idleFd_eq : t.idleFd r = s.idleFd r
  table_eq : ∀ fd use, use = .idle r ∨ use = .client r → s.table fd = some use →
    t.table fd = some use
  mutex_eq : s.mutex = some r → t.mutex = some r

end Properties

/-! ## Steps -/

section Steps

variable {R : Type*} {capacity : Nat} {s t : ProcessFds R capacity} {r r' : R}
  {fd : Fin capacity}

theorem lowestFree_free (h : s.lowestFree = some fd) : s.table fd = none := by
  unfold ProcessFds.lowestFree at h
  simpa using List.find?_some h

theorem lowestFree_full (h : s.lowestFree = none) (fd : Fin capacity) : s.table fd ≠ none := by
  intro hfree
  have hnot := List.find?_eq_none.mp h fd (List.mem_finRange fd)
  exact hnot (by rw [hfree]; rfl)

theorem Undisturbed.hasReserve (h : Undisturbed s t r) (hs : s.HasReserve r) :
    t.HasReserve r := by
  obtain ⟨fd, hidle, hopen⟩ := hs
  exact ⟨fd, h.idleFd_eq.trans hidle, h.table_eq fd _ (.inl rfl) hopen⟩

theorem Undisturbed.reserveInv (h : Undisturbed s t r) (hs : ReserveInv s r) :
    ReserveInv t r := by
  unfold ReserveInv at hs ⊢
  rw [h.place_eq]
  cases hplace : s.place r with
  | outside => exact h.hasReserve (by simpa only [hplace] using hs)
  | full => exact h.hasReserve (by simpa only [hplace] using hs)
  | locked =>
    simp only [hplace] at hs
    exact ⟨h.hasReserve hs.1, h.mutex_eq hs.2⟩
  | idleClosed => exact h.mutex_eq (by simpa only [hplace] using hs)
  | accepted client =>
    cases client with
    | none => exact h.mutex_eq (by simpa only [hplace] using hs)
    | some fd =>
      simp only [hplace] at hs
      exact ⟨h.table_eq fd _ (.inr rfl) hs.1, h.mutex_eq hs.2⟩
  | clientClosed => exact h.mutex_eq (by simpa only [hplace] using hs)
  | reopened =>
    simp only [hplace] at hs
    exact ⟨h.hasReserve hs.1, h.mutex_eq hs.2⟩

/-- A free descriptor is opened. -/
theorem table_openFd (hfree : s.table fd = none) {use use' : Use R} {fd' : Fin capacity}
    (h : s.table fd' = some use') : (s.openFd fd use).table fd' = some use' := by
  have hne : fd' ≠ fd := by
    rintro rfl
    rw [hfree] at h
    cases h
  exact (Function.update_of_ne hne _ _).trans h

/-- The descriptor of somebody else is closed. -/
theorem table_closeFd {use use' : Use R} (hopen : s.table fd = some use) (hne : use' ≠ use)
    {fd' : Fin capacity} (h : s.table fd' = some use') :
    (s.closeFd (some fd)).table fd' = some use' := by
  have hfd : fd' ≠ fd := by
    rintro rfl
    rw [hopen] at h
    cases h
    exact hne rfl
  exact (Function.update_of_ne hfd _ _).trans h

theorem ReserveInv.hasReserve (h : ReserveInv s r) (hinside : (s.place r).inside = false) :
    s.HasReserve r := by
  unfold ReserveInv at h
  cases hplace : s.place r with
  | outside => simpa only [hplace] using h
  | full => simpa only [hplace] using h
  | locked =>
    simp only [hplace] at h
    exact h.1
  | reopened =>
    simp only [hplace] at h
    exact h.1
  | _ => simp [hplace, Place.inside] at hinside

theorem ReserveInv.mutex_of_inside (h : ReserveInv s r) (hinside : (s.place r).inside = true) :
    s.mutex = some r := by
  unfold ReserveInv at h
  cases hplace : s.place r with
  | idleClosed => simpa only [hplace] using h
  | accepted client =>
    cases client with
    | none => simpa only [hplace] using h
    | some fd =>
      simp only [hplace] at h
      exact h.2
  | clientClosed => simpa only [hplace] using h
  | _ => simp [hplace, Place.inside] at hinside

theorem reserveKept_of_inv (h : ∀ r, ReserveInv s r) : ReserveKept s :=
  fun hinside r => (h r).hasReserve (hinside r)

variable [DecidableEq R]

theorem place_goto (s : ProcessFds R capacity) (r : R) (p : Place capacity) :
    (s.goto r p).place r = p := Function.update_self _ _ _

/-- A step of `onaccept` leaves the other reactors their descriptors. -/
theorem onaccept_undisturbed (h : ReserveInv s r) {pending : Bool}
    (hstep : s.onaccept r pending = some t) (hr : r' ≠ r) : Undisturbed s t r' := by
  have hgoto : ∀ p : Place capacity, (s.goto r p).place r' = s.place r' :=
    fun p => Function.update_of_ne hr _ _
  -- another reactor uses what it has open for itself
  have hother : ∀ {use : Use R}, use = .idle r' ∨ use = .client r' →
      use ≠ .idle r ∧ use ≠ .client r := by
    rintro use (rfl | rfl)
    · exact ⟨fun heq => hr (Use.idle.inj heq), nofun⟩
    · exact ⟨nofun, fun heq => hr (Use.client.inj heq)⟩
  unfold ProcessFds.onaccept at hstep
  split at hstep
  · split at hstep
    · rename_i fd hfree
      cases hstep
      split
      · exact ⟨rfl, rfl, fun _ _ _ hopen => table_openFd (lowestFree_free hfree) hopen, id⟩
      · exact ⟨rfl, rfl, fun _ _ _ hopen => hopen, id⟩
    · cases hstep
      exact ⟨hgoto _, rfl, fun _ _ _ hopen => hopen, id⟩
  · split at hstep
    · rename_i hunlocked
      cases hstep
      refine ⟨hgoto _, rfl, fun _ _ _ hopen => hopen, fun hmutex => ?_⟩
      rw [hmutex] at hunlocked
      cases hunlocked
    · cases hstep
  · rename_i hplace
    cases hstep
    simp only [ReserveInv, hplace] at h
    obtain ⟨⟨fd, hidle, hopen⟩, -⟩ := h
    rw [hidle]
    exact ⟨hgoto _, rfl, fun _ _ huse hfd => table_closeFd hopen (hother huse).1 hfd, id⟩
  · split at hstep
    · rename_i fd hpending
      cases hstep
      have hfree : s.table fd = none := by
        split at hpending
        · exact lowestFree_free hpending
        · cases hpending
      exact ⟨hgoto _, rfl, fun _ _ _ hopen => table_openFd hfree hopen, id⟩
    · cases hstep
      exact ⟨hgoto _, rfl, fun _ _ _ hopen => hopen, id⟩
  · rename_i client hplace
    cases hstep
    cases client with
    | none => exact ⟨hgoto _, rfl, fun _ _ _ hopen => hopen, id⟩
    | some fd =>
      simp only [ReserveInv, hplace] at h
      exact ⟨hgoto _, rfl, fun _ _ huse hfd => table_closeFd h.1 (hother huse).2 hfd, id⟩
  · split at hstep
    · rename_i fd hfree
      cases hstep
      exact ⟨hgoto _, Function.update_of_ne hr _ _,
        fun _ _ _ hopen => table_openFd (lowestFree_free hfree) hopen, id⟩
    · cases hstep
      exact ⟨hgoto _, Function.update_of_ne hr _ _, fun _ _ _ hopen => hopen, id⟩
  · rename_i hplace
    cases hstep
    refine ⟨hgoto _, rfl, fun _ _ _ hopen => hopen, fun hmutex => ?_⟩
    -- the lock is held by the reactor that gives it up
    simp only [ReserveInv, hplace] at h
    rw [h.2] at hmutex
    exact absurd (Option.some.inj hmutex).symm hr

/-- A step of `onaccept` keeps the reactor's own part, unless it finds no slot for the
reserve. -/
theorem onaccept_own (h : ReserveInv s r) {pending : Bool}
    (hslot : s.place r = .clientClosed → ∃ fd, s.table fd = none)
    (hstep : s.onaccept r pending = some t) : ReserveInv t r := by
  have hinv := h
  unfold ProcessFds.onaccept at hstep
  split at hstep
  · rename_i hplace
    simp only [ReserveInv, hplace] at hinv
    split at hstep
    · rename_i fd hfree
      cases hstep
      split
      · -- the client takes a free descriptor
        obtain ⟨fd', hidle, hopen⟩ := hinv
        have hreserve : (s.openFd fd (.client r)).HasReserve r :=
          ⟨fd', hidle, table_openFd (lowestFree_free hfree) hopen⟩
        have hsame : (s.openFd fd (.client r)).place r = .outside := hplace
        simpa only [ReserveInv, hsame] using hreserve
      · exact h
    · cases hstep
      simp only [ReserveInv, place_goto]
      exact hinv
  · rename_i hplace
    simp only [ReserveInv, hplace] at hinv
    split at hstep
    · cases hstep
      simp only [ReserveInv, place_goto]
      exact ⟨hinv, rfl⟩
    · cases hstep
  · rename_i hplace
    simp only [ReserveInv, hplace] at hinv
    cases hstep
    simp only [ReserveInv, place_goto]
    cases s.idleFd r <;> exact hinv.2
  · rename_i hplace
    simp only [ReserveInv, hplace] at hinv
    split at hstep
    · cases hstep
      simp only [ReserveInv, place_goto]
      exact ⟨Function.update_self _ _ _, hinv⟩
    · cases hstep
      simp only [ReserveInv, place_goto]
      exact hinv
  · rename_i client hplace
    have hmutex : s.mutex = some r := by
      cases client with
      | none => simpa only [ReserveInv, hplace] using hinv
      | some fd =>
        simp only [ReserveInv, hplace] at hinv
        exact hinv.2
    cases hstep
    simp only [ReserveInv, place_goto]
    cases client <;> exact hmutex
  · rename_i hplace
    simp only [ReserveInv, hplace] at hinv
    split at hstep
    · cases hstep
      simp only [ReserveInv, place_goto]
      exact ⟨⟨_, Function.update_self _ _ _, Function.update_self _ _ _⟩, hinv⟩
    · rename_i hfull
      obtain ⟨fd, hfree⟩ := hslot hplace
      exact absurd hfree (lowestFree_full hfull fd)
  · rename_i hplace
    simp only [ReserveInv, hplace] at hinv
    cases hstep
    simp only [ReserveInv, place_goto]
    exact hinv.1

/-- Closing a client takes nobody's reserve. -/
theorem onclose_reserveInv (h : ∀ r, ReserveInv s r) (hstep : s.onclose r fd = some t) (r' : R) :
    ReserveInv t r' := by
  unfold ProcessFds.onclose at hstep
  split at hstep
  · rename_i hclose
    obtain ⟨hplace, hopen⟩ := hclose
    cases hstep
    by_cases hr : r' = r
    · subst hr
      have hinv := h r'
      simp only [ReserveInv, hplace] at hinv
      obtain ⟨fd', hidle, hreserve⟩ := hinv
      have hkept : (s.closeFd (some fd)).HasReserve r' :=
        ⟨fd', hidle, table_closeFd hopen (fun heq => by cases heq) hreserve⟩
      have hsame : (s.closeFd (some fd)).place r' = .outside := hplace
      simpa only [ReserveInv, hsame] using hkept
    · have hsame : Undisturbed s (s.closeFd (some fd)) r' := by
        refine ⟨rfl, rfl, fun fd' use huse hfd => table_closeFd hopen ?_ hfd, id⟩
        rcases huse with rfl | rfl
        · exact nofun
        · exact fun heq => hr (Use.client.inj heq)
      exact hsame.reserveInv (h r')
  · cases hstep

/-- A reserve that finds no slot is lost when the sequence is over. -/
theorem reopen_full (h : ∀ r, ReserveInv s r) {pending : Bool} (hplace : s.place r = .clientClosed)
    (hfull : ∀ fd, s.table fd ≠ none) (hstep : s.onaccept r pending = some t) :
    ¬ ReserveKept t := by
  have hnone : s.lowestFree = none := by
    cases hfree : s.lowestFree with
    | none => rfl
    | some fd => exact absurd (lowestFree_free hfree) (hfull fd)
  have hmutex := (h r).mutex_of_inside (by rw [hplace]; rfl)
  simp only [ProcessFds.onaccept, hplace, hnone] at hstep
  cases hstep
  intro hkept
  -- the lock keeps the other reactors out of the sequence
  have houtside : ∀ r', (((s.setIdle r none).goto r .reopened).place r').inside = false := by
    intro r'
    by_cases hr : r' = r
    · subst hr
      rw [place_goto]
      rfl
    · have hsame : ((s.setIdle r none).goto r .reopened).place r' = s.place r' :=
        Function.update_of_ne hr _ _
      rw [hsame]
      by_contra hinside
      have hother := (h r').mutex_of_inside (Bool.not_eq_false _ |>.mp hinside)
      rw [hmutex] at hother
      exact hr (Option.some.inj hother).symm
  obtain ⟨fd, hidle, -⟩ := hkept houtside r
  have hlost : ((s.setIdle r none).goto r .reopened).idleFd r = none := Function.update_self _ _ _
  rw [hlost] at hidle
  cases hidle

/-- What a step does to the reserves is decided where one is opened again. -/
theorem reserve_step (h : ∀ r, ReserveInv s r) {a : FdAction R capacity}
    (hstep : s.step a = some t) :
    (ReserveKept t → ReopenFindsSlot s a) ∧ (ReopenFindsSlot s a → ∀ r, ReserveInv t r) := by
  cases a with
  | onaccept r pending =>
    constructor
    · intro hkept hplace
      by_contra hfull
      exact reopen_full h hplace (fun fd hfree => hfull ⟨fd, hfree⟩) hstep hkept
    · intro hslot r'
      by_cases hr : r' = r
      · subst hr
        exact onaccept_own (h r') hslot hstep
      · exact (onaccept_undisturbed (h r) hstep hr).reserveInv (h r')
  | onclose r fd => exact ⟨fun _ => trivial, fun _ => onclose_reserveInv h hstep⟩

end Steps

/-! ## Runs -/

/-- However many reactors there are, and however their steps and closes are ordered: while no
reactor is inside the sequence all have their reserves, exactly when every `open` of
`/dev/null` finds a free descriptor. -/
theorem reserveKept_iff {R : Type*} [DecidableEq R] {capacity : Nat} {s : ProcessFds R capacity}
    (hs : s.Started) (as : List (FdAction R capacity)) :
    Always ProcessFds.step ReserveKept s as ↔ Guarded ProcessFds.step ReopenFindsSlot s as := by
  refine always_iff_guarded_of_inv
    (fun s (h : ∀ r, ReserveInv s r) => reserveKept_of_inv h) ?_ ?_
  · exact fun s a t h hstep => reserve_step h hstep
  · intro r
    simp only [ReserveInv, hs.outside r]
    exact hs.reserve r

/-! ## One reactor -/

/-- Inside the sequence the slot given up is free, or the client has it. -/
def SlotKept {R : Type*} {capacity : Nat} (s : ProcessFds R capacity) (r : R) : Prop :=
  match s.place r with
  | .idleClosed => ∃ fd, s.table fd = none
  | .accepted none => ∃ fd, s.table fd = none
  | .clientClosed => ∃ fd, s.table fd = none
  | _ => True

section Single

variable {R : Type*} [DecidableEq R] {capacity : Nat} {s t : ProcessFds R capacity} {r : R}

theorem onaccept_slotKept (h : ReserveInv s r) (hslot : SlotKept s r) {pending : Bool}
    (hstep : s.onaccept r pending = some t) : SlotKept t r := by
  unfold ProcessFds.onaccept at hstep
  split at hstep
  · rename_i hplace
    split at hstep
    · rename_i fd _
      cases hstep
      split
      · have hsame : (s.openFd fd (.client r)).place r = .outside := hplace
        simp only [SlotKept, hsame]
      · exact hslot
    · cases hstep
      simp only [SlotKept, place_goto]
  · split at hstep
    · cases hstep
      simp only [SlotKept, place_goto]
    · cases hstep
  · rename_i hplace
    simp only [ReserveInv, hplace] at h
    obtain ⟨⟨fd, hidle, -⟩, -⟩ := h
    cases hstep
    simp only [SlotKept, place_goto, hidle]
    exact ⟨fd, Function.update_self _ _ _⟩
  · rename_i hplace
    simp only [SlotKept, hplace] at hslot
    split at hstep
    · cases hstep
      simp only [SlotKept, place_goto]
    · cases hstep
      simp only [SlotKept, place_goto]
      exact hslot
  · rename_i client hplace
    cases hstep
    simp only [SlotKept, place_goto]
    cases client with
    | none =>
      simp only [SlotKept, hplace] at hslot
      exact hslot
    | some fd => exact ⟨fd, Function.update_self _ _ _⟩
  · split at hstep <;> cases hstep <;> simp only [SlotKept, place_goto]
  · cases hstep
    simp only [SlotKept, place_goto]

end Single

/-- Without another reactor nobody takes the slot, and the reserve is never lost. -/
theorem reserveKept_single {R : Type*} [DecidableEq R] [Subsingleton R] {capacity : Nat}
    {s : ProcessFds R capacity} (hs : s.Started) (as : List (FdAction R capacity)) :
    Always ProcessFds.step ReserveKept s as := by
  have hinv : Always ProcessFds.step (fun s => ∀ r, ReserveInv s r ∧ SlotKept s r) s as := by
    refine Always.of_step ?_ fun r => ?_
    · intro s a t h hstep
      have hnext := (reserve_step (fun r => (h r).1) hstep).2
      cases a with
      | onaccept r pending =>
        intro r'
        rw [Subsingleton.elim r' r]
        have hslot : ReopenFindsSlot s (.onaccept r pending) := by
          intro hplace
          simpa only [SlotKept, hplace] using (h r).2
        exact ⟨hnext hslot r, onaccept_slotKept (h r).1 (h r).2 hstep⟩
      | onclose r fd =>
        intro r'
        refine ⟨hnext trivial r', ?_⟩
        simp only [ProcessFds.step, ProcessFds.onclose] at hstep
        split at hstep
        · rename_i hclose
          cases hstep
          have hsame : (s.closeFd (some fd)).place r' = .outside :=
            (congrArg s.place (Subsingleton.elim r' r)).trans hclose.1
          simp only [SlotKept, hsame]
        · cases hstep
    · have houtside := hs.outside r
      simp only [ReserveInv, SlotKept, houtside, and_true]
      exact hs.reserve r
  exact hinv.mono fun s h => reserveKept_of_inv fun r => (h r).1

/-! ## Two reactors -/

/-- Two reactors with their reserves, in a table with room for one client. -/
def twoReactors : ProcessFds Bool 3 where
  table fd := if fd = 0 then some (.idle false) else if fd = 1 then some (.idle true) else none
  idleFd r := some (if r then 1 else 0)
  place _ := .outside
  mutex := none

theorem twoReactors_started : twoReactors.Started where
  reserve r := by cases r <;> exact ⟨_, rfl, rfl⟩
  outside _ := rfl
  unlocked := rfl

/-- One client too many, while the other reactor only closes. -/
theorem reserveKept_iff_twoReactors :
    let as : List (FdAction Bool 3) :=
      [.onaccept true true, .onaccept false true, .onaccept false true, .onaccept false true,
        .onaccept false true, .onclose true 2, .onaccept false true, .onaccept false true,
        .onaccept false true]
    Guarded ProcessFds.step ReopenFindsSlot twoReactors as ∧
      (Always ProcessFds.step ReserveKept twoReactors as ↔
        Guarded ProcessFds.step ReopenFindsSlot twoReactors as) :=
  ⟨by decide +kernel, reserveKept_iff twoReactors_started _⟩

/-- The table is full. One reactor gives its reserve up, and before it opens the reserve again
the other one accepts a client. -/
def takenSlotRun : List (FdAction Bool 3) :=
  [.onaccept true true, .onaccept false true, .onaccept false true, .onaccept false true,
    .onaccept true true, .onaccept false true, .onaccept false true, .onaccept false true,
    .onaccept false true]

/-- Both reactors are out of `onaccept`, and one has no reserve. -/
theorem takenSlotRun_loses :
    ¬ Always ProcessFds.step ReserveKept twoReactors takenSlotRun ∧
      ∃ s, takenSlotRun.foldlM ProcessFds.step twoReactors = some s ∧
        (∀ r, s.place r = .outside) ∧ s.idleFd false = none := by
  have hrun : (takenSlotRun.foldlM ProcessFds.step twoReactors).any (fun s =>
      (∀ r, s.place r = .outside) ∧ s.idleFd false = none) = true := by
    decide +kernel
  obtain ⟨s, hlast, hend⟩ := (Option.any_eq_true _ _).mp hrun
  obtain ⟨houtside, hlost⟩ := of_decide_eq_true hend
  refine ⟨fun h => ?_, s, hlast, houtside, hlost⟩
  have hinside : ∀ r, (s.place r).inside = false := fun r => by rw [houtside r]; rfl
  obtain ⟨fd, hidle, -⟩ := h.last hlast hinside false
  rw [hlost] at hidle
  cases hidle

end ServiceInfra.Reactor
