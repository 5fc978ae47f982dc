import ServiceInfra.ConnectionPool.Pool

/-!
# The order of the shutdown

The destructor sets `stopping_`, wakes everyone, joins the scanner and then the workers, and
only then waits for the connections in use. `Phases` says what that order leaves: behind
the `notify_all` no task sleeps, and behind the joins the threads are gone. It holds in
every reachable state. `ThreadEffect` says once what a step can do to the places of the
threads.

Main results:
- `step_threads`: every step has one of these effects
- `Phases.step`: every step keeps the phases
- `stopping_of_step`: `stopping_` is never reset
-/

namespace ServiceInfra.ConnectionPool

/-! ## Definitions -/

/-- The scanner has been joined. -/
def Destructor.hasJoined : Destructor → Bool
  | .resetting | .arriving | .blocked | .woken | .finished => true
  | _ => false

/-- What the place of the destructor says about the other threads. -/
structure Phases {W : Type} (s : PoolState W) : Prop where
  flag : s.stopping = true ↔ s.destructor ≠ .notStarted
  /-- Behind the `notify_all` no task goes to sleep any more. -/
  awake : s.stopping = true → s.destructor ≠ .stopped → ∀ w, s.tasks w ≠ .blocked
  scanned : s.destructor.hasJoined = true → s.scanner = .left
  unstaffed : s.staffed = false → ∀ w, s.tasks w = .free

/-- The threads stand where they stood, whatever has changed in the books. -/
structure SameThreads {W : Type} (s t : PoolState W) : Prop where
  tasks : t.tasks = s.tasks
  scanner : t.scanner = s.scanner
  destructor : t.destructor = s.destructor
  stopping : t.stopping = s.stopping
  releasing : t.releasing = s.releasing

/-- What a step can do to the threads. -/
inductive ThreadEffect {W : Type} [DecidableEq W] : PoolState W → PoolState W → Prop where
  /-- Nothing. -/
  | same {s t : PoolState W} (hsame : SameThreads s t) : ThreadEffect s t
  /-- A task goes on; it sleeps only before the pool stops. -/
  | ran {s : PoolState W} (w : W) (u : Task) (hbusy : s.tasks w ≠ .free ∨ s.staffed = true)
      (hsleeps : u = .blocked → s.stopping = false) : ThreadEffect s (s.goTo w u)
  /-- Another number of calls of `release` have their notify to issue. -/
  | counted (s : PoolState W) (n : Nat) : ThreadEffect s { s with releasing := n }
  /-- The scanner goes on. -/
  | scanned {s : PoolState W} (place : Scanner) (hscanner : s.scanner ≠ .left) :
      ThreadEffect s { s with scanner := place }
  | stopped {s : PoolState W} (hplace : s.destructor = .notStarted) :
      ThreadEffect s { s with stopping := true, destructor := .stopped }
  /-- The `notify_all`: no task sleeps behind it. -/
  | notifiedAll {s t : PoolState W} (hplace : s.destructor = .stopped)
      (hawake : ∀ w, t.tasks w ≠ .blocked) (hnext : t.destructor = .joining)
      (hflag : t.stopping = s.stopping) : ThreadEffect s t
  /-- The scanner has returned. -/
  | joined {s : PoolState W} (hplace : s.destructor = .joining) (hleft : s.scanner = .left) :
      ThreadEffect s { s with destructor := .resetting }
  /-- The workers are gone. -/
  | reset {s : PoolState W} (hplace : s.destructor = .resetting)
      (hfree : ∀ w, s.tasks w = .free) : ThreadEffect s { s with destructor := .arriving }
  /-- The destructor goes on by itself. -/
  | destroyed {s : PoolState W} {d : Destructor} (hstaff : s.staffed = false)
      (hjoined : d.hasJoined = true) : ThreadEffect s { s with destructor := d }
  | trans {s t u : PoolState W} (hfirst : ThreadEffect s t) (hnext : ThreadEffect t u) :
      ThreadEffect s u

/-! ## What a step does to the threads -/

section Effect

variable {W : Type} {L : Limits} {s t : PoolState W}

theorem SameThreads.staffed (h : SameThreads s t) : t.staffed = s.staffed := by
  rw [PoolState.staffed, PoolState.staffed, h.destructor]

theorem SameThreads.reap (L : Limits) (expired : List Conn) (s : PoolState W) :
    SameThreads s (s.reap L expired) := by
  induction expired generalizing s with
  | nil => exact ⟨rfl, rfl, rfl, rfl, rfl⟩
  | cons c expired ih =>
    rw [PoolState.reap]
    split
    · exact ⟨rfl, rfl, rfl, rfl, rfl⟩
    · exact { ih _ with }

variable [DecidableEq W]

/-- A task goes on, and the books change. -/
theorem ThreadEffect.of_ran {w : W} {p u : Task} (hplace : s.tasks w = p) (hbusy : p ≠ .free)
    (hsleeps : u = .blocked → s.stopping = false) (hsame : SameThreads (s.goTo w u) t) :
    ThreadEffect s t := by
  rw [← hplace] at hbusy
  exact (ThreadEffect.ran w u (.inl hbusy) hsleeps).trans (.same hsame)

theorem enter_threads {w : W} (hstep : s.enter L w = some t) : ThreadEffect s t := by
  unfold PoolState.enter at hstep
  split at hstep
  · rename_i htask
    cases hstep
    exact .of_ran htask (by simp) (by split <;> simp) ⟨rfl, rfl, rfl, rfl, rfl⟩
  · rename_i htask
    cases hstep
    exact .of_ran htask (by simp) (by split <;> simp) ⟨rfl, rfl, rfl, rfl, rfl⟩
  · rename_i htask
    dsimp only at hstep
    split at hstep <;> cases hstep <;>
      exact .of_ran htask (by simp) (by simp) ⟨rfl, rfl, rfl, rfl, rfl⟩
  · rename_i htask
    cases hstep
    exact .of_ran htask (by simp) (by simp) ⟨rfl, rfl, rfl, rfl, rfl⟩
  · cases hstep

theorem open_threads {w : W} {conn : Option Conn} (hstep : s.open_ w conn = some t) :
    ThreadEffect s t := by
  unfold PoolState.open_ at hstep
  split at hstep
  · rename_i htask
    split at hstep
    · split at hstep <;> split at hstep <;> cases hstep <;>
        exact .of_ran htask (by simp) (by simp) ⟨rfl, rfl, rfl, rfl, rfl⟩
    · cases hstep
  · cases hstep

theorem take_threads {w : W} {late : Bool} (hstep : s.take w late = some t) :
    ThreadEffect s t := by
  unfold PoolState.take at hstep
  split at hstep
  · rename_i hplace
    have hbusy : s.tasks w ≠ .free := by
      rcases hplace with hplace | hplace <;> rw [hplace] <;> simp
    split at hstep
    · cases hstep
      exact .of_ran rfl hbusy (by simp) ⟨rfl, rfl, rfl, rfl, rfl⟩
    · rename_i hrunning
      split at hstep <;> cases hstep
      · exact .of_ran rfl hbusy (u := .pinging _) (by simp) ⟨rfl, rfl, rfl, rfl, rfl⟩
      · exact .ran _ _ (.inl hbusy) fun _ => Bool.eq_false_iff.mpr hrunning
  · cases hstep

theorem ping_threads {w : W} {ok : Bool} (hstep : s.ping w ok = some t) : ThreadEffect s t := by
  unfold PoolState.ping at hstep
  split at hstep
  · rename_i htask
    split at hstep <;> cases hstep <;>
      exact .of_ran htask (by simp) (by simp) ⟨rfl, rfl, rfl, rfl, rfl⟩
  · cases hstep

theorem release_threads {c : Conn} (hstep : s.release c = some t) : ThreadEffect s t := by
  unfold PoolState.release at hstep
  split at hstep
  · dsimp only at hstep
    split at hstep
    · split at hstep <;> cases hstep
      · exact .same ⟨rfl, rfl, rfl, rfl, rfl⟩
      · exact (ThreadEffect.counted s (s.releasing + 1)).trans (.same ⟨rfl, rfl, rfl, rfl, rfl⟩)
    · cases hstep
      exact .same ⟨rfl, rfl, rfl, rfl, rfl⟩
  · cases hstep

theorem scan_threads {expired : Option (List Conn)} (hstep : s.scan L expired = some t) :
    ThreadEffect s t := by
  unfold PoolState.scan at hstep
  split at hstep
  · rename_i hwoken
    have hscanner : s.scanner ≠ .left := by
      rw [hwoken]
      simp
    split at hstep
    · cases hstep
      exact .scanned _ hscanner
    · split at hstep
      · cases hstep
        exact .scanned _ hscanner
      · split at hstep
        · cases hstep
          split
          · have hreaped := SameThreads.reap L (by assumption) s
            exact (ThreadEffect.same hreaped).trans (.scanned _ (hreaped.scanner ▸ hscanner))
          · exact .scanned _ hscanner
        · cases hstep
  · cases hstep

theorem join_threads [Fintype W] (hstep : s.join = some t) : ThreadEffect s t := by
  unfold PoolState.join at hstep
  split at hstep
  · rename_i hjoining
    split at hstep
    · rename_i hleft
      cases hstep
      exact .joined hjoining hleft
    · cases hstep
  · rename_i hresetting
    split at hstep
    · rename_i hfree
      cases hstep
      exact .reset hresetting hfree
    · cases hstep
  · cases hstep

theorem destroy_threads {late : Bool} (hstep : s.destroy late = some t) : ThreadEffect s t := by
  unfold PoolState.destroy at hstep
  split at hstep
  · rename_i hplace
    have hstaff : s.staffed = false := by
      rw [PoolState.staffed]
      rcases hplace with ⟨hplace, -⟩ | hplace <;> rw [hplace]
    split at hstep <;> cases hstep
    · exact (ThreadEffect.destroyed hstaff (d := .finished) rfl).trans
        (.same ⟨rfl, rfl, rfl, rfl, rfl⟩)
    · exact .destroyed hstaff rfl
  · cases hstep

variable [Fintype W]

/-- A notify wakes a thread, or finds none. -/
theorem notifyOne_threads {waiter : Option (Waiter W)} (hstep : s.notifyOne waiter = some t) :
    ThreadEffect s t := by
  cases waiter with
  | none =>
    simp only [PoolState.notifyOne] at hstep
    split at hstep <;> cases hstep
    exact .same ⟨rfl, rfl, rfl, rfl, rfl⟩
  | some waiter =>
    cases waiter with
    | task w =>
      simp only [PoolState.notifyOne] at hstep
      split at hstep
      · rename_i hblocked
        cases hstep
        exact .ran _ _ (.inl (by rw [hblocked]; simp)) (by simp)
      · cases hstep
    | scanner =>
      simp only [PoolState.notifyOne] at hstep
      split at hstep
      · rename_i hblocked
        cases hstep
        exact .scanned _ (by rw [hblocked]; simp)
      · cases hstep
    | destructor =>
      simp only [PoolState.notifyOne] at hstep
      split at hstep
      · rename_i hblocked
        cases hstep
        exact .destroyed (by rw [PoolState.staffed, hblocked]) rfl
      · cases hstep

theorem notify_threads {w : W} {waiter : Option (Waiter W)}
    (hstep : s.notify w waiter = some t) : ThreadEffect s t := by
  unfold PoolState.notify at hstep
  split at hstep
  · rename_i htask
    exact (ThreadEffect.ran w _ (.inl (by rw [htask]; simp)) (by simp)).trans
      (notifyOne_threads hstep)
  · rename_i htask
    exact (ThreadEffect.ran w _ (.inl (by rw [htask]; simp)) (by simp)).trans
      (notifyOne_threads hstep)
  · cases hstep

/-- Every step has one of the effects. -/
theorem step_threads {a : PoolAction W} (hstep : s.step L a = some t) : ThreadEffect s t := by
  cases a with
  | begin_ w =>
    simp only [PoolState.step] at hstep
    split at hstep
    · rename_i hfree
      cases hstep
      exact .ran _ _ (.inr hfree.2) (by simp)
    · cases hstep
  | enter w => exact enter_threads hstep
  | open_ w conn => exact open_threads hstep
  | openEnd w =>
    simp only [PoolState.step, PoolState.openEnd] at hstep
    split at hstep
    · rename_i htask
      split at hstep <;> cases hstep
      exact .of_ran htask (by simp) (by simp) ⟨rfl, rfl, rfl, rfl, rfl⟩
    · cases hstep
  | take w late => exact take_threads hstep
  | wake w =>
    simp only [PoolState.step, PoolState.wake] at hstep
    split at hstep
    · rename_i hblocked
      cases hstep
      exact .of_ran hblocked (by simp) (by simp) ⟨rfl, rfl, rfl, rfl, rfl⟩
    · cases hstep
  | ping w ok => exact ping_threads hstep
  | delete w =>
    simp only [PoolState.step, PoolState.delete] at hstep
    split at hstep
    · rename_i htask
      cases hstep
      exact .of_ran htask (by simp) (by simp) ⟨rfl, rfl, rfl, rfl, rfl⟩
    · cases hstep
  | notify w waiter => exact notify_threads hstep
  | release c => exact release_threads hstep
  | releaseNotify waiter =>
    simp only [PoolState.step, PoolState.releaseNotify] at hstep
    split at hstep
    · exact (ThreadEffect.counted s (s.releasing - 1)).trans (notifyOne_threads hstep)
    · cases hstep
  | scanWait =>
    simp only [PoolState.step, PoolState.scanWait] at hstep
    split at hstep
    · rename_i hrunning
      cases hstep
      exact .scanned _ (by rw [hrunning]; simp)
    · cases hstep
  | scanWake =>
    simp only [PoolState.step, PoolState.scanWake] at hstep
    split at hstep
    · rename_i hblocked
      cases hstep
      exact .scanned _ (by rw [hblocked]; simp)
    · cases hstep
  | scan expired => exact scan_threads hstep
  | stop =>
    simp only [PoolState.step, PoolState.stop] at hstep
    split at hstep
    · rename_i hplace
      cases hstep
      exact .stopped hplace
    · cases hstep
  | notifyAll =>
    simp only [PoolState.step, PoolState.notifyAll] at hstep
    split at hstep
    · rename_i hplace
      cases hstep
      refine .notifiedAll hplace (fun w => ?_) rfl rfl
      -- whoever slept is awake
      simp only
      split
      · simp
      · assumption
    · cases hstep
  | join => exact join_threads hstep
  | destroy late => exact destroy_threads hstep
  | destructorWake =>
    simp only [PoolState.step, PoolState.destructorWake] at hstep
    split at hstep
    · rename_i hblocked
      cases hstep
      exact .destroyed (by rw [PoolState.staffed, hblocked]) rfl
    · cases hstep

end Effect

/-! ## What follows along the runs -/

section Steps

variable {W : Type} {L : Limits} {s t : PoolState W}

namespace Phases

theorem start (L : Limits) (conns : List Conn) : Phases (PoolState.start (W := W) L conns) where
  flag := by simp [PoolState.start]
  awake hstop := by cases hstop
  scanned hjoined := by cases hjoined
  unstaffed hstaff := by cases hstaff

theorem same (h : Phases s) (hsame : SameThreads s t) : Phases t where
  flag := by
    rw [hsame.stopping, hsame.destructor]
    exact h.flag
  awake := by
    rw [hsame.stopping, hsame.destructor, hsame.tasks]
    exact h.awake
  scanned := by
    rw [hsame.destructor, hsame.scanner]
    exact h.scanned
  unstaffed := by
    rw [hsame.staffed, hsame.tasks]
    exact h.unstaffed

/-- Once the workers are gone, the destructor goes on by itself. -/
theorem destroyed (h : Phases s) (hstaff : s.staffed = false) {d : Destructor}
    (hd : d.hasJoined = true) : Phases { s with destructor := d } := by
  have hold : s.destructor ≠ .notStarted ∧ s.destructor.hasJoined = true := by
    unfold PoolState.staffed at hstaff
    cases hplace : s.destructor with
    | notStarted | stopped | joining | resetting =>
      rw [hplace] at hstaff
      cases hstaff
    | arriving | blocked | woken | finished => exact ⟨by simp, rfl⟩
  have hfree := h.unstaffed hstaff
  refine ⟨iff_of_true (h.flag.mpr hold.1) ?_, fun _ _ w => ?_, fun _ => h.scanned hold.2,
    fun _ => hfree⟩
  · intro hstart
    rw [show d = .notStarted from hstart] at hd
    cases hd
  · rw [show s.tasks w = .free from hfree w]
    simp

variable [DecidableEq W]

/-- A task goes on; it sleeps only before the pool stops. -/
theorem ran (h : Phases s) {w : W} {u : Task} (hbusy : s.tasks w ≠ .free ∨ s.staffed = true)
    (hsleeps : u = .blocked → s.stopping = false) : Phases (s.goTo w u) where
  flag := h.flag
  awake hstop hdestructor v := by
    by_cases hv : v = w
    · rw [hv, s.goTo_self]
      intro hblocked
      have hrunning := hsleeps hblocked
      rw [show s.stopping = true from hstop] at hrunning
      cases hrunning
    · rw [s.goTo_of_ne hv]
      exact h.awake hstop hdestructor v
  scanned := h.scanned
  unstaffed hstaff := by
    have hstaff : s.staffed = false := hstaff
    rcases hbusy with hbusy | hbusy
    · exact absurd (h.unstaffed hstaff w) hbusy
    · rw [hstaff] at hbusy
      cases hbusy

/-- Every effect keeps the phases. -/
theorem effect (h : Phases s) (heffect : ThreadEffect s t) : Phases t := by
  induction heffect with
  | same hsame => exact h.same hsame
  | ran w u hbusy hsleeps => exact h.ran hbusy hsleeps
  | counted s n => exact { h with }
  | scanned place hscanner =>
    -- it has not been joined before
    exact { h with scanned := fun hjoined => absurd (h.scanned hjoined) hscanner }
  | stopped hplace =>
    exact ⟨by simp, fun _ hstopped => absurd rfl hstopped, fun hjoined => (by cases hjoined),
      fun hstaff => (by cases hstaff)⟩
  | notifiedAll hplace hawake hnext hflag =>
    have hstop := hflag.trans (h.flag.mpr (by rw [hplace]; simp))
    refine ⟨iff_of_true hstop (by rw [hnext]; simp), fun _ _ => hawake, fun hjoined => ?_,
      fun hstaff => ?_⟩
    · rw [hnext] at hjoined
      cases hjoined
    · rw [PoolState.staffed, hnext] at hstaff
      cases hstaff
  | joined hplace hleft =>
    have hstop := h.flag.mpr (by rw [hplace]; simp)
    exact ⟨iff_of_true hstop (by simp), fun _ _ => h.awake hstop (by rw [hplace]; simp),
      fun _ => hleft, fun hstaff => (by cases hstaff)⟩
  | @reset s hplace hfree =>
    refine ⟨iff_of_true (h.flag.mpr (by rw [hplace]; simp)) (by simp), fun _ _ w => ?_,
      fun _ => h.scanned (by rw [hplace]; rfl), fun _ => hfree⟩
    rw [show s.tasks w = .free from hfree w]
    simp
  | destroyed hstaff hjoined => exact h.destroyed hstaff hjoined
  | trans _ _ ihfirst ihnext => exact ihnext (ihfirst h)

/-- Every step keeps the phases. -/
theorem step [Fintype W] (h : Phases s) {a : PoolAction W} (hstep : s.step L a = some t) :
    Phases t :=
  h.effect (step_threads hstep)

end Phases

variable [DecidableEq W]

theorem ThreadEffect.stopping (h : ThreadEffect s t) (hstop : s.stopping = true) :
    t.stopping = true := by
  induction h with
  | same hsame => exact hsame.stopping.trans hstop
  | notifiedAll _ _ _ hflag => exact hflag.trans hstop
  | stopped => rfl
  | trans _ _ ihfirst ihnext => exact ihnext (ihfirst hstop)
  | ran | counted | scanned | joined | reset | destroyed => exact hstop

/-- `stopping_` is never reset. -/
theorem stopping_of_step [Fintype W] {a : PoolAction W} (h : s.step L a = some t)
    (hstop : s.stopping = true) : t.stopping = true :=
  (step_threads h).stopping hstop

end Steps

end ServiceInfra.ConnectionPool
