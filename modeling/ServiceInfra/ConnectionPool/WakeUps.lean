import ServiceInfra.ConnectionPool.Shutdown

/-!
# Who wakes the waiters

Tasks that wait for an idle connection, the scanner and the destructor share `cv_`, and a
returned connection is announced to one of them. A waiter for which the announcement was
not meant goes back to sleep and passes nothing on. `Attended` says that a task that sleeps
beside an idle connection, and a destructor that sleeps with nothing in use, still has a
wake-up coming. Three kinds of steps can break it, and `KeepsAttended` is that a step is
none of them.

Main results:
- `PoolState.Attended.step`, `keepsAttended_of_attended`: the condition is what one step needs
- `attended_iff`: the same for whole runs
-/

namespace ServiceInfra.ConnectionPool

open Library

/-! ## Definitions -/

/-- The task is awake again, or has a notify to issue. -/
def Task.isWaking : Task → Bool
  | .woken | .expanded | .deleted => true
  | _ => false

namespace PoolState

variable {W : Type}

/-- Some task sleeps. -/
def HasSleeper (s : PoolState W) : Prop := ∃ w, s.tasks w = .blocked

/-- A wake-up is under way: a notify has still to be issued, or a task is awake again. -/
def WakeUnderWay (s : PoolState W) : Prop :=
  0 < s.releasing ∨ s.destructor = .stopped ∨ ∃ w, (s.tasks w).isWaking = true

/-- No waiter sleeps on a true condition with no wake-up under way. -/
structure Attended (s : PoolState W) : Prop where
  tasks : s.HasSleeper → s.idle ≠ [] → s.WakeUnderWay
  destructor : s.destructor = .blocked → s.inUse = [] → s.WakeUnderWay

variable [DecidableEq W]

/-- The step is none of these: a notify wakes the scanner, or a task that was woken takes a
connection, while a task sleeps beside an idle connection that remains and no other wake-up
is under way; or `release` takes the last connection out of use while the pool is stopping
and the destructor sleeps. -/
def KeepsAttended (s : PoolState W) : PoolAction W → Prop
  | .notify w (some .scanner) =>
      s.HasSleeper → s.idle ≠ [] → (s.goTo w .free).WakeUnderWay
  | .releaseNotify (some .scanner) =>
      s.HasSleeper → s.idle ≠ [] →
        ({ s with releasing := s.releasing - 1 } : PoolState W).WakeUnderWay
  | .take w _ =>
      s.tasks w = .woken → s.HasSleeper → s.idle.dropLast ≠ [] → (s.goTo w .free).WakeUnderWay
  | .release c =>
      s.stopping = true → s.destructor = .blocked → c ∈ s.borrowTime →
        s.inUse.filter (· ≠ c) = [] → s.WakeUnderWay
  | _ => True

end PoolState

/-! ## Sleepers and wake-ups -/

section Waiting

variable {W : Type} {s t : PoolState W}

/-- The destructor sleeps only when all tasks are over. -/
theorem Phases.free_of_blocked (h : Phases s) (hblocked : s.destructor = .blocked) (w : W) :
    s.tasks w = .free :=
  h.unstaffed (by rw [PoolState.staffed, hblocked]) w

/-- Behind the `notify_all` of the destructor no task sleeps. -/
theorem Phases.awake_behind (h : Phases s)
    (hbehind : s.destructor ≠ .notStarted ∧ s.destructor ≠ .stopped) (w : W) :
    s.tasks w ≠ .blocked :=
  h.awake (h.flag.mpr hbehind.1) hbehind.2 w

theorem Phases.awake_of_blocked (h : Phases s) (hblocked : s.destructor = .blocked) (w : W) :
    s.tasks w ≠ .blocked :=
  h.awake_behind (by rw [hblocked]; simp) w

/-- Where no task sleeps, only the destructor has to be attended. -/
theorem attended_of_awake (hawake : ∀ w, s.tasks w ≠ .blocked)
    (hdestructor : s.destructor = .blocked → s.inUse = [] → s.WakeUnderWay) : s.Attended where
  tasks hsleeper := by
    obtain ⟨w, hw⟩ := hsleeper
    exact absurd hw (hawake w)
  destructor := hdestructor

namespace SameThreads

theorem hasSleeper_iff (h : SameThreads s t) : t.HasSleeper ↔ s.HasSleeper := by
  rw [PoolState.HasSleeper, PoolState.HasSleeper, h.tasks]

theorem wakeUnderWay_iff (h : SameThreads s t) : t.WakeUnderWay ↔ s.WakeUnderWay := by
  rw [PoolState.WakeUnderWay, PoolState.WakeUnderWay, h.tasks, h.destructor, h.releasing]

end SameThreads

variable [DecidableEq W] {w : W} {u : Task}

/-- Whether some task sleeps does not depend on one that does not. -/
theorem hasSleeper_goTo (hw : s.tasks w ≠ .blocked) (hu : u ≠ .blocked) :
    (s.goTo w u).HasSleeper ↔ s.HasSleeper := by
  constructor
  · rintro ⟨v, hv⟩
    by_cases hvw : v = w
    · rw [hvw, s.goTo_self] at hv
      exact absurd hv hu
    · rw [s.goTo_of_ne hvw] at hv
      exact ⟨v, hv⟩
  · rintro ⟨v, hv⟩
    have hvw : v ≠ w := fun heq => hw (heq ▸ hv)
    exact ⟨v, by rw [s.goTo_of_ne hvw, hv]⟩

/-- A wake-up stays under way when a task goes on that is not the one on its way. -/
theorem WakeUnderWay.goTo (h : s.WakeUnderWay) (hw : (s.tasks w).isWaking = false) (u : Task) :
    (s.goTo w u).WakeUnderWay := by
  rcases h with hreleasing | hstopped | ⟨v, hv⟩
  · exact .inl hreleasing
  · exact .inr (.inl hstopped)
  · have hvw : v ≠ w := by
      rintro rfl
      rw [hw] at hv
      cases hv
    exact .inr (.inr ⟨v, by rw [s.goTo_of_ne hvw, hv]⟩)

/-- A task that is awake or has a notify to issue is a wake-up under way. -/
theorem wakeUnderWay_of_waking (hu : u.isWaking = true) : (s.goTo w u).WakeUnderWay :=
  .inr (.inr ⟨w, by rw [s.goTo_self, hu]⟩)

/-- It makes no difference where a task is that wakes nobody. -/
theorem wakeUnderWay_goTo_free (hu : u.isWaking = false) :
    (s.goTo w u).WakeUnderWay ↔ (s.goTo w .free).WakeUnderWay := by
  have hmoves {u u' : Task} (hu : u.isWaking = false) (h : (s.goTo w u).WakeUnderWay) :
      (s.goTo w u').WakeUnderWay := by
    rcases h with hreleasing | hstopped | ⟨v, hv⟩
    · exact .inl hreleasing
    · exact .inr (.inl hstopped)
    · have hvw : v ≠ w := by
        rintro rfl
        rw [s.goTo_self, hu] at hv
        cases hv
      exact .inr (.inr ⟨v, by rw [s.goTo_of_ne hvw, ← hv, s.goTo_of_ne hvw]⟩)
  exact ⟨hmoves hu, hmoves rfl⟩

end Waiting

/-! ## Steps -/

section Steps

variable {W : Type} {L : Limits} {s t : PoolState W}

namespace PoolState.Attended

theorem start (L : Limits) (conns : List Conn) :
    (PoolState.start (W := W) L conns).Attended where
  tasks hsleeper := by
    obtain ⟨w, hw⟩ := hsleeper
    cases hw
  destructor hblocked := by cases hblocked

/-- Where fewer connections are idle and all others in use stay so, nobody misses anything. -/
theorem same (h : s.Attended) (hsame : SameThreads s t) (hidle : t.idle ≠ [] → s.idle ≠ [])
    (hinUse : t.inUse = [] → s.inUse = []) : t.Attended := by
  constructor
  · rw [hsame.hasSleeper_iff, hsame.wakeUnderWay_iff]
    exact fun hsleeper hne => h.tasks hsleeper (hidle hne)
  · rw [hsame.destructor, hsame.wakeUnderWay_iff]
    exact fun hblocked hempty => h.destructor hblocked (hinUse hempty)

/-- `release` announces the connection, unless the pool is stopping. -/
theorem release (h : s.Attended) {c : Conn} (hstep : s.release c = some t)
    (hlast : s.stopping = true → s.destructor = .blocked → c ∈ s.borrowTime →
      s.inUse.filter (· ≠ c) = [] → s.WakeUnderWay) : t.Attended := by
  unfold PoolState.release at hstep
  split at hstep
  · dsimp only at hstep
    split at hstep
    · rename_i hborrowed
      split at hstep
      · rename_i hstop
        cases hstep
        exact ⟨h.tasks, fun hblocked hempty => hlast hstop hblocked hborrowed hempty⟩
      · cases hstep
        have hannounced : 0 < s.releasing + 1 := Nat.succ_pos _
        exact ⟨fun _ _ => .inl hannounced, fun _ _ => .inl hannounced⟩
    · cases hstep
      exact h.same ⟨rfl, rfl, rfl, rfl, rfl⟩ id id
  · cases hstep

/-- The scanner goes on. -/
theorem scanned_on (h : s.Attended) (place : Scanner) :
    ({ s with scanner := place } : PoolState W).Attended :=
  ⟨h.tasks, h.destructor⟩

theorem reap (L : Limits) (expired : List Conn) (h : s.Attended) :
    (s.reap L expired).Attended := by
  induction expired generalizing s with
  | nil => exact h
  | cons c expired ih =>
    rw [PoolState.reap]
    split
    · exact h
    · refine ih (h.same ⟨rfl, rfl, rfl, rfl, rfl⟩ (fun hne hnil => ?_) id)
      rw [hnil] at hne
      exact hne rfl

theorem scan (h : s.Attended) {expired : Option (List Conn)}
    (hstep : s.scan L expired = some t) : t.Attended := by
  unfold PoolState.scan at hstep
  split at hstep
  · split at hstep
    · cases hstep
      exact h.scanned_on _
    · split at hstep
      · cases hstep
        exact h.scanned_on _
      · split at hstep
        · cases hstep
          split
          · exact (h.reap L _).scanned_on _
          · exact h.scanned_on _
        · cases hstep
  · cases hstep

end PoolState.Attended

variable [DecidableEq W]

namespace PoolState.Attended

/-- A task that is no wake-up goes on, without leaving more connections idle unannounced. -/
theorem ran (h : s.Attended) (hphases : Phases s) {w : W} {p u : Task} (hplace : s.tasks w = p)
    (hbusy : p ≠ .free ∨ s.staffed = true) (hsleeps : p ≠ .blocked) (hwaking : p.isWaking = false)
    (hu : u ≠ .blocked) (hsame : SameThreads (s.goTo w u) t)
    (hidle : t.idle ≠ [] → s.idle ≠ [] ∨ u.isWaking = true) : t.Attended := by
  rw [← hplace] at hbusy hsleeps hwaking
  constructor
  · intro hsleeper hne
    rw [hsame.hasSleeper_iff, hasSleeper_goTo hsleeps hu] at hsleeper
    rw [hsame.wakeUnderWay_iff]
    rcases hidle hne with hne | hu
    · exact WakeUnderWay.goTo (h.tasks hsleeper hne) hwaking u
    · exact wakeUnderWay_of_waking hu
  · intro hblocked
    rw [hsame.destructor] at hblocked
    have hblocked : s.destructor = .blocked := hblocked
    rcases hbusy with hbusy | hbusy
    · exact absurd (hphases.free_of_blocked hblocked w) hbusy
    · rw [PoolState.staffed, hblocked] at hbusy
      cases hbusy

theorem enter (h : s.Attended) (hphases : Phases s) {w : W} (hstep : s.enter L w = some t) :
    t.Attended := by
  unfold PoolState.enter at hstep
  split at hstep
  · rename_i htask
    cases hstep
    refine h.ran hphases htask (.inl (by simp)) (by simp) rfl ?_ ⟨rfl, rfl, rfl, rfl, rfl⟩ .inl
    split <;> simp
  · rename_i htask
    cases hstep
    refine h.ran hphases htask (.inl (by simp)) (by simp) rfl ?_ ⟨rfl, rfl, rfl, rfl, rfl⟩ .inl
    split <;> simp
  · rename_i htask
    dsimp only at hstep
    split at hstep <;> cases hstep <;>
      exact h.ran hphases htask (.inl (by simp)) (by simp) rfl (by simp)
        ⟨rfl, rfl, rfl, rfl, rfl⟩ .inl
  · rename_i htask
    cases hstep
    -- the new connections are announced by the notify to come
    exact h.ran hphases htask (.inl (by simp)) (by simp) rfl (by simp)
      ⟨rfl, rfl, rfl, rfl, rfl⟩ fun _ => .inr rfl
  · cases hstep

theorem open_ (h : s.Attended) (hphases : Phases s) {w : W} {conn : Option Conn}
    (hstep : s.open_ w conn = some t) : t.Attended := by
  unfold PoolState.open_ at hstep
  split at hstep
  · rename_i htask
    split at hstep
    · split at hstep <;> split at hstep <;> cases hstep <;>
        exact h.ran hphases htask (.inl (by simp)) (by simp) rfl (by simp)
          ⟨rfl, rfl, rfl, rfl, rfl⟩ .inl
    · cases hstep
  · cases hstep

theorem ping (h : s.Attended) (hphases : Phases s) {w : W} {ok : Bool}
    (hstep : s.ping w ok = some t) : t.Attended := by
  unfold PoolState.ping at hstep
  split at hstep
  · rename_i htask
    split at hstep <;> cases hstep <;>
      exact h.ran hphases htask (.inl (by simp)) (by simp) rfl (by simp)
        ⟨rfl, rfl, rfl, rfl, rfl⟩ .inl
  · cases hstep

/-- A task in front of its wait takes a connection, or finds none; one that was woken must
not leave others behind. -/
theorem take (h : s.Attended) (hphases : Phases s) {w : W} {late : Bool}
    (hstep : s.take w late = some t)
    (hwoken : s.tasks w = .woken → s.HasSleeper → s.idle.dropLast ≠ [] →
      (s.goTo w .free).WakeUnderWay) : t.Attended := by
  unfold PoolState.take at hstep
  split at hstep
  · rename_i hplace
    have hbusy : s.tasks w ≠ .free ∧ s.tasks w ≠ .blocked := by
      rcases hplace with hplace | hplace <;> rw [hplace] <;> simp
    have hdestructor : s.destructor ≠ .blocked := fun hblocked =>
      hbusy.1 (hphases.free_of_blocked hblocked w)
    split at hstep
    · -- while the pool is stopping a task sleeps only until the `notify_all`
      rename_i hstop
      cases hstep
      refine ⟨fun hsleeper _ => ?_, fun hblocked => absurd hblocked hdestructor⟩
      obtain ⟨v, hv⟩ := (hasSleeper_goTo hbusy.2 (by simp)).mp hsleeper
      by_cases hstopped : s.destructor = .stopped
      · exact .inr (.inl hstopped)
      · exact absurd hv (hphases.awake hstop hstopped v)
    · split at hstep
      · rename_i c hlast
        cases hstep
        have hsame : SameThreads (s.goTo w (.pinging c)) (s.borrow w c) :=
          ⟨rfl, rfl, rfl, rfl, rfl⟩
        refine ⟨fun hsleeper hne => ?_, fun hblocked => absurd hblocked hdestructor⟩
        rw [hsame.hasSleeper_iff, hasSleeper_goTo hbusy.2 (by simp)] at hsleeper
        rw [hsame.wakeUnderWay_iff]
        rcases hplace with hplace | hplace
        · have hidle : s.idle ≠ [] := by
            rintro hnil
            rw [hnil] at hlast
            cases hlast
          exact WakeUnderWay.goTo (h.tasks hsleeper hidle) (by rw [hplace]; rfl) _
        · exact (wakeUnderWay_goTo_free rfl).mpr (hwoken hplace hsleeper hne)
      · rename_i hnone
        cases hstep
        exact ⟨fun _ hne => absurd (List.getLast?_eq_none_iff.mp hnone) hne,
          fun hblocked => absurd hblocked hdestructor⟩
  · cases hstep

end PoolState.Attended

theorem keepsAttended_take {w : W} {late : Bool} (hstep : s.take w late = some t)
    (h : t.Attended) : s.KeepsAttended (.take w late) := by
  intro hwoken hsleeper hne
  have hasleep : s.tasks w ≠ .blocked := by
    rw [hwoken]
    simp
  simp only [PoolState.take, hwoken, or_true, if_true] at hstep
  split at hstep
  · cases hstep
    refine h.tasks ((hasSleeper_goTo hasleep (by simp)).mpr hsleeper) fun hnil => hne ?_
    rw [show s.idle = [] from hnil]
    rfl
  · split at hstep
    · rename_i c _
      cases hstep
      have hsame : SameThreads (s.goTo w (.pinging c)) (s.borrow w c) :=
        ⟨rfl, rfl, rfl, rfl, rfl⟩
      refine (wakeUnderWay_goTo_free rfl).mp (hsame.wakeUnderWay_iff.mp (h.tasks ?_ hne))
      exact hsame.hasSleeper_iff.mpr ((hasSleeper_goTo hasleep (by simp)).mpr hsleeper)
    · rename_i hnone
      rw [List.getLast?_eq_none_iff.mp hnone] at hne
      exact absurd rfl hne

variable [Fintype W]

/-- A notify leaves no waiter behind, unless it wakes the scanner. -/
theorem attended_notifyOne (h : Phases s) {waiter : Option (Waiter W)}
    (hstep : s.notifyOne waiter = some t)
    (hscanner : waiter = some .scanner → s.HasSleeper → s.idle ≠ [] → s.WakeUnderWay) :
    t.Attended := by
  cases waiter with
  | none =>
    simp only [PoolState.notifyOne] at hstep
    split at hstep
    · rename_i hnone
      cases hstep
      exact attended_of_awake hnone.1 fun hblocked => absurd hblocked hnone.2.2
    · cases hstep
  | some waiter =>
    cases waiter with
    | task w =>
      simp only [PoolState.notifyOne] at hstep
      split at hstep
      · cases hstep
        have hwoken := wakeUnderWay_of_waking (s := s) (w := w) (u := .woken) rfl
        exact ⟨fun _ _ => hwoken, fun _ _ => hwoken⟩
      · cases hstep
    | scanner =>
      simp only [PoolState.notifyOne] at hstep
      split at hstep
      · rename_i hsleeps
        cases hstep
        refine ⟨hscanner rfl, fun hblocked => ?_⟩
        -- the scanner was joined before
        have hleft := h.scanned (by rw [show s.destructor = .blocked from hblocked]; rfl)
        rw [hsleeps] at hleft
        cases hleft
      · cases hstep
    | destructor =>
      simp only [PoolState.notifyOne] at hstep
      split at hstep
      · rename_i hblocked
        cases hstep
        exact attended_of_awake (h.awake_of_blocked hblocked) fun hwoken => by cases hwoken
      · cases hstep

/-- A task issues its notify. -/
theorem attended_notified (hphases : Phases s) {w : W} {p u : Task}
    (hplace : s.tasks w = p) (hbusy : p ≠ .free) (hsleeps : p ≠ .blocked ∧ u ≠ .blocked)
    (hwaking : u.isWaking = false) {waiter : Option (Waiter W)}
    (hstep : (s.goTo w u).notifyOne waiter = some t)
    (hkeeps : s.KeepsAttended (.notify w waiter)) : t.Attended := by
  rw [← hplace] at hbusy hsleeps
  refine attended_notifyOne (hphases.ran (.inl hbusy) fun hblocked => absurd hblocked hsleeps.2)
    hstep fun hscanner hsleeper hne => ?_
  rw [hscanner] at hkeeps
  exact (wakeUnderWay_goTo_free hwaking).mpr
    (hkeeps ((hasSleeper_goTo hsleeps.1 hsleeps.2).mp hsleeper) hne)

/-- Under the condition a step leaves every waiter attended. -/
theorem PoolState.Attended.step (h : s.Attended) (hphases : Phases s) {a : PoolAction W}
    (hstep : s.step L a = some t) (hkeeps : s.KeepsAttended a) : t.Attended := by
  cases a with
  | begin_ w =>
    simp only [PoolState.step] at hstep
    split at hstep
    · rename_i hfree
      cases hstep
      exact h.ran hphases hfree.1 (.inr hfree.2) (by simp) rfl (by simp)
        ⟨rfl, rfl, rfl, rfl, rfl⟩ .inl
    · cases hstep
  | enter w => exact h.enter hphases hstep
  | open_ w conn => exact h.open_ hphases hstep
  | openEnd w =>
    simp only [PoolState.step, PoolState.openEnd] at hstep
    split at hstep
    · rename_i htask
      split at hstep <;> cases hstep
      exact h.ran hphases htask (.inl (by simp)) (by simp) rfl (by simp)
        ⟨rfl, rfl, rfl, rfl, rfl⟩ .inl
    · cases hstep
  | take w late => exact h.take hphases hstep hkeeps
  | wake w =>
    simp only [PoolState.step, PoolState.wake] at hstep
    split at hstep
    · cases hstep
      have hwoken := wakeUnderWay_of_waking (s := s) (w := w) (u := .woken) rfl
      exact ⟨fun _ _ => hwoken, fun _ _ => hwoken⟩
    · cases hstep
  | ping w ok => exact h.ping hphases hstep
  | delete w =>
    simp only [PoolState.step, PoolState.delete] at hstep
    split at hstep
    · rename_i htask
      cases hstep
      exact h.ran hphases htask (.inl (by simp)) (by simp) rfl (by simp)
        ⟨rfl, rfl, rfl, rfl, rfl⟩ .inl
    · cases hstep
  | notify w waiter =>
    simp only [PoolState.step, PoolState.notify] at hstep
    split at hstep
    · rename_i htask
      exact attended_notified hphases htask (by simp) (by simp) rfl hstep hkeeps
    · rename_i htask
      exact attended_notified hphases htask (by simp) (by simp) rfl hstep hkeeps
    · cases hstep
  | release c => exact h.release hstep hkeeps
  | releaseNotify waiter =>
    simp only [PoolState.step, PoolState.releaseNotify] at hstep
    split at hstep
    · have hcounted : Phases ({ s with releasing := s.releasing - 1 } : PoolState W) :=
        { hphases with }
      refine attended_notifyOne hcounted hstep fun hscanner => ?_
      rw [hscanner] at hkeeps
      exact hkeeps
    · cases hstep
  | scanWait =>
    simp only [PoolState.step, PoolState.scanWait] at hstep
    split at hstep <;> cases hstep
    exact h.scanned_on _
  | scanWake =>
    simp only [PoolState.step, PoolState.scanWake] at hstep
    split at hstep <;> cases hstep
    exact h.scanned_on _
  | scan expired => exact h.scan hstep
  | stop =>
    simp only [PoolState.step, PoolState.stop] at hstep
    split at hstep <;> cases hstep
    exact ⟨fun _ _ => .inr (.inl rfl), fun hblocked => by cases hblocked⟩
  | notifyAll =>
    simp only [PoolState.step, PoolState.notifyAll] at hstep
    split at hstep
    · cases hstep
      refine attended_of_awake (fun w => ?_) fun hblocked => by cases hblocked
      simp only
      split
      · simp
      · assumption
    · cases hstep
  | join =>
    simp only [PoolState.step, PoolState.join] at hstep
    split at hstep
    · rename_i hjoining
      split at hstep <;> cases hstep
      exact attended_of_awake (hphases.awake_behind (by rw [hjoining]; simp))
        fun hblocked => by cases hblocked
    · rename_i hresetting
      split at hstep <;> cases hstep
      exact attended_of_awake (hphases.awake_behind (by rw [hresetting]; simp))
        fun hblocked => by cases hblocked
    · cases hstep
  | destroy late =>
    simp only [PoolState.step, PoolState.destroy] at hstep
    split at hstep
    · rename_i hplace
      have hbehind : s.destructor ≠ .notStarted ∧ s.destructor ≠ .stopped := by
        rcases hplace with ⟨hplace, -⟩ | hplace <;> rw [hplace] <;> simp
      have hawake := hphases.awake_behind hbehind
      split at hstep
      · cases hstep
        exact attended_of_awake hawake fun hblocked => by cases hblocked
      · rename_i huse
        cases hstep
        exact attended_of_awake hawake fun _ hempty => absurd (.inl hempty) huse
    · cases hstep
  | destructorWake =>
    simp only [PoolState.step, PoolState.destructorWake] at hstep
    split at hstep
    · rename_i hblocked
      cases hstep
      exact attended_of_awake (hphases.awake_of_blocked hblocked) fun hwoken => by cases hwoken
    · cases hstep

/-- A notify that wakes the scanner attends nobody: another wake-up has to. -/
theorem wakeUnderWay_of_notifyOne (hstep : s.notifyOne (some .scanner) = some t)
    (h : t.Attended) (hsleeper : s.HasSleeper) (hne : s.idle ≠ []) : s.WakeUnderWay := by
  simp only [PoolState.notifyOne] at hstep
  split at hstep <;> cases hstep
  exact h.tasks hsleeper hne

theorem keepsAttended_notify {w : W} {p u : Task} (hplace : s.tasks w = p)
    (hsleeps : p ≠ .blocked ∧ u ≠ .blocked) (hwaking : u.isWaking = false)
    {waiter : Option (Waiter W)} (hstep : (s.goTo w u).notifyOne waiter = some t)
    (h : t.Attended) : s.KeepsAttended (.notify w waiter) := by
  rw [← hplace] at hsleeps
  match waiter with
  | some .scanner =>
    intro hsleeper hne
    exact (wakeUnderWay_goTo_free hwaking).mp (wakeUnderWay_of_notifyOne hstep h
      ((hasSleeper_goTo hsleeps.1 hsleeps.2).mpr hsleeper) hne)
  | none | some (.task _) | some .destructor => trivial

theorem keepsAttended_releaseNotify {waiter : Option (Waiter W)}
    (hstep : ({ s with releasing := s.releasing - 1 } : PoolState W).notifyOne waiter = some t)
    (h : t.Attended) : s.KeepsAttended (.releaseNotify waiter) := by
  match waiter with
  | some .scanner => exact wakeUnderWay_of_notifyOne hstep h
  | none | some (.task _) | some .destructor => trivial

/-- A step that leaves every waiter attended meets the condition. -/
theorem keepsAttended_of_attended {a : PoolAction W} (hstep : s.step L a = some t)
    (h : t.Attended) : s.KeepsAttended a := by
  cases a with
  | notify w waiter =>
    simp only [PoolState.step, PoolState.notify] at hstep
    split at hstep
    · rename_i htask
      exact keepsAttended_notify htask (by simp) rfl hstep h
    · rename_i htask
      exact keepsAttended_notify htask (by simp) rfl hstep h
    · cases hstep
  | releaseNotify waiter =>
    simp only [PoolState.step, PoolState.releaseNotify] at hstep
    split at hstep
    · exact keepsAttended_releaseNotify hstep h
    · cases hstep
  | take w late => exact keepsAttended_take hstep h
  | release c =>
    intro hstop hblocked hborrowed hempty
    simp only [PoolState.step, PoolState.release, hborrowed, hstop, if_true] at hstep
    split at hstep <;> cases hstep
    exact h.destructor hblocked hempty
  | _ => trivial

end Steps

/-! ## Runs -/

/-- However the threads are scheduled, which waiters are notified, and how connections behave:
a run leaves no waiter on a true condition without a wake-up exactly when none of its steps
is of the three kinds. -/
theorem attended_iff {W : Type} [DecidableEq W] [Fintype W] (L : Limits) (conns : List Conn)
    (as : List (PoolAction W)) :
    Always (PoolState.step L) PoolState.Attended (PoolState.start L conns) as ↔
      Guarded (PoolState.step L) PoolState.KeepsAttended (PoolState.start L conns) as := by
  refine always_iff_guarded_of_inv
    (fun s (hs : Phases s ∧ s.Attended) => hs.2) ?_ ⟨.start L conns, .start L conns⟩
  rintro s a t ⟨hphases, hattended⟩ hstep
  exact ⟨keepsAttended_of_attended hstep,
    fun hkeeps => ⟨hphases.step hstep, hattended.step hphases hstep hkeeps⟩⟩

/-- A pool of one connection. -/
def oneConn : Limits := ⟨1, 1, by decide⟩

/-- The only connection is lent out, the other task and the scanner sleep, and the notify of
`release` wakes the scanner. -/
def scannerWokenRun : List (PoolAction (Fin 2)) :=
  [.begin_ 0, .enter 0, .enter 0, .take 0 false, .ping 0 true,
    .begin_ 1, .enter 1, .enter 1, .take 1 false, .scanWait,
    .release 100, .releaseNotify (some .scanner), .scan none]

/-- The task sleeps on, beside the idle connection, and so does the scanner. -/
theorem scannerWokenRun_strands :
    ¬ Always (PoolState.step oneConn) PoolState.Attended
        (PoolState.start oneConn [100]) scannerWokenRun ∧
      ∃ s, scannerWokenRun.foldlM (PoolState.step oneConn)
          (PoolState.start oneConn [100]) = some s ∧
        s.idle = [100] ∧ s.tasks 0 = .free ∧ s.tasks 1 = .blocked ∧ s.scanner = .blocked := by
  have hrun : (scannerWokenRun.foldlM (PoolState.step oneConn)
      (PoolState.start oneConn [100])).any (fun s =>
        (s.idle = [100] ∧ s.tasks 0 = .free ∧ s.tasks 1 = .blocked ∧ s.scanner = .blocked) ∧
          s.releasing = 0 ∧ s.destructor = .notStarted) = true := by
    decide +kernel
  obtain ⟨s, hlast, hend⟩ := (Option.any_eq_true _ _).mp hrun
  obtain ⟨hplaces, hreleasing, hdestructor⟩ := of_decide_eq_true hend
  refine ⟨fun h => ?_, s, hlast, hplaces⟩
  obtain ⟨hidle, hfree, hblocked, -⟩ := hplaces
  rcases (h.last hlast).tasks ⟨1, hblocked⟩ (by rw [hidle]; simp) with hpos | hstopped | ⟨w, hw⟩
  · rw [hreleasing] at hpos
    cases hpos
  · rw [hdestructor] at hstopped
    cases hstopped
  · match w with
    | 0 =>
      rw [hfree] at hw
      cases hw
    | 1 =>
      rw [hblocked] at hw
      cases hw

end ServiceInfra.ConnectionPool
