import ServiceInfra.ConnectionPool.Stages

/-!
# The life of a connection

What `release`, `scanLoop` and the destructor do to a connection, and with it what every step
of the pool does, before and behind `stopping_`: it leaves a connection where it is or takes
it one step on in its life.

Main results:
- `At.step`: one step of the pool is at most one step of each life
- `connection_lives`: every connection is at exactly one stage, in every reachable state
- `destroyed_keeps_lent`: what is left when the destructor has returned
-/

namespace ServiceInfra.ConnectionPool

open Library

/-! ## Steps -/

section Steps

variable {W : Type} [Fintype W] [DecidableEq W] {s t : PoolState W} {c : Conn} {p q : Stage}

omit [DecidableEq W] in
/-- What a guard gives back is idle again; while the pool stops, it is deleted. -/
theorem At.release (h : At s c p) {d : Conn} (hstep : s.release d = some t) :
    ∃ q, At t c q ∧ p.Goes q := by
  unfold PoolState.release at hstep
  split at hstep
  · rename_i hlent
    by_cases hc : c = d
    · subst hc
      have hcount := List.count_pos_iff.mpr hlent
      rw [h.lent] at hcount
      obtain rfl : p = .lent := Stage.eq_of_one hcount
      have hone : s.lent.count c = 1 := h.lent
      have hborrowed : c ∈ s.borrowTime := h.borrowed.mpr (by rw [h.inUse]; exact Nat.one_pos)
      simp only [hborrowed, if_true] at hstep
      split at hstep
      · cases hstep
        refine ⟨.absent, ?_, .inr .drops⟩
        exact
          { alive := by simp
            opened := h.opened
            idle := h.idle
            taken := h.taken
            lent := by
              show (s.lent.erase c).count c = 0
              rw [List.count_erase_self, hone]
            condemned := h.condemned
            inUse := by
              show (s.inUse.filter (· ≠ c)).count c = 0
              rw [count_filter_ne, if_pos rfl]
            borrowed := by simp
            returned := h.returned }
      · cases hstep
        refine ⟨.idle, ?_, .inr .returns⟩
        exact
          { alive := by simp [h.alive]
            opened := h.opened
            idle := by
              show (s.idle ++ [c]).count c = 1
              rw [List.count_append, h.idle, List.count_singleton_self]
              rfl
            taken := h.taken
            lent := by
              show (s.lent.erase c).count c = 0
              rw [List.count_erase_self, hone]
            condemned := h.condemned
            inUse := by
              show (s.inUse.filter (· ≠ c)).count c = 0
              rw [count_filter_ne, if_pos rfl]
            borrowed := by simp
            returned := fun _ _ => by simp }
    · -- the other connections stay
      refine ⟨p, ?_, .inl rfl⟩
      have hlents : (s.lent.erase d).count c = s.lent.count c := List.count_erase_of_ne hc
      have huse : (s.inUse.filter (· ≠ d)).count c = s.inUse.count c := by
        rw [count_filter_ne, if_neg hc]
      have hborrowed : c ∈ s.borrowTime.erase d ↔ 0 < (s.inUse.filter (· ≠ d)).count c := by
        rw [Finset.mem_erase, and_iff_right hc, huse, h.borrowed]
      dsimp only at hstep
      split at hstep
      · split at hstep
        · cases hstep
          exact
            { h with
              alive := by
                show c ∈ s.alive.erase d ↔ _
                rw [Finset.mem_erase, and_iff_right hc, h.alive]
              lent := hlents.trans h.lent
              inUse := huse.trans h.inUse
              borrowed := hborrowed }
        · cases hstep
          have hidle : (s.idle ++ [d]).count c = s.idle.count c := by
            rw [List.count_append, count_singleton_of_ne hc, Nat.add_zero]
          exact
            { h with
              idle := hidle.trans h.idle
              lent := hlents.trans h.lent
              inUse := huse.trans h.inUse
              borrowed := hborrowed
              returned := fun hend hreturn => by
                have hpos := h.returned hend (Finset.mem_of_mem_insert_of_ne hreturn hc)
                show 0 < (s.idle ++ [d]).count c
                rwa [hidle] }
      · cases hstep
        exact { h with lent := hlents.trans h.lent }
  · cases hstep

omit [DecidableEq W] in
/-- The loop over `return_tem_` deletes idle connections. -/
theorem At.reap (h : At s c p) {L : Limits} {expired : List Conn} (hnodup : expired.Nodup)
    (hrunning : s.destructor ≠ .finished) (hexpired : ∀ d ∈ expired, d ∈ s.returnTime) :
    ∃ q, At (s.reap L expired) c q ∧ (q = p ∨ p = .idle ∧ q = .absent) := by
  induction expired generalizing s p with
  | nil => exact ⟨p, h, .inl rfl⟩
  | cons d expired ih =>
    rw [PoolState.reap]
    split
    · exact ⟨p, h, .inl rfl⟩
    · obtain ⟨hd, hrest⟩ := List.nodup_cons.mp hnodup
      have hnext : ∀ e ∈ expired, e ∈ s.returnTime.erase d := fun e he =>
        Finset.mem_erase.mpr ⟨fun hed => hd (hed ▸ he), hexpired e (List.mem_cons_of_mem _ he)⟩
      by_cases hc : c = d
      · subst hc
        have hpos := h.returned hrunning (hexpired c List.mem_cons_self)
        rw [h.idle] at hpos
        obtain rfl : p = .idle := Stage.eq_of_one hpos
        have hgone : At { s with
            idle := s.idle.filter (· ≠ c)
            returnTime := s.returnTime.erase c
            total := s.total - 1
            alive := s.alive.erase c } c .absent :=
          { alive := by simp
            opened := h.opened
            idle := by
              show (s.idle.filter (· ≠ c)).count c = 0
              rw [count_filter_ne, if_pos rfl]
            taken := h.taken
            lent := h.lent
            condemned := h.condemned
            inUse := h.inUse
            borrowed := h.borrowed
            returned := fun _ hreturn => by simp at hreturn }
        obtain ⟨q, hq, hwhere⟩ := ih hgone hrest hrunning hnext
        rcases hwhere with rfl | ⟨hidle, -⟩
        · exact ⟨.absent, hq, .inr ⟨rfl, rfl⟩⟩
        · cases hidle
      · have hidle : (s.idle.filter (· ≠ d)).count c = s.idle.count c := by
          rw [count_filter_ne, if_neg hc]
        have hstays : At { s with
            idle := s.idle.filter (· ≠ d)
            returnTime := s.returnTime.erase d
            total := s.total - 1
            alive := s.alive.erase d } c p :=
          { h with
            alive := by
              show c ∈ s.alive.erase d ↔ _
              rw [Finset.mem_erase, and_iff_right hc, h.alive]
            idle := hidle.trans h.idle
            returned := fun hend hreturn => by
              have hpos := h.returned hend (Finset.mem_of_mem_erase hreturn)
              show 0 < (s.idle.filter (· ≠ d)).count c
              rwa [hidle] }
        exact ih hstays hrest hrunning hnext

omit [DecidableEq W] in
theorem At.scan (h : At s c p) {L : Limits} {expired : Option (List Conn)}
    (hrunning : s.scanner = .woken → s.destructor ≠ .finished)
    (hstep : s.scan L expired = some t) : ∃ q, At t c q ∧ p.Goes q := by
  unfold PoolState.scan at hstep
  split at hstep
  · rename_i hwoken
    split at hstep
    · cases hstep
      exact ⟨p, { h with }, .inl rfl⟩
    · split at hstep
      · cases hstep
        exact ⟨p, { h with }, .inl rfl⟩
      · split at hstep
        · rename_i hexpired
          cases hstep
          split
          · obtain ⟨q, hq, hwhere⟩ := h.reap (L := L) hexpired.1 (hrunning hwoken) hexpired.2
            refine ⟨q, { hq with }, ?_⟩
            rcases hwhere with rfl | ⟨rfl, rfl⟩
            · exact .inl rfl
            · exact .inr .reaps
          · exact ⟨p, { h with }, .inl rfl⟩
        · cases hstep
  · cases hstep

omit [DecidableEq W] in
/-- The end of the destructor deletes the idle connections. -/
theorem At.destroy (h : At s c p) {late : Bool} (hstep : s.destroy late = some t) :
    ∃ q, At t c q ∧ p.Goes q := by
  unfold PoolState.destroy at hstep
  split at hstep
  · rename_i hplace
    have hrunning : s.destructor ≠ .finished := by
      rcases hplace with ⟨hplace, -⟩ | hplace <;> rw [hplace] <;> simp
    split at hstep
    · cases hstep
      by_cases hidle : p = .idle
      · subst hidle
        have hmem : c ∈ s.idle := List.count_pos_iff.mp (by rw [h.idle]; exact Nat.one_pos)
        refine ⟨.absent, ?_, .inr .reaps⟩
        exact
          { alive := by simp [hmem]
            opened := h.opened
            idle := rfl
            taken := h.taken
            lent := h.lent
            condemned := h.condemned
            inUse := h.inUse
            borrowed := h.borrowed
            returned := fun hend => absurd rfl hend }
      · have hzero : s.idle.count c = 0 := by rw [h.idle, Stage.one, if_neg hidle]
        refine ⟨p, ?_, .inl rfl⟩
        exact
          { h with
            alive := by
              show c ∈ s.alive \ s.idle.toFinset ↔ _
              rw [Finset.mem_sdiff, List.mem_toFinset,
                and_iff_left (List.count_eq_zero.mp hzero), h.alive]
            idle := by
              show ([] : List Conn).count c = _
              rw [List.count_nil, Stage.one, if_neg hidle]
            returned := fun hend => absurd rfl hend }
    · cases hstep
      exact ⟨p, { h with returned := fun _ => h.returned hrunning }, .inl rfl⟩
  · cases hstep

/-- One step of the pool is at most one step of each life. -/
theorem At.step (h : At s c p) (hphases : Phases s) {L : Limits} {a : PoolAction W}
    (hstep : s.step L a = some t) : ∃ q, At t c q ∧ p.Goes q := by
  cases a with
  | begin_ w =>
    simp only [PoolState.step] at hstep
    split at hstep
    · rename_i hfree
      cases hstep
      exact ⟨p, h.moved (by rw [hfree.1]; exact ⟨rfl, rfl, rfl⟩), .inl rfl⟩
    · cases hstep
  | enter w => exact h.enter hstep
  | open_ w conn => exact h.open_ hstep
  | openEnd w =>
    simp only [PoolState.step, PoolState.openEnd] at hstep
    split at hstep
    · rename_i htask
      split at hstep
      · cases hstep
      · cases hstep
        exact ⟨p, h.moved (by rw [htask]; exact ⟨rfl, rfl, rfl⟩), .inl rfl⟩
    · cases hstep
  | take w late => exact h.take hstep
  | wake w =>
    simp only [PoolState.step, PoolState.wake] at hstep
    split at hstep
    · rename_i hblocked
      cases hstep
      exact ⟨p, h.moved (by rw [hblocked]; exact ⟨rfl, rfl, rfl⟩), .inl rfl⟩
    · cases hstep
  | ping w ok => exact h.ping hstep
  | delete w => exact h.delete hstep
  | notify w waiter => exact ⟨p, h.notify hstep, .inl rfl⟩
  | release d => exact h.release hstep
  | releaseNotify waiter =>
    simp only [PoolState.step, PoolState.releaseNotify] at hstep
    split at hstep
    · have hcounted : At { s with releasing := s.releasing - 1 } c p := { h with }
      exact ⟨p, hcounted.notifyOne hstep, .inl rfl⟩
    · cases hstep
  | scanWait =>
    simp only [PoolState.step, PoolState.scanWait] at hstep
    split at hstep
    · cases hstep
      exact ⟨p, { h with }, .inl rfl⟩
    · cases hstep
  | scanWake =>
    simp only [PoolState.step, PoolState.scanWake] at hstep
    split at hstep
    · cases hstep
      exact ⟨p, { h with }, .inl rfl⟩
    · cases hstep
  | scan expired =>
    refine h.scan (fun hwoken hend => ?_) hstep
    have hleft := hphases.scanned (by rw [hend]; rfl)
    cases hwoken.symm.trans hleft
  | stop =>
    simp only [PoolState.step, PoolState.stop] at hstep
    split at hstep
    · rename_i hplace
      cases hstep
      exact ⟨p, { h with returned := fun _ => h.returned (by rw [hplace]; simp) }, .inl rfl⟩
    · cases hstep
  | notifyAll =>
    simp only [PoolState.step, PoolState.notifyAll] at hstep
    split at hstep
    · rename_i hplace
      cases hstep
      refine ⟨p, h.same rfl rfl rfl rfl rfl rfl (fun _ => by rw [hplace]; simp) fun w => ?_,
        .inl rfl⟩
      show (s.tasks w).SameHands (if s.tasks w = .blocked then .woken else s.tasks w)
      split
      · rename_i hblocked
        rw [hblocked]
        exact ⟨rfl, rfl, rfl⟩
      · exact ⟨rfl, rfl, rfl⟩
    · cases hstep
  | join =>
    simp only [PoolState.step, PoolState.join] at hstep
    split at hstep
    · rename_i hplace
      split at hstep
      · cases hstep
        exact ⟨p, { h with returned := fun _ => h.returned (by rw [hplace]; simp) }, .inl rfl⟩
      · cases hstep
    · rename_i hplace
      split at hstep
      · cases hstep
        exact ⟨p, { h with returned := fun _ => h.returned (by rw [hplace]; simp) }, .inl rfl⟩
      · cases hstep
    · cases hstep
  | destroy late => exact h.destroy hstep
  | destructorWake =>
    simp only [PoolState.step, PoolState.destructorWake] at hstep
    split at hstep
    · rename_i hplace
      cases hstep
      exact ⟨p, { h with returned := fun _ => h.returned (by rw [hplace]; simp) }, .inl rfl⟩
    · cases hstep

end Steps

/-! ## Every life -/

section Lives

variable {W : Type} [Fintype W] [DecidableEq W] {L : Limits} {s t : PoolState W} {c : Conn}

omit [DecidableEq W] in
theorem at_start {conns : List Conn} (hnodup : conns.Nodup) (c : Conn) :
    At (PoolState.start (W := W) L conns) c (if c ∈ conns then .idle else .absent) where
  alive := by
    show c ∈ conns.toFinset ↔ _
    split <;> simp_all
  opened := by
    rw [PoolState.inHands, Stage.one, if_neg (by split <;> simp)]
    exact Finset.sum_eq_zero fun _ _ => rfl
  idle := by
    show conns.count c = _
    split
    · rename_i hc
      exact List.count_eq_one_of_mem hnodup hc
    · rename_i hc
      exact List.count_eq_zero_of_not_mem hc
  taken := by
    rw [PoolState.inHands, Stage.one, if_neg (by split <;> simp)]
    exact Finset.sum_eq_zero fun _ _ => rfl
  lent := by
    rw [Stage.one, if_neg (by split <;> simp)]
    rfl
  condemned := by
    rw [PoolState.inHands, Stage.one, if_neg (by split <;> simp)]
    exact Finset.sum_eq_zero fun _ _ => rfl
  inUse := by
    rw [Stage.one, Stage.one, if_neg (by split <;> simp), if_neg (by split <;> simp)]
    rfl
  borrowed := by simp [PoolState.start]
  returned _ hc := by simp [PoolState.start] at hc

theorem at_reachable (h : (pool L).Reachable s) : Phases s ∧ ∀ c, ∃ p, At s c p := by
  refine @TransitionSystem.Reachable.invariant _ _ _
    (fun s => Phases s ∧ ∀ c, ∃ p, At s c p) ?_ ?_ s h
  · rintro _ ⟨conns, hnodup, -, rfl⟩
    exact ⟨.start L conns, fun c => ⟨_, at_start hnodup c⟩⟩
  · rintro s a t ⟨hphases, hat⟩ hstep
    refine ⟨hphases.step hstep, fun c => ?_⟩
    obtain ⟨p, hp⟩ := hat c
    obtain ⟨q, hq, -⟩ := hp.step hphases hstep
    exact ⟨q, hq⟩

/-- From the constructor to the end of the destructor, every connection is at exactly one stage,
and each step of the pool leaves it there or takes it one step on in its life. -/
theorem connection_lives (h : (pool L).Reachable s) (c : Conn) :
    (∃! p, At s c p) ∧
      ∀ a t p, s.step L a = some t → At s c p → ∃ q, At t c q ∧ p.Goes q := by
  obtain ⟨hphases, hat⟩ := at_reachable h
  obtain ⟨p, hp⟩ := hat c
  exact ⟨⟨p, hp, fun q hq => hq.unique hp⟩, fun a t p hstep hp => hp.step hphases hstep⟩

/-- A guard gives its connection back while the pool stops. -/
theorem connection_lives_stopping :
    let L : Limits := ⟨1, 2, by decide⟩
    ∃ s t : PoolState (Fin 1), (pool L).Reachable s ∧ s.stopping = true ∧ s.lent = [100] ∧
      s.step L (.release 100) = some t ∧ t.alive = ∅ ∧
      (∃! p, At s 100 p) ∧ ∀ p, At s 100 p → ∃ q, At t 100 q ∧ p.Goes q := by
  intro L
  let as : List (PoolAction (Fin 1)) :=
    [.begin_ 0, .enter 0, .enter 0, .take 0 false, .ping 0 true, .stop]
  have hstart : (pool L).Reachable (.start L [100] : PoolState (Fin 1)) :=
    .of_init ⟨[100], by decide, rfl, rfl⟩
  have hrun : (as.foldlM (PoolState.step L) (.start L [100])).any (fun s =>
      decide (s.stopping = true ∧ s.lent = [100]) &&
        (s.step L (.release 100)).any fun t => decide (t.alive = ∅)) = true := by
    decide +kernel
  obtain ⟨s, hs, hfacts⟩ := (Option.any_eq_true _ _).mp hrun
  obtain ⟨hfirst, hrest⟩ := Bool.and_eq_true_iff.mp hfacts
  obtain ⟨t, ht, hdeleted⟩ := (Option.any_eq_true _ _).mp hrest
  obtain ⟨hstopping, hlent⟩ := of_decide_eq_true hfirst
  have hreach := hstart.foldlM (fun _ _ _ hstep => hstep) hs
  obtain ⟨hstage, hmoves⟩ := connection_lives hreach 100
  exact ⟨s, t, hreach, hstopping, hlent, ht, of_decide_eq_true hdeleted, hstage,
    fun p => hmoves _ t p ht⟩

omit [DecidableEq W] in
/-- Where no worker has a task, nothing is in hand. -/
theorem inHands_free {f : Task → List Conn} (hf : f .free = []) (h : ∀ w, s.tasks w = .free) :
    s.inHands f c = 0 :=
  Finset.sum_eq_zero fun w _ => by rw [h w, hf, List.count_nil]

/-- When the destructor returns, all connections have been deleted but those that guards still
hold, which it leaves behind only at its timeout. -/
theorem destroyed_keeps_lent (h : (pool L).Reachable s) {late : Bool}
    (hstep : s.step L (.destroy late) = some t) (hend : t.destructor = .finished) :
    (∀ c, c ∈ t.alive ↔ c ∈ t.lent) ∧ (late = false → t.alive = ∅) := by
  have hreach : (pool L).Reachable t := h.step hstep
  obtain ⟨hphases, hat⟩ := at_reachable hreach
  have hfree := hphases.unstaffed (by rw [PoolState.staffed, hend])
  -- the last critical section has left nothing idle
  have hlast : t.idle = [] ∧ (late = false → t.inUse = []) := by
    simp only [PoolState.step, PoolState.destroy] at hstep
    split at hstep
    · split at hstep
      · rename_i hempty
        cases hstep
        exact ⟨rfl, fun hlate => hempty.resolve_right (by simp [hlate])⟩
      · cases hstep
        cases hend
    · cases hstep
  have hstages : ∀ c p, At t c p → p = .absent ∨ p = .lent := by
    intro c p hp
    have hopened := hp.opened
    have htaken := hp.taken
    have hcondemned := hp.condemned
    have hidle := hp.idle
    rw [inHands_free rfl hfree] at hopened htaken hcondemned
    rw [hlast.1, List.count_nil] at hidle
    cases p with
    | absent => exact .inl rfl
    | lent => exact .inr rfl
    | opened => cases hopened
    | idle => cases hidle
    | taken => cases htaken
    | condemned => cases hcondemned
  refine ⟨fun c => ?_, fun hlate => ?_⟩
  · obtain ⟨p, hp⟩ := hat c
    rw [hp.alive, ← List.count_pos_iff, hp.lent]
    rcases hstages c p hp with rfl | rfl
    · simp [Stage.one]
    · simp [Stage.one]
  · refine Finset.eq_empty_of_forall_notMem fun c hc => ?_
    obtain ⟨p, hp⟩ := hat c
    have huse := hp.inUse
    rw [hlast.2 hlate, List.count_nil] at huse
    rcases hstages c p hp with rfl | rfl
    · exact hp.alive.mp hc rfl
    · cases huse

/-- The destructor runs into its timeout, as a guard does not give its connection back. -/
theorem destroyed_keeps_lent_late :
    let L : Limits := ⟨1, 2, by decide⟩
    ∃ s t : PoolState (Fin 1), (pool L).Reachable s ∧ s.step L (.destroy true) = some t ∧
      t.lent = [100] ∧ 100 ∈ t.alive := by
  intro L
  let as : List (PoolAction (Fin 1)) :=
    [.begin_ 0, .enter 0, .enter 0, .take 0 false, .ping 0 true, .stop, .notifyAll, .scanWait,
      .join, .join, .destroy false, .destructorWake]
  have hstart : (pool L).Reachable (.start L [100] : PoolState (Fin 1)) :=
    .of_init ⟨[100], by decide, rfl, rfl⟩
  have hrun : (as.foldlM (PoolState.step L) (.start L [100])).any (fun s =>
      (s.step L (.destroy true)).any fun t =>
        decide (t.destructor = .finished ∧ t.lent = [100])) = true := by
    decide +kernel
  obtain ⟨s, hs, hfacts⟩ := (Option.any_eq_true _ _).mp hrun
  obtain ⟨t, ht, hlast⟩ := (Option.any_eq_true _ _).mp hfacts
  obtain ⟨hend, hlent⟩ := of_decide_eq_true hlast
  have hreach := hstart.foldlM (fun _ _ _ hstep => hstep) hs
  have hleft := (destroyed_keeps_lent hreach ht hend).1 100
  exact ⟨s, t, hreach, ht, hlent, hleft.mpr (by rw [hlent]; simp)⟩

end Lives

end ServiceInfra.ConnectionPool
