import ServiceInfra.ConnectionPool.Bookkeeping

/-!
# The stages of a connection

The pool from its constructor to the end of its destructor, seen from one connection: it is
opened by a call of `expand`, idle, taken, lent, and so on, until it is deleted. `Stage.Next`
is that life as an automaton. `At` says what the collections of the pool, the tasks and the
guards hold of a connection at each stage. The critical sections of `acquire` leave a
connection where it is or move it along the automaton.

Main results:
- `At.unique`: a connection is at one stage
- `At.enter`, `At.take`, `At.ping`, `At.delete`: what `acquire` does to a connection
-/

namespace ServiceInfra.ConnectionPool

open Library

/-! ## Stages -/

/-- Where a connection is in its life. -/
inductive Stage where
  /-- Not constructed yet, or deleted. -/
  | absent
  /-- Constructed by a call of `expand`, and not published yet. -/
  | opened
  | idle
  /-- Taken by `acquire`, which pings it. -/
  | taken
  /-- In the hands of a guard. -/
  | lent
  /-- Out of the books behind a failed ping, and not deleted yet. -/
  | condemned
  deriving DecidableEq, Repr

/-- The life of a connection. -/
inductive Stage.Next : Stage → Stage → Prop where
  | opens : Next .absent .opened
  | publishes : Next .opened .idle
  | takes : Next .idle .taken
  | lends : Next .taken .lent
  | fails : Next .taken .condemned
  | deletes : Next .condemned .absent
  | returns : Next .lent .idle
  /-- Given back while the pool stops. -/
  | drops : Next .lent .absent
  /-- Idle for too long, or idle when the destructor returns. -/
  | reaps : Next .idle .absent

/-- The connection stays, or takes one step of its life. -/
def Stage.Goes (p q : Stage) : Prop := q = p ∨ p.Next q

/-- How often a connection at `p` is found at `q`. -/
def Stage.one (p q : Stage) : Nat := if p = q then 1 else 0

theorem Stage.eq_of_one {p q : Stage} (h : 0 < p.one q) : p = q := by
  rw [one] at h
  split at h
  · assumption
  · cases h

/-- The connections that a call of `expand` has opened. -/
def Task.fresh : Task → List Conn
  | .opening _ _ _ tem => tem
  | .opened _ tem => tem
  | _ => []

/-- The connection that the task has still to delete. -/
def Task.doomed : Task → List Conn
  | .failed c => [c]
  | _ => []

/-- Two tasks have the same connections in hand. -/
structure Task.SameHands (t u : Task) : Prop where
  fresh : u.fresh = t.fresh
  pinged : u.pinged = t.pinged
  doomed : u.doomed = t.doomed

section Stages

variable {W : Type} [Fintype W]

/-- How often the tasks have the connection in hand. -/
def PoolState.inHands (f : Task → List Conn) (s : PoolState W) (c : Conn) : Nat :=
  ∑ w, (f (s.tasks w)).count c

/-- The connection is at this stage, and at no other. -/
structure At (s : PoolState W) (c : Conn) (p : Stage) : Prop where
  alive : c ∈ s.alive ↔ p ≠ .absent
  opened : s.inHands Task.fresh c = p.one .opened
  idle : s.idle.count c = p.one .idle
  taken : s.inHands Task.pinged c = p.one .taken
  lent : s.lent.count c = p.one .lent
  condemned : s.inHands Task.doomed c = p.one .condemned
  inUse : s.inUse.count c = p.one .taken + p.one .lent
  borrowed : c ∈ s.borrowTime ↔ 0 < s.inUse.count c
  /-- At its end the destructor leaves `return_time_` as it is. -/
  returned : s.destructor ≠ .finished → c ∈ s.returnTime → 0 < s.idle.count c

variable {s t : PoolState W} {c : Conn} {p q : Stage}

/-- A connection is at one stage. -/
theorem At.unique (h : At s c p) (h' : At s c q) : p = q := by
  have hcounts : ∀ r : Stage, r ≠ .absent → p.one r = q.one r := by
    intro r hr
    cases r with
    | absent => exact absurd rfl hr
    | opened => exact h.opened.symm.trans h'.opened
    | idle => exact h.idle.symm.trans h'.idle
    | taken => exact h.taken.symm.trans h'.taken
    | lent => exact h.lent.symm.trans h'.lent
    | condemned => exact h.condemned.symm.trans h'.condemned
  by_cases hp : p = .absent
  · have hnot : ¬ (q ≠ .absent) := fun hq => h.alive.mp (h'.alive.mpr hq) hp
    rw [hp, not_not.mp hnot]
  · refine (Stage.eq_of_one (p := q) (q := p) ?_).symm
    rw [← hcounts p hp, Stage.one, if_pos rfl]
    exact Nat.one_pos

/-- Where the books are the same and each task has the same in hand, so are the stages. -/
theorem At.same (h : At s c p) (halive : t.alive = s.alive) (hidle : t.idle = s.idle)
    (hinUse : t.inUse = s.inUse) (hlent : t.lent = s.lent)
    (hborrow : t.borrowTime = s.borrowTime) (hreturn : t.returnTime = s.returnTime)
    (hfinished : t.destructor ≠ .finished → s.destructor ≠ .finished)
    (hhands : ∀ w, (s.tasks w).SameHands (t.tasks w)) : At t c p where
  alive := by rw [halive, h.alive]
  opened := by
    rw [← h.opened]
    exact Finset.sum_congr rfl fun w _ => by rw [(hhands w).fresh]
  idle := by rw [hidle, h.idle]
  taken := by
    rw [← h.taken]
    exact Finset.sum_congr rfl fun w _ => by rw [(hhands w).pinged]
  lent := by rw [hlent, h.lent]
  condemned := by
    rw [← h.condemned]
    exact Finset.sum_congr rfl fun w _ => by rw [(hhands w).doomed]
  inUse := by rw [hinUse, h.inUse]
  borrowed := by rw [hborrow, hinUse, h.borrowed]
  returned hend := by
    rw [hreturn, hidle]
    exact h.returned (hfinished hend)

end Stages

/-! ## Tasks that go on -/

section Tasks

variable {W : Type} [Fintype W] [DecidableEq W] {s t : PoolState W} {c d : Conn} {p q : Stage}

omit [Fintype W] in
theorem Task.SameHands.goTo {w : W} {u : Task} (h : (s.tasks w).SameHands u) (v : W) :
    (s.tasks v).SameHands ((s.goTo w u).tasks v) := by
  by_cases hv : v = w
  · rw [hv, s.goTo_self]
    exact h
  · rw [s.goTo_of_ne hv]
    exact ⟨rfl, rfl, rfl⟩

/-- A task goes on with the same in hand. -/
theorem At.moved (h : At s c p) {w : W} {u : Task} (hhands : (s.tasks w).SameHands u) :
    At (s.goTo w u) c p :=
  h.same rfl rfl rfl rfl rfl rfl id hhands.goTo

/-- What a task has in hand changes, and with it how often all have. -/
theorem inHands_goTo {s' : PoolState W} (htasks : s'.tasks = s.tasks) (f : Task → List Conn)
    (w : W) (u : Task) {k k' : Nat} (hs : s.inHands f c = k)
    (hk : (f u).count c + k = (f (s.tasks w)).count c + k') :
    (s'.goTo w u).inHands f c = k' := by
  have hothers : others (fun t => (f t).count c) s' w = others (fun t => (f t).count c) s w := by
    rw [others, others, htasks]
  rw [PoolState.inHands, sum_eq_others (fun t => (f t).count c) s w] at hs
  rw [PoolState.inHands, sum_goTo (fun t => (f t).count c), hothers]
  omega

/-- A task goes on, and the connection with it. -/
theorem At.goTo (h : At s c p) {w : W} {u v : Task} (hplace : s.tasks w = v)
    {s' : PoolState W} (htasks : s'.tasks = s.tasks)
    (halive : c ∈ s'.alive ↔ q ≠ .absent)
    (hopened : u.fresh.count c + p.one .opened = v.fresh.count c + q.one .opened)
    (hidle : s'.idle.count c = q.one .idle)
    (htaken : u.pinged.count c + p.one .taken = v.pinged.count c + q.one .taken)
    (hlent : s'.lent.count c = q.one .lent)
    (hcondemned : u.doomed.count c + p.one .condemned = v.doomed.count c + q.one .condemned)
    (hinUse : s'.inUse.count c = q.one .taken + q.one .lent)
    (hborrowed : c ∈ s'.borrowTime ↔ 0 < s'.inUse.count c)
    (hreturned : s'.destructor ≠ .finished → c ∈ s'.returnTime → 0 < s'.idle.count c) :
    At (s'.goTo w u) c q := by
  subst hplace
  exact
    { alive := halive
      opened := inHands_goTo htasks Task.fresh w u h.opened hopened
      idle := hidle
      taken := inHands_goTo htasks Task.pinged w u h.taken htaken
      lent := hlent
      condemned := inHands_goTo htasks Task.doomed w u h.condemned hcondemned
      inUse := hinUse
      borrowed := hborrowed
      returned := hreturned }

/-- What a task has in hand is there. -/
theorem hand_le (f : Task → List Conn) (s : PoolState W) (w : W) (c : Conn) :
    (f (s.tasks w)).count c ≤ s.inHands f c := by
  rw [PoolState.inHands, sum_eq_others (fun t => (f t).count c) s w]
  exact Nat.le_add_left _ _

/-! ## Steps -/

theorem count_singleton_of_ne (h : c ≠ d) : [d].count c = 0 :=
  List.count_eq_zero_of_not_mem fun hmem => h (List.mem_singleton.mp hmem)

/-- A turn of the loop of `expand` opens a connection at a free address. -/
theorem At.open_ (h : At s c p) {w : W} {conn : Option Conn} (hstep : s.open_ w conn = some t) :
    ∃ q, At t c q ∧ p.Goes q := by
  unfold PoolState.open_ at hstep
  split at hstep
  · rename_i need retries i tem htask
    split at hstep
    · split at hstep
      · rename_i d
        split at hstep
        · cases hstep
        · rename_i hnew
          cases hstep
          by_cases hc : c = d
          · subst hc
            obtain rfl : p = .absent := by
              by_contra hp
              exact hnew (h.alive.mpr hp)
            refine ⟨.opened, ?_, .inr .opens⟩
            refine h.goTo htask rfl (by simp) ?_ h.idle rfl h.lent rfl h.inUse h.borrowed h.returned
            simp [Task.fresh, Stage.one]
          · refine ⟨p, ?_, .inl rfl⟩
            refine h.goTo htask rfl ?_ ?_ h.idle rfl h.lent rfl h.inUse h.borrowed h.returned
            · rw [Finset.mem_insert, or_iff_right hc, h.alive]
            · simp only [Task.fresh, List.count_append, count_singleton_of_ne hc, Nat.add_zero]
      · split at hstep
        · cases hstep
          exact ⟨p, h.moved (by rw [htask]; exact ⟨rfl, rfl, rfl⟩), .inl rfl⟩
        · cases hstep
          exact ⟨p, h.moved (by rw [htask]; exact ⟨rfl, rfl, rfl⟩), .inl rfl⟩
    · cases hstep
  · cases hstep

/-- The second critical section of `expand` publishes what was opened. -/
theorem At.publish (h : At s c p) {w : W} {need : UInt64} {tem : List Conn}
    (htask : s.tasks w = .opened need tem) (total : UInt64) :
    ∃ q, At ({ s with total, idle := s.idle ++ tem }.goTo w .expanded) c q ∧ p.Goes q := by
  have hle := hand_le Task.fresh s w c
  rw [htask, h.opened] at hle
  simp only [Task.fresh] at hle
  by_cases hc : tem.count c = 0
  · refine ⟨p, ?_, .inl rfl⟩
    refine h.goTo htask rfl h.alive ?_ ?_ rfl h.lent rfl h.inUse h.borrowed fun hend hreturn => ?_
    · simp only [Task.fresh, List.count_nil, hc]
    · rw [List.count_append, hc, Nat.add_zero, h.idle]
    · rw [List.count_append]
      have hpos := h.returned hend hreturn
      omega
  · -- the connection is one of those
    obtain rfl : p = .opened := Stage.eq_of_one (by omega)
    have hone : tem.count c = 1 := by
      rw [Stage.one, if_pos rfl] at hle
      omega
    refine ⟨.idle, ?_, .inr .publishes⟩
    refine h.goTo htask rfl (by simp [h.alive]) ?_ ?_ rfl h.lent rfl h.inUse h.borrowed
      fun _ _ => ?_
    · simp only [Task.fresh, List.count_nil, hone, Stage.one, reduceCtorEq, if_true, if_false]
    · rw [List.count_append, hone, h.idle]
      rfl
    · rw [List.count_append]
      omega

theorem At.enter (h : At s c p) {L : Limits} {w : W} (hstep : s.enter L w = some t) :
    ∃ q, At t c q ∧ p.Goes q := by
  unfold PoolState.enter at hstep
  split at hstep
  · rename_i htask
    cases hstep
    refine ⟨p, h.moved ?_, .inl rfl⟩
    rw [htask]
    split <;> exact ⟨rfl, rfl, rfl⟩
  · rename_i htask
    cases hstep
    refine ⟨p, h.moved ?_, .inl rfl⟩
    rw [htask]
    split <;> exact ⟨rfl, rfl, rfl⟩
  · rename_i htask
    dsimp only at hstep
    split at hstep
    · cases hstep
      exact ⟨p, h.moved (by rw [htask]; exact ⟨rfl, rfl, rfl⟩), .inl rfl⟩
    · cases hstep
      refine ⟨p, ?_, .inl rfl⟩
      exact h.goTo htask rfl h.alive rfl h.idle rfl h.lent rfl h.inUse h.borrowed h.returned
  · rename_i htask
    cases hstep
    exact h.publish htask _
  · cases hstep

/-- The last idle connection goes into use. -/
theorem At.borrow (h : At s c p) {w : W} {d : Conn} (hlast : s.idle.getLast? = some d)
    (htask : s.tasks w = .arriving ∨ s.tasks w = .woken) :
    ∃ q, At (s.borrow w d) c q ∧ p.Goes q := by
  have hidle : s.idle = s.idle.dropLast ++ [d] := by
    rw [List.dropLast_append_getLast? _ hlast]
  have hcount : s.idle.count c = s.idle.dropLast.count c + [d].count c := by
    rw [← List.count_append, ← hidle]
  have hhands : (s.tasks w).SameHands .free := by
    rcases htask with htask | htask <;> rw [htask] <;> exact ⟨rfl, rfl, rfl⟩
  have hold := h.idle
  by_cases hc : c = d
  · subst hc
    rw [List.count_singleton_self] at hcount
    obtain rfl : p = .idle := Stage.eq_of_one (by omega)
    rw [Stage.one, if_pos rfl] at hold
    refine ⟨.taken, ?_, .inr .takes⟩
    refine h.goTo rfl rfl (by simp [h.alive]) ?_ ?_ ?_ h.lent ?_ ?_ ?_ ?_
    · rw [← hhands.fresh]
      rfl
    · show s.idle.dropLast.count c = 0
      omega
    · rw [← hhands.pinged]
      simp [Task.pinged, Stage.one]
    · rw [← hhands.doomed]
      rfl
    · rw [List.count_append, h.inUse, List.count_singleton_self]
      rfl
    · simp
    · simp
  · have hzero := count_singleton_of_ne hc
    refine ⟨p, ?_, .inl rfl⟩
    refine h.goTo rfl rfl h.alive ?_ ?_ ?_ h.lent ?_ ?_ ?_ ?_
    · rw [← hhands.fresh]
      rfl
    · show s.idle.dropLast.count c = p.one .idle
      omega
    · rw [← hhands.pinged]
      simp only [Task.pinged, hzero, List.count_nil]
    · rw [← hhands.doomed]
      rfl
    · rw [List.count_append, h.inUse, hzero, Nat.add_zero]
    · rw [Finset.mem_insert, or_iff_right hc, h.borrowed, List.count_append, hzero, Nat.add_zero]
    · intro hend hreturn
      have hpos := h.returned hend (Finset.mem_of_mem_erase hreturn)
      show 0 < s.idle.dropLast.count c
      omega

theorem At.take (h : At s c p) {w : W} {late : Bool} (hstep : s.take w late = some t) :
    ∃ q, At t c q ∧ p.Goes q := by
  unfold PoolState.take at hstep
  split at hstep
  · rename_i htask
    have hmoved {u : Task} (hfree : (Task.free).SameHands u) : At (s.goTo w u) c p := by
      refine h.moved ?_
      rcases htask with htask | htask <;> rw [htask] <;> exact ⟨hfree.1, hfree.2, hfree.3⟩
    split at hstep
    · cases hstep
      exact ⟨p, hmoved ⟨rfl, rfl, rfl⟩, .inl rfl⟩
    · split at hstep
      · rename_i d hlast
        cases hstep
        exact h.borrow hlast htask
      · cases hstep
        refine ⟨p, hmoved ?_, .inl rfl⟩
        split <;> exact ⟨rfl, rfl, rfl⟩
  · cases hstep

theorem count_filter_ne (l : List Conn) (c d : Conn) :
    (l.filter (· ≠ d)).count c = if c = d then 0 else l.count c := by
  split
  · rename_i hc
    exact List.count_eq_zero_of_not_mem (by simp [hc])
  · rename_i hc
    exact List.count_filter (by simpa using hc)

/-- A guard gets the connection, or it is taken out of the books. -/
theorem At.ping (h : At s c p) {w : W} {ok : Bool} (hstep : s.ping w ok = some t) :
    ∃ q, At t c q ∧ p.Goes q := by
  unfold PoolState.ping at hstep
  split at hstep
  · rename_i d htask
    have hle := hand_le Task.pinged s w c
    rw [htask, h.taken] at hle
    simp only [Task.pinged] at hle
    by_cases hc : c = d
    · subst hc
      rw [List.count_singleton_self] at hle
      obtain rfl : p = .taken := Stage.eq_of_one (by omega)
      split at hstep
      · cases hstep
        refine ⟨.lent, ?_, .inr .lends⟩
        refine h.goTo htask rfl (by simp [h.alive]) rfl h.idle ?_ ?_ rfl h.inUse h.borrowed
          h.returned
        · simp [Task.pinged, Stage.one]
        · rw [List.count_append, h.lent, List.count_singleton_self]
          rfl
      · cases hstep
        refine ⟨.condemned, ?_, .inr .fails⟩
        refine h.goTo htask rfl (by simp [h.alive]) rfl h.idle ?_ h.lent ?_ ?_ ?_ h.returned
        · simp [Task.pinged, Stage.one]
        · simp [Task.doomed, Stage.one]
        · rw [count_filter_ne, if_pos rfl]
          rfl
        · simp
    · have hzero := count_singleton_of_ne hc
      refine ⟨p, ?_, .inl rfl⟩
      split at hstep
      · cases hstep
        refine h.goTo htask rfl h.alive rfl h.idle ?_ ?_ rfl h.inUse h.borrowed h.returned
        · simp only [Task.pinged, hzero, List.count_nil]
        · rw [List.count_append, hzero, Nat.add_zero, h.lent]
      · cases hstep
        refine h.goTo htask rfl h.alive rfl h.idle ?_ h.lent ?_ ?_ ?_ h.returned
        · simp only [Task.pinged, hzero, List.count_nil]
        · simp only [Task.doomed, hzero, List.count_nil]
        · rw [count_filter_ne, if_neg hc, h.inUse]
        · rw [Finset.mem_erase, and_iff_right hc, count_filter_ne, if_neg hc, h.borrowed]
  · cases hstep

theorem At.delete (h : At s c p) {w : W} (hstep : s.delete w = some t) :
    ∃ q, At t c q ∧ p.Goes q := by
  unfold PoolState.delete at hstep
  split at hstep
  · rename_i d htask
    cases hstep
    have hle := hand_le Task.doomed s w c
    rw [htask, h.condemned] at hle
    simp only [Task.doomed] at hle
    by_cases hc : c = d
    · subst hc
      rw [List.count_singleton_self] at hle
      obtain rfl : p = .condemned := Stage.eq_of_one (by omega)
      refine ⟨.absent, ?_, .inr .deletes⟩
      refine h.goTo htask rfl (by simp) rfl h.idle rfl h.lent ?_ h.inUse h.borrowed h.returned
      simp [Task.doomed, Stage.one]
    · refine ⟨p, ?_, .inl rfl⟩
      refine h.goTo htask rfl ?_ rfl h.idle rfl h.lent ?_ h.inUse h.borrowed h.returned
      · rw [Finset.mem_erase, and_iff_right hc, h.alive]
      · simp only [Task.doomed, count_singleton_of_ne hc, List.count_nil]
  · cases hstep

theorem At.notifyOne (h : At s c p) {waiter : Option (Waiter W)}
    (hstep : s.notifyOne waiter = some t) : At t c p := by
  cases waiter with
  | none =>
    simp only [PoolState.notifyOne] at hstep
    split at hstep
    · cases hstep
      exact h
    · cases hstep
  | some waiter =>
    cases waiter with
    | task w =>
      simp only [PoolState.notifyOne] at hstep
      split at hstep
      · rename_i hblocked
        cases hstep
        exact h.moved (by rw [hblocked]; exact ⟨rfl, rfl, rfl⟩)
      · cases hstep
    | scanner =>
      simp only [PoolState.notifyOne] at hstep
      split at hstep
      · cases hstep
        exact { h with }
      · cases hstep
    | destructor =>
      simp only [PoolState.notifyOne] at hstep
      split at hstep
      · rename_i hblocked
        cases hstep
        exact { h with returned := fun _ => h.returned (by rw [hblocked]; simp) }
      · cases hstep

theorem At.notify (h : At s c p) {w : W} {waiter : Option (Waiter W)}
    (hstep : s.notify w waiter = some t) : At t c p := by
  unfold PoolState.notify at hstep
  split at hstep
  · rename_i htask
    have hmoved : At (s.goTo w .arriving) c p := h.moved (by rw [htask]; exact ⟨rfl, rfl, rfl⟩)
    exact hmoved.notifyOne hstep
  · rename_i htask
    have hmoved : At (s.goTo w .free) c p := h.moved (by rw [htask]; exact ⟨rfl, rfl, rfl⟩)
    exact hmoved.notifyOne hstep
  · cases hstep

end Tasks

end ServiceInfra.ConnectionPool
