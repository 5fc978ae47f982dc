import ServiceInfra.ConnectionPool.Shutdown

/-!
# The books of the pool

Every connection that is alive has one place: it is idle, in use, or in the hands of one
task. Those in use are lent to a guard or about to be pinged, and `total_conn_` counts the
idle ones, those in use and the slots that calls of `expand` have reserved. `Books` says so
by counting, and every step before the pool stops keeps it.

Main results:
- `sum_goTo`: what one task contributes to a sum over all
- `Books.step`: every step keeps the books
- `pool_bookkeeping`: what the books say about the collections and the counter
-/

namespace ServiceInfra.ConnectionPool

open Library

/-! ## Definitions -/

/-- The slots that a call of `expand` in progress has reserved. -/
def Task.reserved : Task → Nat
  | .opening need _ _ _ => need.toNat
  | .opened need _ => need.toNat
  | _ => 0

/-- The connections in the hands of the task alone. -/
def Task.own : Task → List Conn
  | .opening _ _ _ tem => tem
  | .opened _ tem => tem
  | .failed c => [c]
  | _ => []

/-- The connection in use that the task has not handed out yet. -/
def Task.pinged : Task → List Conn
  | .pinging c => [c]
  | _ => []

/-- The loop of `expand` opens no more connections than it has slots for. -/
def Task.Fits : Task → Prop
  | .opening need retries i tem => i + need.toNat = retries + tem.length ∧ i ≤ retries
  | .opened need tem => tem.length ≤ need.toNat
  | _ => True

namespace PoolState

variable {W : Type} [DecidableEq W] [Fintype W]

/-- The slots that all calls of `expand` in progress have reserved. -/
def reserved (s : PoolState W) : Nat := ∑ w, (s.tasks w).reserved

/-- The subtractions of the loop over `return_tem_`, when `total_conn_` is `total`. -/
def reapSubtractions (L : Limits) : List Conn → UInt64 → List (UInt64 × UInt64)
  | [], _ => []
  | _ :: expired, total =>
      if total ≤ L.minConn then [] else (total, 1) :: reapSubtractions L expired (total - 1)

/-- The subtractions on `total_conn_` that a step executes, with their operands. -/
def subtractions (L : Limits) (s : PoolState W) : PoolAction W → List (UInt64 × UInt64)
  | .enter w =>
      match s.tasks w with
      | .expanding => [(L.maxConn, s.total)]
      | .opened need _ => [(s.total, need)]
      | _ => []
  | .ping w false =>
      match s.tasks w with
      | .pinging _ => [(s.total, 1)]
      | _ => []
  | .scan (some expired) => reapSubtractions L expired s.total
  | _ => []

end PoolState

/-- The collections and the counter of the pool agree. -/
structure Bookkept {W : Type} [Fintype W] (L : Limits) (s : PoolState W) : Prop where
  idle_nodup : s.idle.Nodup
  inUse_nodup : s.inUse.Nodup
  disjoint : ∀ c ∈ s.idle, c ∉ s.inUse
  borrow_keys : ∀ c, c ∈ s.borrowTime ↔ c ∈ s.inUse
  return_keys : ∀ c ∈ s.returnTime, c ∈ s.idle
  total_eq : s.total.toNat = s.idle.length + s.inUse.length + s.reserved
  total_le : s.total ≤ L.maxConn
  /-- No connection is deleted while one of these has it. -/
  alive : ∀ c, c ∈ s.idle ∨ c ∈ s.inUse ∨ c ∈ s.lent → c ∈ s.alive
  lent_nodup : s.lent.Nodup

/-- The books: where the connections are, counted. -/
structure Books {W : Type} [Fintype W] (L : Limits) (s : PoolState W) : Prop where
  placed : ∀ c, s.idle.count c + s.inUse.count c + ∑ w, (s.tasks w).own.count c ≤
    if c ∈ s.alive then 1 else 0
  lent_eq : ∀ c, s.inUse.count c = s.lent.count c + ∑ w, (s.tasks w).pinged.count c
  borrow_keys : ∀ c, c ∈ s.borrowTime ↔ c ∈ s.inUse
  return_keys : ∀ c ∈ s.returnTime, c ∈ s.idle
  total_eq : s.total.toNat = s.idle.length + s.inUse.length + s.reserved
  total_le : s.total ≤ L.maxConn
  fits : ∀ w, (s.tasks w).Fits

/-- `list::remove` of an element that occurs once. -/
theorem filter_ne_eq_erase {l : List Conn} (h : l.Nodup) (c : Conn) :
    l.filter (· ≠ c) = l.erase c := by
  rw [h.erase_eq_filter]
  refine List.filter_congr fun d _ => ?_
  rw [Bool.eq_iff_iff, decide_eq_true_iff, bne_iff_ne]

theorem count_eq_erase {l : List Conn} {d : Conn} (h : d ∈ l) (c : Conn) :
    l.count c = [d].count c + (l.erase d).count c := by
  rw [← List.count_append]
  exact (List.perm_cons_erase h).count_eq c

/-! ## Sums over the tasks -/

section Sums

variable {W : Type} [DecidableEq W] [Fintype W]

/-- The part of a sum over the tasks that comes from the others. -/
def others (f : Task → Nat) (s : PoolState W) (w : W) : Nat :=
  ∑ v ∈ Finset.univ.erase w, f (s.tasks v)

theorem sum_eq_others (f : Task → Nat) (s : PoolState W) (w : W) :
    ∑ v, f (s.tasks v) = others f s w + f (s.tasks w) := by
  rw [others, Finset.sum_erase_add _ _ (Finset.mem_univ w)]

/-- A task that goes on changes a sum over all tasks by its own part. -/
theorem sum_goTo (f : Task → Nat) (s : PoolState W) (w : W) (t : Task) :
    ∑ v, f ((s.goTo w t).tasks v) = others f s w + f t := by
  have hother : ∀ v ∈ Finset.univ.erase w, f ((s.goTo w t).tasks v) = f (s.tasks v) := by
    intro v hv
    rw [s.goTo_of_ne (Finset.ne_of_mem_erase hv)]
  rw [sum_eq_others, others, others, Finset.sum_congr rfl hother, s.goTo_self]

end Sums

/-! ## Steps -/

section Steps

variable {W : Type} [Fintype W] {L : Limits} {s t : PoolState W}

namespace Books

theorem idle_nodup (h : Books L s) : s.idle.Nodup := by
  rw [List.nodup_iff_count_le_one]
  intro c
  have hplaced := h.placed c
  split at hplaced <;> omega

theorem inUse_nodup (h : Books L s) : s.inUse.Nodup := by
  rw [List.nodup_iff_count_le_one]
  intro c
  have hplaced := h.placed c
  split at hplaced <;> omega

/-- A connection that a guard gives back is idle again. -/
theorem release (h : Books L s) (hrunning : s.stopping = false) {d : Conn}
    (hstep : s.release d = some t) : Books L t := by
  unfold PoolState.release at hstep
  split at hstep
  · rename_i hlent
    -- a connection that is lent is in use
    have hmem : d ∈ s.inUse := by
      have hcount := List.count_pos_iff.mpr hlent
      have heq := h.lent_eq d
      exact List.count_pos_iff.mp (by omega)
    have hborrowed := (h.borrow_keys d).mpr hmem
    simp only [hborrowed, if_true, hrunning, Bool.false_eq_true, if_false,
      filter_ne_eq_erase h.inUse_nodup] at hstep
    cases hstep
    have hcount := count_eq_erase hmem
    have hcount' := count_eq_erase hlent
    have hpos : 0 < s.inUse.length := List.length_pos_of_mem hmem
    refine ⟨fun c => ?_, fun c => ?_, fun c => ?_, fun c hc => ?_, ?_, h.total_le, h.fits⟩
    · have hold := h.placed c
      have hmoves := hcount c
      simp only [List.count_append]
      omega
    · have hold := h.lent_eq c
      have hmoves := hcount c
      have hmoves' := hcount' c
      simp only
      omega
    · rw [Finset.mem_erase, h.borrow_keys, h.inUse_nodup.mem_erase_iff]
    · rcases Finset.mem_insert.mp hc with rfl | hc
      · exact List.mem_append_right _ (List.mem_singleton.mpr rfl)
      · exact List.mem_append_left _ (h.return_keys c hc)
    · have hold := h.total_eq
      simp only [PoolState.reserved, List.length_append, List.length_singleton,
        List.length_erase_of_mem hmem] at hold ⊢
      omega
  · cases hstep

/-- `scanLoop` deletes connections that have been returned, while there are more than
`min_conn_`. -/
theorem reap (h : Books L s) {expired : List Conn} (hnodup : expired.Nodup)
    (hexpired : ∀ c ∈ expired, c ∈ s.returnTime) : Books L (s.reap L expired) := by
  induction expired generalizing s with
  | nil => exact h
  | cons d expired ih =>
    rw [PoolState.reap]
    split
    · exact h
    · rename_i hmin
      obtain ⟨hnotin, hrest⟩ := List.nodup_cons.mp hnodup
      have hmem : d ∈ s.idle := h.return_keys d (hexpired d List.mem_cons_self)
      have hcount := count_eq_erase hmem
      have hpos : 0 < s.idle.length := List.length_pos_of_mem hmem
      have hsub : (s.total - 1).toNat = s.total.toNat - 1 := by
        refine UInt64.toNat_sub_of_le _ _ (UInt64.le_iff_toNat_le.mpr ?_)
        rw [UInt64.toNat_one, h.total_eq]
        omega
      have hle := UInt64.le_iff_toNat_le.mp h.total_le
      rw [filter_ne_eq_erase h.idle_nodup]
      refine ih ⟨fun c => ?_, h.lent_eq, h.borrow_keys, fun c hc => ?_, ?_, ?_, h.fits⟩ hrest
        fun c hc => ?_
      · have hold := h.placed c
        have hmoves := hcount c
        simp only [Finset.mem_erase]
        by_cases hc : c = d
        · -- the idle copy was the only one
          rw [hc, List.count_singleton_self] at hmoves
          rw [hc] at hold ⊢
          rw [if_neg fun hd => hd.1 rfl]
          split at hold <;> omega
        · simp only [ne_eq, hc, not_false_eq_true, true_and]
          omega
      · obtain ⟨hne, hc⟩ := Finset.mem_erase.mp hc
        exact (List.mem_erase_of_ne hne).mpr (h.return_keys c hc)
      · have hold := h.total_eq
        simp only [PoolState.reserved, List.length_erase_of_mem hmem, hsub] at hold ⊢
        omega
      · simp only [UInt64.le_iff_toNat_le, hsub]
        omega
      · refine Finset.mem_erase.mpr ⟨fun heq => ?_, hexpired c (List.mem_cons_of_mem _ hc)⟩
        rw [heq] at hc
        exact hnotin hc

theorem scan (h : Books L s) {expired : Option (List Conn)} (hstep : s.scan L expired = some t) :
    Books L t := by
  unfold PoolState.scan at hstep
  split at hstep
  · split at hstep
    · cases hstep
      exact { h with }
    · split at hstep
      · cases hstep
        exact { h with }
      · split at hstep
        · rename_i hexpired
          cases hstep
          split
          · exact { h.reap hexpired.1 hexpired.2 with }
          · exact { h with }
        · cases hstep
  · cases hstep

theorem start {conns : List Conn} (hnodup : conns.Nodup)
    (hlength : conns.length = L.minConn.toNat) :
    Books L (PoolState.start (W := W) L conns) where
  placed c := by
    have hcount := List.nodup_iff_count_le_one.mp hnodup c
    simp only [PoolState.start, List.count_nil, Task.own, Finset.sum_const_zero, Nat.add_zero,
      List.mem_toFinset]
    split
    · exact hcount
    · rename_i hc
      rw [List.count_eq_zero_of_not_mem hc]
  lent_eq c := by simp [PoolState.start, Task.pinged]
  borrow_keys c := by simp [PoolState.start]
  return_keys c hc := by simp [PoolState.start] at hc
  total_eq := by simp [PoolState.start, PoolState.reserved, Task.reserved, hlength]
  total_le := L.le
  fits w := trivial

/-- What the books say. -/
theorem bookkept (h : Books L s) : Bookkept L s where
  idle_nodup := h.idle_nodup
  inUse_nodup := h.inUse_nodup
  disjoint c hidle hinUse := by
    have hplaced := h.placed c
    have hpos := List.count_pos_iff.mpr hidle
    have hpos' := List.count_pos_iff.mpr hinUse
    split at hplaced <;> omega
  borrow_keys := h.borrow_keys
  return_keys := h.return_keys
  total_eq := h.total_eq
  total_le := h.total_le
  alive c hc := by
    have hplaced := h.placed c
    have hlent := h.lent_eq c
    have hpos : 0 < s.idle.count c ∨ 0 < s.inUse.count c ∨ 0 < s.lent.count c := by
      simpa only [List.count_pos_iff] using hc
    split at hplaced
    · assumption
    · omega
  lent_nodup := by
    rw [List.nodup_iff_count_le_one]
    intro c
    have hplaced := h.placed c
    have hlent := h.lent_eq c
    split at hplaced <;> omega

variable [DecidableEq W]

/-- A task at `p` goes on, from a state in which the collections have changed with it. In each
condition `n` is what the other tasks contribute. -/
theorem goTo (h : Books L s) {w : W} {p u : Task} (hplace : s.tasks w = p) {s' : PoolState W}
    (htasks : s'.tasks = s.tasks)
    (hplaced : ∀ c n,
      s.idle.count c + s.inUse.count c + (n + p.own.count c) ≤
        (if c ∈ s.alive then 1 else 0) →
      s'.idle.count c + s'.inUse.count c + (n + u.own.count c) ≤ if c ∈ s'.alive then 1 else 0)
    (hlent : ∀ c n,
      s.inUse.count c = s.lent.count c + (n + p.pinged.count c) →
      s'.inUse.count c = s'.lent.count c + (n + u.pinged.count c))
    (hborrow : ∀ c, c ∈ s'.borrowTime ↔ c ∈ s'.inUse)
    (hreturn : ∀ c ∈ s'.returnTime, c ∈ s'.idle)
    (htotal : ∀ n,
      s.total.toNat = s.idle.length + s.inUse.length + (n + p.reserved) →
      s'.total.toNat = s'.idle.length + s'.inUse.length + (n + u.reserved))
    (hle : s'.total ≤ L.maxConn) (hfits : u.Fits) : Books L (s'.goTo w u) := by
  have hothers (f : Task → Nat) : others f s' w = others f s w := by rw [others, others, htasks]
  refine ⟨fun c => ?_, fun c => ?_, hborrow, hreturn, ?_, hle, fun v => ?_⟩
  · have hold := h.placed c
    rw [sum_eq_others (fun t => t.own.count c) s w, hplace] at hold
    rw [sum_goTo (fun t => t.own.count c), hothers]
    exact hplaced c _ hold
  · have hold := h.lent_eq c
    rw [sum_eq_others (fun t => t.pinged.count c) s w, hplace] at hold
    rw [sum_goTo (fun t => t.pinged.count c), hothers]
    exact hlent c _ hold
  · have hold := h.total_eq
    rw [PoolState.reserved, sum_eq_others Task.reserved s w, hplace] at hold
    rw [PoolState.reserved, sum_goTo Task.reserved, hothers]
    exact htotal _ hold
  · by_cases hv : v = w
    · rw [hv, s'.goTo_self]
      exact hfits
    · rw [s'.goTo_of_ne hv, htasks]
      exact h.fits v

/-- A task goes on with the same connections and slots. -/
theorem moved (h : Books L s) {w : W} {p u : Task} (hplace : s.tasks w = p) (hown : u.own = p.own)
    (hpinged : u.pinged = p.pinged) (hreserved : u.reserved = p.reserved) (hfits : u.Fits) :
    Books L (s.goTo w u) := by
  refine h.goTo hplace rfl (fun c n hold => ?_) (fun c n hold => ?_) h.borrow_keys h.return_keys
    (fun n hold => ?_) h.total_le hfits
  · rw [hown]
    exact hold
  · rw [hpinged]
    exact hold
  · rw [hreserved]
    exact hold

theorem notifyOne (h : Books L s) {waiter : Option (Waiter W)}
    (hstep : s.notifyOne waiter = some t) : Books L t := by
  cases waiter with
  | none =>
    simp only [PoolState.notifyOne] at hstep
    split at hstep
    · cases hstep
      exact h
    · cases hstep
  | some waiter =>
    cases waiter with
    | task w =>
      simp only [PoolState.notifyOne] at hstep
      split at hstep
      · rename_i hblocked
        cases hstep
        exact h.moved hblocked rfl rfl rfl trivial
      · cases hstep
    | scanner =>
      simp only [PoolState.notifyOne] at hstep
      split at hstep
      · cases hstep
        exact { h with }
      · cases hstep
    | destructor =>
      simp only [PoolState.notifyOne] at hstep
      split at hstep
      · cases hstep
        exact { h with }
      · cases hstep

/-- The slots of a task are part of the counter. -/
theorem reserved_le (h : Books L s) (w : W) :
    s.idle.length + s.inUse.length + (s.tasks w).reserved ≤ s.total.toNat := by
  rw [h.total_eq, PoolState.reserved, sum_eq_others Task.reserved s w]
  omega

omit [Fintype W] in
theorem min_two_le (n : UInt64) : min 2 n ≤ n := by
  show (if (2 : UInt64) ≤ n then 2 else n) ≤ n
  split
  · assumption
  · exact UInt64.le_refl n

/-- `expand` reserves what it may. -/
theorem reserve (h : Books L s) {w : W} (htask : s.tasks w = .expanding) {need : UInt64}
    (hneed : need ≤ L.maxConn - s.total) :
    Books L ({ s with total := s.total + need }.goTo w (.opening need need.toNat 0 [])) := by
  have hle := h.total_le
  have hmax := L.maxConn.toNat_lt
  rw [UInt64.le_iff_toNat_le, UInt64.toNat_sub_of_le _ _ hle] at hneed
  rw [UInt64.le_iff_toNat_le] at hle
  have hsum : (s.total + need).toNat = s.total.toNat + need.toNat := by
    rw [UInt64.toNat_add, Nat.mod_eq_of_lt (by omega)]
  apply h.goTo htask
  case htasks => rfl
  case hplaced => exact fun _ _ hold => hold
  case hlent => exact fun _ _ hold => hold
  case hborrow => exact h.borrow_keys
  case hreturn => exact h.return_keys
  case htotal =>
    intro n hold
    simp only [Task.reserved] at hold ⊢
    omega
  case hle =>
    rw [UInt64.le_iff_toNat_le, hsum]
    omega
  case hfits => exact ⟨Nat.zero_add _, Nat.zero_le _⟩

/-- `expand` corrects the counter to what it opened. -/
theorem publish (h : Books L s) {w : W} {need : UInt64} {tem : List Conn}
    (htask : s.tasks w = .opened need tem) :
    Books L ({ s with
      total := s.total - need + UInt64.ofNat tem.length
      idle := s.idle ++ tem }.goTo w .expanded) := by
  have hfits : tem.length ≤ need.toNat := by
    have hall := h.fits w
    rw [htask] at hall
    exact hall
  have hneed := h.reserved_le w
  simp only [htask, Task.reserved] at hneed
  have hlt := s.total.toNat_lt
  have hsub : (s.total - need).toNat = s.total.toNat - need.toNat :=
    UInt64.toNat_sub_of_le _ _ (UInt64.le_iff_toNat_le.mpr (by omega))
  have hcount : (UInt64.ofNat tem.length).toNat = tem.length := by
    rw [UInt64.toNat_ofNat', Nat.mod_eq_of_lt (by omega)]
  have htotal : (s.total - need + UInt64.ofNat tem.length).toNat =
      s.total.toNat - need.toNat + tem.length := by
    rw [UInt64.toNat_add, hsub, hcount, Nat.mod_eq_of_lt (by omega)]
  have hle := UInt64.le_iff_toNat_le.mp h.total_le
  apply h.goTo htask
  case htasks => rfl
  case hplaced =>
    intro c n hold
    simp only [Task.own, List.count_append, List.count_nil] at hold ⊢
    omega
  case hlent => exact fun _ _ hold => hold
  case hborrow => exact h.borrow_keys
  case hreturn => exact fun c hc => List.mem_append_left _ (h.return_keys c hc)
  case htotal =>
    intro n hold
    simp only [Task.reserved, List.length_append] at hold ⊢
    omega
  case hle =>
    rw [UInt64.le_iff_toNat_le, htotal]
    omega
  case hfits => trivial

theorem enter (h : Books L s) {w : W} (hstep : s.enter L w = some t) : Books L t := by
  unfold PoolState.enter at hstep
  split at hstep
  · rename_i htask
    cases hstep
    split <;>
      exact h.moved htask rfl rfl rfl trivial
  · rename_i htask
    cases hstep
    split <;>
      exact h.moved htask rfl rfl rfl trivial
  · rename_i htask
    dsimp only at hstep
    split at hstep
    · cases hstep
      exact h.moved htask rfl rfl rfl trivial
    · cases hstep
      exact h.reserve htask (min_two_le _)
  · rename_i htask
    cases hstep
    exact h.publish htask
  · cases hstep

theorem open_ (h : Books L s) {w : W} {conn : Option Conn} (hstep : s.open_ w conn = some t) :
    Books L t := by
  unfold PoolState.open_ at hstep
  split at hstep
  · rename_i need retries i tem htask
    have hfits : i + need.toNat = retries + tem.length ∧ i ≤ retries := by
      have hall := h.fits w
      rw [htask] at hall
      exact hall
    split at hstep
    · split at hstep
      · -- a valid connection at an address that is not in use
        rename_i d
        split at hstep
        · cases hstep
        · rename_i hnew
          cases hstep
          apply h.goTo htask
          case htasks => rfl
          case hplaced =>
            intro c n hold
            simp only [Task.own, List.count_append, Finset.mem_insert] at hold ⊢
            by_cases hc : c = d
            · rw [hc, if_neg hnew] at hold
              rw [hc, if_pos (.inl rfl), List.count_singleton_self]
              omega
            · have hzero : [d].count c = 0 := List.count_eq_zero_of_not_mem (by simpa using hc)
              rw [hzero, Nat.add_zero]
              simpa only [hc, false_or] using hold
          case hlent => exact fun _ _ hold => hold
          case hborrow => exact h.borrow_keys
          case hreturn => exact h.return_keys
          case htotal => exact fun _ hold => hold
          case hle => exact h.total_le
          case hfits =>
            simp only [Task.Fits, List.length_append, List.length_singleton]
            omega
      · split at hstep
        · cases hstep
          have hopened : (Task.opened need tem).Fits := by
            simp only [Task.Fits]
            omega
          exact h.moved htask rfl rfl rfl hopened
        · cases hstep
          have hnext : (Task.opening need (retries + 1) (i + 1) tem).Fits := by
            simp only [Task.Fits]
            omega
          exact h.moved htask rfl rfl rfl hnext
    · cases hstep
  · cases hstep

theorem openEnd (h : Books L s) {w : W} (hstep : s.openEnd w = some t) : Books L t := by
  unfold PoolState.openEnd at hstep
  split at hstep
  · rename_i need retries i tem htask
    split at hstep
    · cases hstep
    · cases hstep
      have hopened : (Task.opened need tem).Fits := by
        have hall := h.fits w
        rw [htask] at hall
        simp only [Task.Fits] at hall ⊢
        omega
      exact h.moved htask rfl rfl rfl hopened
  · cases hstep

/-- The last idle connection goes into use. -/
theorem borrow (h : Books L s) {w : W} {d : Conn} (hlast : s.idle.getLast? = some d)
    (htask : s.tasks w = .arriving ∨ s.tasks w = .woken) : Books L (s.borrow w d) := by
  have hidle : s.idle = s.idle.dropLast ++ [d] := by
    rw [List.dropLast_append_getLast? _ hlast]
  have hown : (s.tasks w).own = [] ∧ (s.tasks w).pinged = [] ∧ (s.tasks w).reserved = 0 := by
    rcases htask with htask | htask <;> rw [htask] <;> exact ⟨rfl, rfl, rfl⟩
  apply h.goTo rfl
  case htasks => rfl
  case hplaced =>
    intro c n hold
    rw [hown.1, hidle, List.count_append] at hold
    simp only [Task.own, List.count_append, List.count_nil] at hold ⊢
    omega
  case hlent =>
    intro c n hold
    rw [hown.2.1, List.count_nil] at hold
    simp only [Task.pinged, List.count_append]
    omega
  case hborrow =>
    intro c
    simp only [Finset.mem_insert, List.mem_append, List.mem_singleton, h.borrow_keys]
    exact or_comm
  case hreturn =>
    intro c hc
    obtain ⟨hne, hc⟩ := Finset.mem_erase.mp hc
    have hmem := h.return_keys c hc
    rw [hidle] at hmem
    exact (List.mem_append.mp hmem).resolve_right fun hd => hne (List.mem_singleton.mp hd)
  case htotal =>
    intro n hold
    have hlength := congrArg List.length hidle
    rw [List.length_append, List.length_singleton] at hlength
    rw [hown.2.2] at hold
    simp only [Task.reserved, List.length_append, List.length_singleton]
    omega
  case hle => exact h.total_le
  case hfits => trivial

theorem take (h : Books L s) {w : W} {late : Bool} (hstep : s.take w late = some t) :
    Books L t := by
  unfold PoolState.take at hstep
  split at hstep
  · rename_i htask
    have hmoved {u : Task} (hown : u.own = []) (hpinged : u.pinged = [])
        (hreserved : u.reserved = 0) (hfits : u.Fits) : Books L (s.goTo w u) := by
      refine h.moved rfl ?_ ?_ ?_ hfits <;> rcases htask with htask | htask <;> rw [htask] <;>
        assumption
    split at hstep
    · cases hstep
      exact hmoved rfl rfl rfl trivial
    · split at hstep
      · rename_i d hlast
        cases hstep
        exact h.borrow hlast htask
      · cases hstep
        split <;> exact hmoved rfl rfl rfl trivial
  · cases hstep

/-- A connection of which the ping fails is taken out of the books. -/
theorem pingFailed (h : Books L s) {w : W} {d : Conn} (htask : s.tasks w = .pinging d) :
    Books L ({ s with
      total := s.total - 1
      inUse := s.inUse.filter (· ≠ d)
      borrowTime := s.borrowTime.erase d }.goTo w (.failed d)) := by
  have hnodup := h.inUse_nodup
  have hlent := h.lent_eq d
  rw [sum_eq_others (fun t => t.pinged.count d) s w, htask] at hlent
  simp only [Task.pinged, List.count_singleton_self] at hlent
  have hmem : d ∈ s.inUse := List.count_pos_iff.mp (by omega)
  have hcount := count_eq_erase hmem
  have hpos : 0 < s.inUse.length := List.length_pos_of_mem hmem
  have htotal := h.reserved_le w
  have hsub : (s.total - 1).toNat = s.total.toNat - 1 :=
    UInt64.toNat_sub_of_le _ _ (UInt64.le_iff_toNat_le.mpr (by rw [UInt64.toNat_one]; omega))
  have hle := UInt64.le_iff_toNat_le.mp h.total_le
  rw [filter_ne_eq_erase hnodup]
  apply h.goTo htask
  case htasks => rfl
  case hplaced =>
    intro c n hold
    have hmoves := hcount c
    simp only [Task.own, List.count_nil] at hold ⊢
    omega
  case hlent =>
    intro c n hold
    have hmoves := hcount c
    simp only [Task.pinged, List.count_nil] at hold ⊢
    omega
  case hborrow =>
    intro c
    rw [Finset.mem_erase, h.borrow_keys, hnodup.mem_erase_iff]
  case hreturn => exact h.return_keys
  case htotal =>
    intro n hold
    simp only [Task.reserved, List.length_erase_of_mem hmem] at hold ⊢
    omega
  case hle =>
    rw [UInt64.le_iff_toNat_le, hsub]
    omega
  case hfits => trivial

theorem ping (h : Books L s) {w : W} {ok : Bool} (hstep : s.ping w ok = some t) : Books L t := by
  unfold PoolState.ping at hstep
  split at hstep
  · rename_i d htask
    split at hstep
    · -- a guard gets the connection
      cases hstep
      apply h.goTo htask
      case htasks => rfl
      case hplaced => exact fun _ _ hold => hold
      case hlent =>
        intro c n hold
        simp only [Task.pinged, List.count_append, List.count_nil] at hold ⊢
        omega
      case hborrow => exact h.borrow_keys
      case hreturn => exact h.return_keys
      case htotal => exact fun _ hold => hold
      case hle => exact h.total_le
      case hfits => trivial
    · cases hstep
      exact h.pingFailed htask
  · cases hstep

theorem delete (h : Books L s) {w : W} (hstep : s.delete w = some t) : Books L t := by
  unfold PoolState.delete at hstep
  split at hstep
  · rename_i d htask
    cases hstep
    apply h.goTo htask
    case htasks => rfl
    case hplaced =>
      intro c n hold
      simp only [Task.own, Finset.mem_erase, List.count_nil] at hold ⊢
      by_cases hc : c = d
      · -- the task had the only copy
        rw [hc, List.count_singleton_self] at hold
        rw [hc, if_neg fun hd => hd.1 rfl]
        split at hold <;> omega
      · have hzero : [d].count c = 0 := List.count_eq_zero_of_not_mem (by simpa using hc)
        rw [hzero] at hold
        simpa only [ne_eq, hc, not_false_eq_true, true_and] using hold
    case hlent => exact fun _ _ hold => hold
    case hborrow => exact h.borrow_keys
    case hreturn => exact h.return_keys
    case htotal => exact fun _ hold => hold
    case hle => exact h.total_le
    case hfits => trivial
  · cases hstep

theorem notify (h : Books L s) {w : W} {waiter : Option (Waiter W)}
    (hstep : s.notify w waiter = some t) : Books L t := by
  unfold PoolState.notify at hstep
  split at hstep
  · rename_i htask
    have hmoved : Books L (s.goTo w .arriving) :=
      h.moved htask rfl rfl rfl trivial
    exact hmoved.notifyOne hstep
  · rename_i htask
    have hmoved : Books L (s.goTo w .free) :=
      h.moved htask rfl rfl rfl trivial
    exact hmoved.notifyOne hstep
  · cases hstep

/-- Before the pool stops every step keeps the books. -/
theorem step (h : Books L s) (hrunning : s.stopping = false)
    (hstart : s.destructor = .notStarted) {a : PoolAction W} (hstep : s.step L a = some t) :
    Books L t := by
  cases a with
  | begin_ w =>
    simp only [PoolState.step] at hstep
    split at hstep
    · rename_i hfree
      cases hstep
      exact h.moved hfree.1 rfl rfl rfl trivial
    · cases hstep
  | enter w => exact h.enter hstep
  | open_ w conn => exact h.open_ hstep
  | openEnd w => exact h.openEnd hstep
  | take w late => exact h.take hstep
  | wake w =>
    simp only [PoolState.step, PoolState.wake] at hstep
    split at hstep
    · rename_i hblocked
      cases hstep
      exact h.moved hblocked rfl rfl rfl trivial
    · cases hstep
  | ping w ok => exact h.ping hstep
  | delete w => exact h.delete hstep
  | notify w waiter => exact h.notify hstep
  | release c => exact h.release hrunning hstep
  | releaseNotify waiter =>
    simp only [PoolState.step, PoolState.releaseNotify] at hstep
    split at hstep
    · exact notifyOne (s := { s with releasing := s.releasing - 1 }) { h with } hstep
    · cases hstep
  | scanWait =>
    simp only [PoolState.step, PoolState.scanWait] at hstep
    split at hstep
    · cases hstep
      exact { h with }
    · cases hstep
  | scanWake =>
    simp only [PoolState.step, PoolState.scanWake] at hstep
    split at hstep
    · cases hstep
      exact { h with }
    · cases hstep
  | scan expired => exact h.scan hstep
  | stop =>
    simp only [PoolState.step, PoolState.stop, if_pos hstart] at hstep
    cases hstep
    exact { h with }
  -- the destructor has not begun
  | notifyAll => simp [PoolState.step, PoolState.notifyAll, hstart] at hstep
  | join => simp [PoolState.step, PoolState.join, hstart] at hstep
  | destroy late => simp [PoolState.step, PoolState.destroy, hstart] at hstep
  | destructorWake => simp [PoolState.step, PoolState.destructorWake, hstart] at hstep

theorem reapSubtractions_le {expired : List Conn} {total : UInt64} :
    ∀ p ∈ PoolState.reapSubtractions L expired total, p.2 ≤ p.1 := by
  induction expired generalizing total with
  | nil => simp [PoolState.reapSubtractions]
  | cons c expired ih =>
    rw [PoolState.reapSubtractions]
    split
    · simp
    · rename_i hmin
      rw [List.forall_mem_cons]
      refine ⟨?_, ih⟩
      have hpos : 1 ≤ total.toNat := by
        rw [UInt64.le_iff_toNat_le] at hmin
        omega
      exact UInt64.le_iff_toNat_le.mpr hpos

/-- No subtraction on the counter goes below zero. -/
theorem subtractions_le (h : Books L s) (a : PoolAction W) :
    ∀ p ∈ s.subtractions L a, p.2 ≤ p.1 := by
  intro p hp
  unfold PoolState.subtractions at hp
  split at hp
  · rename_i w
    split at hp
    · rw [List.mem_singleton.mp hp]
      exact h.total_le
    · rename_i htask
      have hreserved := h.reserved_le w
      rw [htask, Task.reserved] at hreserved
      rw [List.mem_singleton.mp hp, UInt64.le_iff_toNat_le]
      dsimp only
      omega
    · cases hp
  · rename_i w
    split at hp
    · rename_i c htask
      have hlent := h.lent_eq c
      rw [sum_eq_others (fun t => t.pinged.count c) s w, htask, Task.pinged,
        List.count_singleton_self] at hlent
      have hcount : 0 < s.inUse.count c := by omega
      have hpos : 0 < s.inUse.length := List.length_pos_of_mem (List.count_pos_iff.mp hcount)
      rw [List.mem_singleton.mp hp, UInt64.le_iff_toNat_le, UInt64.toNat_one, h.total_eq]
      omega
    · cases hp
  · exact reapSubtractions_le p hp
  · cases hp

end Books

end Steps

/-- In every state that the pool reaches before it stops, with any number of workers: the
collections and the counter agree, and no subtraction on the counter that a step executes
goes below zero. -/
theorem pool_bookkeeping {W : Type} [DecidableEq W] [Fintype W] {L : Limits} {s : PoolState W}
    (h : (pool L).Reachable s) (hrunning : s.stopping = false) :
    Bookkept L s ∧ ∀ a t, s.step L a = some t → ∀ p ∈ s.subtractions L a, p.2 ≤ p.1 := by
  have hinv : Phases s ∧ (s.stopping = false → Books L s) := by
    refine @TransitionSystem.Reachable.invariant _ _ _
      (fun s => Phases s ∧ (s.stopping = false → Books L s)) ?_ ?_ s h
    · rintro _ ⟨conns, hnodup, hlength, rfl⟩
      exact ⟨.start L conns, fun _ => .start hnodup hlength⟩
    · rintro s a t ⟨hphases, hbooks⟩ hstep
      refine ⟨hphases.step hstep, fun ht => ?_⟩
      -- the pool was not stopping before the step either
      have hs : s.stopping = false := by
        by_contra hstop
        rw [stopping_of_step hstep (Bool.not_eq_false _ ▸ hstop)] at ht
        cases ht
      have hstart : s.destructor = .notStarted := by
        by_contra hdestructor
        rw [hphases.flag.mpr hdestructor] at hs
        cases hs
      exact (hbooks hs).step hs hstart hstep
  have hbooks := hinv.2 hrunning
  exact ⟨hbooks.bookkept, fun a _ _ => hbooks.subtractions_le a⟩

/-- A task gets the only connection while another one expands. -/
theorem pool_bookkeeping_two :
    ∃ s : PoolState (Fin 2), s.lent = [100] ∧ s.reserved = 1 ∧ Bookkept ⟨1, 2, by decide⟩ s := by
  let L : Limits := ⟨1, 2, by decide⟩
  let start : PoolState (Fin 2) := .start L [100]
  have hrun : ([.begin_ 0, .enter 0, .enter 0, .take 0 false, .begin_ 1, .ping 0 true, .enter 1,
      .enter 1, .enter 1].foldlM (PoolState.step L) start).any (fun s =>
        s.lent = [100] ∧ s.reserved = 1 ∧ s.stopping = false) = true := by
    decide +kernel
  obtain ⟨s, hlast, hend⟩ := (Option.any_eq_true _ _).mp hrun
  obtain ⟨hlent, hreserved, hrunning⟩ := of_decide_eq_true hend
  have hstart : (pool L).Reachable start := .of_init ⟨[100], by decide, rfl, rfl⟩
  have hreached := hstart.foldlM (fun _ _ _ hstep => hstep) hlast
  exact ⟨s, hlent, hreserved, (pool_bookkeeping hreached hrunning).1⟩

end ServiceInfra.ConnectionPool
