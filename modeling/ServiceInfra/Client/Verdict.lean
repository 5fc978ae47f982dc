import ServiceInfra.Client.Ledger

/-!
# What the verdict says

The counters of the client add up over its connections, open or closed, and a connection
that was closed without an error had all its messages answered. So `PASS` says of every
connection that all messages were sent and that exactly these came back.

Main results:
- `benchEffect_of_step`: what one step does to the connections
- `Inv.step`, `inv_reachable`: the books along every run
- `verdict_eq`: the test of `received` adds nothing to the others
- `pass_sound`: what `PASS` says
-/

namespace ServiceInfra.Client

open Library
open Net

/-! ## The invariant -/

/-- A connection that is closed without an error: all messages are answered. -/
structure Finished (A : Args) (c : Conn) : Prop where
  fine : c.dec.error = false
  all_done : A.perConn ≤ c.doneCnt
  inflight_eq : c.inflight = 0
  outbuf_eq : c.outbuf = []

/-- One for a connection that is open. -/
def openCount : Option Conn → Nat
  | some _ => 1
  | none => 0

/-- The books of a connection, open or closed. -/
def Slot (A : Args) (errors : Nat) (h : Traffic) (accepted rejected : List (List UInt8)) :
    Option Conn → Prop
  | some c => Held A h accepted rejected c
  | none => errors = 0 → ∃ c, Held A h accepted rejected c ∧ Finished A c

/-- The books of all connections, and the counters, which add them up. -/
structure Inv {W : Type} [Fintype W] (A : Args) (s : Bench W)
    (accepted rejected : W → List (List UInt8)) : Prop where
  slots : ∀ w, Slot A s.errors (s.traffic w) (accepted w) (rejected w) (s.cs w)
  /-- A connection of which the stream is broken is about to be closed. -/
  fine : ∀ w c, s.cs w = some c → c.dec.error = true → s.control = .ending w true
  tally : s.tally =
    ⟨total List.length accepted, total List.length rejected, total (bad A) accepted⟩
  alive : s.alive = total openCount s.cs
  exited : ∀ ok, s.control = .exited ok → ok = s.verdict A

theorem Slot.mono {A : Args} {errors errors' : Nat} {h : Traffic}
    {accepted rejected : List (List UInt8)} {oc : Option Conn}
    (hslot : Slot A errors h accepted rejected oc) (hle : errors' = 0 → errors = 0) :
    Slot A errors' h accepted rejected oc := by
  cases oc with
  | some c => exact hslot
  | none => exact fun hzero => hslot (hle hzero)

section Books

variable {W : Type} [Fintype W] {A : Args} {s : Bench W}
  {accepted rejected : W → List (List UInt8)}

theorem Inv.quiet (h : Inv A s accepted rejected) {control : Control W}
    (hquiet : ∀ w, s.control ≠ .ending w true)
    (hexited : ∀ ok, control = .exited ok → ok = s.verdict A) :
    Inv A { s with control } accepted rejected where
  slots := h.slots
  fine w c hc herr := absurd (h.fine w c hc herr) (hquiet w)
  tally := h.tally
  alive := h.alive
  exited := hexited

theorem Inv.held (h : Inv A s accepted rejected) {w : W} {c : Conn} (hc : s.cs w = some c) :
    Held A (s.traffic w) (accepted w) (rejected w) c := by
  have hslot := h.slots w
  rwa [hc] at hslot

/-- Where all connections are closed, and none for an error, each has been finished. -/
theorem Inv.finished (h : Inv A s accepted rejected) (herrors : s.errors = 0)
    (halive : s.alive = 0) (w : W) :
    ∃ c, Held A (s.traffic w) (accepted w) (rejected w) c ∧ Finished A c := by
  have hclosed := eq_zero_of_total (h.alive.symm.trans halive) w
  have hslot := h.slots w
  cases hc : s.cs w with
  | some c =>
    rw [hc] at hclosed
    cases hclosed
  | none =>
    rw [hc] at hslot
    exact hslot herrors

/-- All messages of a finished connection were sent, and all were answered. -/
theorem Held.nextId_eq {h : Traffic} {acc rej : List (List UInt8)} {c : Conn}
    (hheld : Held A h acc rej c) (hfinished : Finished A c) :
    c.nextId = A.perConn ∧ acc.length = A.perConn := by
  have hbalance := hheld.ledger.balance
  have hle := hheld.ledger.next_le
  have hdone := hheld.ledger.done_eq
  have hall := hfinished.all_done
  rw [hfinished.inflight_eq] at hbalance
  omega

/-- The test of `received` adds nothing to the others. -/
theorem Inv.received_eq (h : Inv A s accepted rejected) (herrors : s.errors = 0)
    (halive : s.alive = 0) : s.tally.received = Bench.expected W A := by
  rw [h.tally, Bench.expected]
  refine total_of_const fun w => ?_
  obtain ⟨c, hheld, hfinished⟩ := h.finished herrors halive w
  exact (hheld.nextId_eq hfinished).2

theorem Inv.connected (A : Args) (order : List W) :
    Inv A (Bench.connected order) (fun _ => []) (fun _ => []) where
  slots _ := ⟨.fresh, rfl, [], .fresh, .refl _⟩
  fine _ _ hc herr := by
    cases hc
    cases herr
  tally := by
    have hnone : ∀ {weight : List (List UInt8) → Nat}, weight [] = 0 →
        total weight (fun _ : W => []) = 0 := fun h => total_of_zero fun _ => h
    have hbad : total (bad A) (fun _ : W => []) = 0 := hnone (by simp [bad])
    have hlength : total List.length (fun _ : W => ([] : List (List UInt8))) = 0 := hnone rfl
    rw [hbad, hlength]
    rfl
  alive := by
    have hall : total openCount (Bench.connected order).cs = Fintype.card W * 1 :=
      total_of_const fun _ => rfl
    rw [hall, mul_one]
    rfl
  exited := nofun

end Books

/-! ## Steps -/

section Steps

variable {W : Type} [DecidableEq W] [Fintype W] {A : Args} {s t : Bench W}

/-- What a step does to the connections. -/
inductive BenchEffect (A : Args) (s : Bench W) : Bench W → Prop where
  | quiet {control : Control W} : (∀ w, s.control ≠ .ending w true) →
      (∀ ok, control = .exited ok → ok = s.verdict A) → BenchEffect A s { s with control }
  /-- Bytes are sent, or put into the buffer. -/
  | wrote {w : W} {c c' : Conn} {taken : List UInt8} {control : Control W} :
      s.cs w = some c → (∀ v, s.control ≠ .ending v true) →
      (∀ ok, control = .exited ok → ok = false) → c'.dec = c.dec →
      (∀ {h accepted rejected}, Held A h accepted rejected c →
        Held A { h with sent := h.sent ++ taken } accepted rejected c') →
      BenchEffect A s ({ s with control }.put w (some c') taken [])
  /-- A turn of the loop over `recv`. -/
  | read {w : W} {c : Conn} {o : RecvOutcome} {control : Control W} :
      s.cs w = some c → s.control = .receiving w → (∀ ok, control ≠ .exited ok) →
      ((c.onRecv A s.tally o).2.2 = .leave true → control = .ending w true) →
      BenchEffect A s
        ({ s with control, tally := (c.onRecv A s.tally o).2.1 }.put w
          (some (c.onRecv A s.tally o).1) [] o.bytes)
  | failed {w : W} {c : Conn} : s.cs w = some c → s.control = .ending w true →
      BenchEffect A s ({ s with
        control := .waiting, errors := s.errors + 1, alive := s.alive - 1 }.put w none [] [])
  | through {w : W} {c : Conn} : s.cs w = some c → s.control = .ending w false →
      A.perConn ≤ c.doneCnt → c.inflight = 0 → c.outbuf = [] →
      BenchEffect A s ({ s with control := .waiting, alive := s.alive - 1 }.put w none [] [])

theorem flush_dec {c c' : Conn} {script : List SendOutcome} {taken : List UInt8} {ok : Bool}
    (hcall : c.flush script = some (c', taken, ok)) : c'.dec = c.dec := by
  obtain ⟨⟨evCur, hsame⟩, -⟩ := flush_spec hcall
  rw [hsame]

theorem pumpSend_dec {c c' : Conn} {script : List SendOutcome} {taken : List UInt8} {ok : Bool}
    (hcall : c.pumpSend A script = some (c', taken, ok)) : c'.dec = c.dec :=
  (flush_dec hcall).trans (pumpLoop_dec _ c)

theorem benchEffect_of_step {a : BenchAction W} (h : s.step A a = some t) :
    BenchEffect A s t := by
  cases a with
  | start script =>
    simp only [Bench.step, Bench.start] at h
    split at h
    · rename_i w rest hcontrol
      obtain ⟨c, hc, h⟩ := Option.bind_eq_some_iff.mp h
      obtain ⟨⟨c', taken, ok⟩, hcall, rfl⟩ := Option.map_eq_some_iff.mp h
      refine .wrote hc (by simp [hcontrol]) ?_ (pumpSend_dec hcall) fun hheld =>
        hheld.pumpSend hcall
      cases ok <;> simp
    · cases h
  | loop =>
    simp only [Bench.step, Bench.loop] at h
    split at h
    · rename_i hcontrol
      cases h
      exact .quiet (by simp [hcontrol]) nofun
    · cases h
  | event w e =>
    simp only [Bench.step, Bench.event] at h
    split at h
    · rename_i hcontrol
      have hquiet : ∀ v, s.control ≠ .ending v true := by simp [hcontrol]
      split at h
      · split at h
        · cases h
          exact .quiet hquiet (by simp [hcontrol])
        · split at h
          all_goals
            cases h
            exact .quiet hquiet nofun
      · cases h
    · cases h
  | write script =>
    simp only [Bench.step, Bench.write] at h
    split at h
    · rename_i w e hcontrol
      have hquiet : ∀ v, s.control ≠ .ending v true := by simp [hcontrol]
      split at h
      · obtain ⟨c, hc, h⟩ := Option.bind_eq_some_iff.mp h
        obtain ⟨⟨c', taken, ok⟩, hcall, rfl⟩ := Option.map_eq_some_iff.mp h
        refine .wrote hc hquiet ?_ (flush_dec hcall) fun hheld => hheld.flush hcall
        cases ok <;> simp
      · cases h
        exact .quiet hquiet nofun
    · cases h
  | read =>
    simp only [Bench.step, Bench.read] at h
    split at h
    · rename_i w e hcontrol
      cases h
      exact .quiet (by simp [hcontrol]) (by cases e.epollin <;> simp)
    · cases h
  | recv o =>
    simp only [Bench.step, Bench.recv] at h
    split at h
    · rename_i w hcontrol
      obtain ⟨c, hc, rfl⟩ := Option.map_eq_some_iff.mp h
      refine .read hc hcontrol ?_ fun hleave => ?_
      · split
        · simp
        · split <;> simp
      · rw [hleave]
        rfl
    · cases h
  | pump script =>
    simp only [Bench.step, Bench.pump] at h
    split at h
    · rename_i w hcontrol
      have hquiet : ∀ v, s.control ≠ .ending v true := by simp [hcontrol]
      obtain ⟨c, hc, h⟩ := Option.bind_eq_some_iff.mp h
      split at h
      · obtain ⟨⟨c', taken, ok⟩, hcall, rfl⟩ := Option.map_eq_some_iff.mp h
        exact .wrote hc hquiet nofun (pumpSend_dec hcall) fun hheld => hheld.pumpSend hcall
      · cases h
        exact .quiet hquiet nofun
    · cases h
  | finish =>
    simp only [Bench.step, Bench.finish] at h
    split at h
    · rename_i w fail hcontrol
      obtain ⟨c, hc, rfl⟩ := Option.map_eq_some_iff.mp h
      cases fail with
      | true => exact .failed hc hcontrol
      | false =>
        split
        · rename_i hfail
          cases hfail
        · split
          · rename_i hthrough
            exact .through hc hcontrol hthrough.1 hthrough.2.1 hthrough.2.2
          · exact .quiet (by simp [hcontrol]) nofun
    · cases h
  | exit =>
    simp only [Bench.step, Bench.exit] at h
    split at h
    · rename_i hcontrol
      cases h
      exact .quiet (by simp [hcontrol]) (by simp)
    · cases h

variable {accepted rejected : W → List (List UInt8)}

/-- The connections that are open are counted. -/
theorem Inv.alive_pos (h : Inv A s accepted rejected) {w : W} {c : Conn} (hc : s.cs w = some c) :
    s.alive - 1 + 1 = s.alive := by
  have hopen := total_update openCount s.cs w none
  rw [hc, ← h.alive] at hopen
  simp only [openCount] at hopen
  omega

/-- One connection changes, and the counters with it. -/
theorem Inv.put (h : Inv A s accepted rejected) {w : W} {c : Conn} {oc : Option Conn}
    {taken fed : List UInt8} (acc rej : List (List UInt8)) {control : Control W} {tally : Tally}
    {errors alive : Nat} (hc : s.cs w = some c)
    (hslot : Slot A errors ⟨(s.traffic w).sent ++ taken, (s.traffic w).fed ++ fed⟩
      (accepted w ++ acc) (rejected w ++ rej) oc)
    (hquiet : ∀ v, v ≠ w → s.control ≠ .ending v true)
    (hfine : ∀ d, oc = some d → d.dec.error = true → control = .ending w true)
    (hexited : ∀ ok, control = .exited ok → ok = false ∧ openCount oc = 1)
    (htally : tally = s.tally.plus A acc rej) (herrors : errors = 0 → s.errors = 0)
    (halive : alive + 1 = s.alive + openCount oc) :
    Inv A ({ s with control, tally, errors, alive }.put w oc taken fed)
      (Function.update accepted w (accepted w ++ acc))
      (Function.update rejected w (rejected w ++ rej)) where
  slots v := by
    by_cases hvw : v = w
    · rw [hvw, Bench.put_traffic_self, Bench.put_cs_self, Function.update_self,
        Function.update_self]
      exact hslot
    · rw [Bench.put_traffic_of_ne _ hvw, Bench.put_cs_of_ne _ hvw, Function.update_of_ne hvw,
        Function.update_of_ne hvw]
      exact (h.slots v).mono herrors
  fine v d hd herr := by
    by_cases hvw : v = w
    · rw [hvw, Bench.put_cs_self] at hd
      rw [hvw]
      exact hfine d hd herr
    · rw [Bench.put_cs_of_ne _ hvw] at hd
      exact absurd (h.fine v d hd herr) (hquiet v hvw)
  tally := by
    have hacc := total_update List.length accepted w (accepted w ++ acc)
    have hrej := total_update List.length rejected w (rejected w ++ rej)
    have hbad := total_update (bad A) accepted w (accepted w ++ acc)
    rw [List.length_append] at hacc hrej
    rw [bad_append] at hbad
    show tally = _
    rw [htally, h.tally]
    simp only [Tally.plus, Tally.mk.injEq]
    omega
  alive := by
    have hopen := total_update openCount s.cs w oc
    rw [hc, ← h.alive] at hopen
    simp only [openCount] at hopen halive
    show alive = total openCount (Function.update s.cs w oc)
    omega
  exited ok hok := by
    obtain ⟨rfl, hopen⟩ := hexited ok hok
    have hpos := h.alive_pos hc
    have hne : alive ≠ 0 := by omega
    simp [Bench.verdict, Bench.put, hne]

theorem Inv.step (h : Inv A s accepted rejected) (heffect : BenchEffect A s t) :
    ∃ accepted' rejected', Inv A t accepted' rejected' := by
  cases heffect with
  | quiet hquiet hpassed => exact ⟨_, _, h.quiet hquiet hpassed⟩
  | @wrote w c c' taken control hc hquiet hruns hdec hkeeps =>
    refine ⟨_, _, h.put [] [] hc ?_ (fun v _ => hquiet v) ?_
      (fun ok hok => ⟨hruns ok hok, rfl⟩) ?_ id rfl⟩
    · rw [List.append_nil, List.append_nil, List.append_nil]
      exact hkeeps (h.held hc)
    · rintro d ⟨⟩ herr
      exact absurd (h.fine w c hc (hdec ▸ herr)) (hquiet w)
    · simp [Tally.plus, bad]
  | @read w c o control hc hcontrol hruns hleave =>
    have hfine : c.dec.error = false := by
      rw [← Bool.not_eq_true]
      intro herr
      cases hcontrol.symm.trans (h.fine w c hc herr)
    obtain ⟨acc, rej, hheld, htally, hends⟩ := (h.held hc).onRecv hfine s.tally o
    refine ⟨_, _, h.put acc rej hc ?_ ?_ ?_ (fun ok hok => absurd hok (hruns ok)) htally id
      rfl⟩
    · rw [List.append_nil]
      exact hheld
    · simp [hcontrol]
    · rintro d ⟨⟩ herr
      rcases hends with hbroken | hgood
      · exact hleave hbroken
      · cases hgood.symm.trans herr
  | @failed w c hc hcontrol =>
    refine ⟨_, _, h.put [] [] hc (by rintro ⟨⟩) ?_ (by rintro _ ⟨⟩) (by rintro _ ⟨⟩) ?_
      (by rintro ⟨⟩) ?_⟩
    · intro v hvw
      simp [hcontrol, Ne.symm hvw]
    · simp [Tally.plus, bad]
    · exact h.alive_pos hc
  | @through w c hc hcontrol hdone hinflight hout =>
    refine ⟨_, _, h.put [] [] hc ?_ ?_ (by rintro _ ⟨⟩) (by rintro _ ⟨⟩) ?_ id ?_⟩
    · intro _
      have hfine : c.dec.error = false := by
        rw [← Bool.not_eq_true]
        intro herr
        cases hcontrol.symm.trans (h.fine w c hc herr)
      refine ⟨c, ?_, hfine, hdone, hinflight, hout⟩
      simp only [List.append_nil]
      exact h.held hc
    · simp [hcontrol]
    · simp [Tally.plus, bad]
    · exact h.alive_pos hc

theorem inv_reachable (h : (bench W A).Reachable s) :
    ∃ accepted rejected, Inv A s accepted rejected := by
  apply h.invariant
  · rintro s ⟨order, -, -, rfl⟩
    exact ⟨_, _, .connected A order⟩
  · rintro s a t ⟨accepted, rejected, hs⟩ hstep
    exact hs.step (benchEffect_of_step hstep)

/-! ## The verdict -/

/-- `PASS` says of every connection that all messages were sent, that exactly as many came
back as were sent, one under each number, and with `--check` that these are the messages
sent. -/
theorem pass_sound (h : (bench W A).Reachable s) (hpass : s.control = .exited true) (w : W) :
    (s.traffic w).sent = (messages A A.perConn).flatMap encode ∧
      (framing.parse (s.traffic w).fed).broken = false ∧
      ((framing.parse (s.traffic w).fed).items.map readId).Perm
        ((messages A A.perConn).map readId) ∧
      (A.check = true → (framing.parse (s.traffic w).fed).items.Perm (messages A A.perConn)) := by
  obtain ⟨accepted, rejected, hinv⟩ := inv_reachable h
  have hverdict := (hinv.exited true hpass).symm
  simp only [Bench.verdict, Bool.and_eq_true, beq_iff_eq] at hverdict
  obtain ⟨⟨⟨⟨-, hextra⟩, herrors⟩, htampered⟩, halive⟩ := hverdict
  obtain ⟨c, hheld, hfinished⟩ := hinv.finished herrors halive w
  have hnext := (hheld.nextId_eq hfinished).1
  -- the messages that came back are those accepted
  rw [hinv.tally] at hextra htampered
  have hnone : rejected w = [] := List.length_eq_zero_iff.mp (eq_zero_of_total hextra w)
  obtain ⟨msgs, hsubmits, hperm⟩ := hheld.submits
  rw [hnone, List.append_nil, hsubmits.submitted_eq hfinished.fine] at hperm
  have hids := hheld.ledger.perm_of_idle hfinished.inflight_eq
  rw [hnext] at hids
  refine ⟨?_, ?_, (hperm.map readId).trans hids, fun hcheck => ?_⟩
  · rw [← hnext, ← hheld.sent_eq, hfinished.outbuf_eq, List.append_nil]
  · rw [← hsubmits.error_eq, hfinished.fine]
  · -- each is the message of its number
    have hgood := eq_zero_of_total htampered w
    rw [bad, if_pos hcheck, List.countP_eq_zero] at hgood
    have hsame : (accepted w).map (fun m => makeMsg (readId m) A.size) = accepted w := by
      refine (List.map_congr_left fun m hm => ?_).trans (List.map_id _)
      have hm' := hgood m hm
      rw [Bool.not_eq_true, Bool.not_eq_false'] at hm'
      exact ((checkMsg_iff A.le_size).mp hm').symm
    have hsent : (messages A A.perConn).map (fun m => makeMsg (readId m) A.size) =
        messages A A.perConn := by
      refine (List.map_congr_left fun m hm => ?_).trans (List.map_id _)
      exact (mem_messages hm).2.symm
    have hmsgs := hids.map fun id => makeMsg id A.size
    rw [List.map_map, List.map_map] at hmsgs
    refine hperm.trans ?_
    rw [← hsame, ← hsent]
    exact hmsgs

/-- One connection, two messages and one in flight at a time. -/
theorem pass_sound_two :
    let A : Args := ⟨2, 9, 1, true, by decide, by decide, by decide, by decide, by decide⟩
    ∃ s : Bench Unit, s.control = .exited true ∧
      (framing.parse (s.traffic ()).fed).items.Perm (messages A 2) := by
  intro A
  let turn : List (BenchAction Unit) := [.event () { epollin := true }, .write [], .read]
  let as : List (BenchAction Unit) := [.start [.accepted 5, .intr, .again], .loop,
    .event () { epollout := true }, .write [.accepted 100], .read, .pump [], .finish] ++ turn ++
    [.recv (.data (encode (makeMsg 0 9))), .recv .again, .pump [.accepted 13], .finish] ++ turn ++
    [.recv (.data (encode (makeMsg 1 9))), .pump [], .finish, .exit]
  have hrun : (as.foldlM (Bench.step A) (Bench.connected [()])).any (fun s =>
      s.control = .exited true) = true := by
    decide +kernel
  obtain ⟨s, hlast, hend⟩ := (Option.any_eq_true _ _).mp hrun
  have hpass := of_decide_eq_true hend
  have hreach : (bench Unit A).Reachable s :=
    .foldlM (fun _ _ _ h => h) (.of_init ⟨[()], by simp, fun _ => List.mem_singleton_self _, rfl⟩)
      hlast
  exact ⟨s, hpass, (pass_sound hreach hpass ()).2.2.2 rfl⟩

end Steps

end ServiceInfra.Client
