import ServiceInfra.Client.Verdict
import ServiceInfra.Reactor.Pooled

/-!
# The client against the echo server

The client and the server run side by side, the server on its thread pool with a handler
that returns its message. Between them are the sockets: what one side has read is a front
of what the other side has sent (`Carried`). Then nothing that the client can complain of
ever happens but the end of a connection: no message is foreign, none is changed, no stream
is broken.

Main results:
- `received_intact`: one `recv` of the client
- `closedLoop_clean`: every run
-/

namespace ServiceInfra.Client

open Library
open Net
open Reactor

/-! ## The two sides -/

/-- The server, which returns every message, and its client. -/
structure LoopState (W : Type) where
  server : PooledState
  client : Bench W

/-- A step of one of the two sides. -/
inductive LoopAction (W : Type) where
  | server (a : PooledAction)
  | client (a : BenchAction W)
  deriving DecidableEq, Repr

variable {W : Type}

/-- What one side has read is a front of what the other side has sent; `number` is the number
the server gave to a connection of the client. -/
structure Carried (number : W → Nat) (s : LoopState W) : Prop where
  toServer : ∀ w, s.server.wire.received (number w) <+: (s.client.traffic w).sent
  toClient : ∀ w, (s.client.traffic w).fed <+: s.server.wire.sent (number w)

/-! ## What the client reads -/

section Reading

variable {A : Args} {number : W → Nat} {s : LoopState W}

theorem echo_fits : AnswersFit some := fun _ _ hlen heq => Option.some.inj heq ▸ hlen

/-- What the client has read on a connection are whole messages that it has sent there, each
at most once. -/
theorem fed_subperm (hserver : (pooled some).Reachable s.server) {w : W}
    (htoServer : s.server.wire.received (number w) <+: (s.client.traffic w).sent)
    {accepted rejected : List (List UInt8)} {c : Conn}
    (hheld : Held A (s.client.traffic w) accepted rejected c) {fed : List UInt8}
    (htoClient : fed <+: s.server.wire.sent (number w)) :
    (framing.parse fed).broken = false ∧
      (framing.parse fed).items.Subperm (messages A c.nextId) := by
  obtain ⟨v, hv, himpl⟩ := pooledSimulation.reachable hserver
  obtain ⟨hunbroken, hitems⟩ := sent_subperm (wireInv_reachable echo_fits hv) (number w)
  rw [himpl.wire] at hunbroken hitems
  simp only [WireState.withPool, List.filterMap_some] at hunbroken hitems
  have hsize : ∀ m ∈ messages A c.nextId, m.length ≤ 1048576 := fun m hm => by
    rw [length_of_mem_messages hm]
    exact A.size_le.trans (by norm_num)
  -- the server has read a front of the messages sent
  have hfront : s.server.wire.received (number w) <+: (messages A c.nextId).flatMap encode := by
    rw [← hheld.sent_eq]
    exact htoServer.trans (List.prefix_append _ _)
  have hreceived := (parse_front hsize hfront).2
  -- and the client a front of what it sent back
  obtain ⟨rest, hrest⟩ := htoClient
  rw [← hrest] at hunbroken hitems
  exact ⟨framing.broken_of_append hunbroken,
    (framing.items_prefix_append fed rest).sublist.subperm.trans
      (hitems.trans hreceived.sublist.subperm)⟩

/-- One `recv` of the client: each message that it completes answers one in flight and passes
the check. -/
theorem received_intact {h : Traffic} {accepted : List (List UInt8)} {c : Conn} {k : Tally}
    {o : RecvOutcome} (hheld : Held A h accepted [] c) (hfine : c.dec.error = false)
    (hunbroken : (framing.parse (h.fed ++ o.bytes)).broken = false)
    (hitems : (framing.parse (h.fed ++ o.bytes)).items.Subperm (messages A c.nextId)) :
    (c.onRecv A k o).2.1.extra = k.extra ∧ (c.onRecv A k o).2.1.tampered = k.tampered ∧
      (c.onRecv A k o).1.dec.error = false := by
  cases o with
  | data bytes =>
    obtain ⟨msgs, hsubmits, hperm⟩ := hheld.submits
    rw [List.append_nil] at hperm
    have hgood : (c.dec.feed bytes).error = false :=
      (hsubmits.simulates.feed bytes).error_eq.trans hunbroken
    have htaken := (hsubmits.feed_take hgood).submitted_eq hgood
    rw [RecvOutcome.bytes, ← htaken] at hitems
    have hledger : Ledger A accepted { c with dec := (c.dec.feed bytes).take.2 } :=
      hheld.ledger.of_same rfl rfl rfl rfl
    have hall := hledger.all_answered k ((hperm.append_right _).symm.subperm.trans hitems)
    obtain ⟨hdec, -⟩ := onMessages_fields (A := A)
      { c with dec := (c.dec.feed bytes).take.2 } k (c.dec.feed bytes).take.1
    rw [Conn.onRecv]
    simp only [MessageDecode.brokenmessage, hgood, Bool.false_eq_true, if_false]
    rw [hall, hdec]
    exact ⟨rfl, rfl, hgood⟩
  | eof | again | error => exact ⟨rfl, rfl, hfine⟩

end Reading

/-! ## Every run -/

section Runs

variable [DecidableEq W] [Fintype W]

/-- One step. -/
def LoopState.step (A : Args) (s : LoopState W) : LoopAction W → Option (LoopState W)
  | .server a => (s.server.step some a).map fun server => { s with server }
  | .client a => (s.client.step A a).map fun client => { s with client }

/-- The runs of both sides in which the output buffers of the server stay below `2 ^ 31`
bytes. -/
def closedLoop (number : W → Nat) (A : Args) :
    TransitionSystem (LoopState W) (LoopAction W) where
  init s := s.server = {} ∧ (bench W A).init s.client
  step s a t := s.step A a = some t ∧ BuffersSmall t.server.wire.reactor ∧ Carried number t

variable {A : Args} {number : W → Nat} {s t : LoopState W}

/-- The invariant of the two sides. -/
structure LoopInv (number : W → Nat) (A : Args) (s : LoopState W) : Prop where
  server : (pooled some).Reachable s.server
  client : (bench W A).Reachable s.client
  carried : Carried number s
  extra : s.client.tally.extra = 0
  tampered : s.client.tally.tampered = 0
  fine : ∀ w c, s.client.cs w = some c → c.dec.error = false

/-- A step of the client finds nothing to complain of. -/
theorem LoopInv.client_step (h : LoopInv number A s) {client : Bench W}
    (heffect : BenchEffect A s.client client) (hcarried : Carried number { s with client }) :
    client.tally.extra = 0 ∧ client.tally.tampered = 0 ∧
      ∀ w c, client.cs w = some c → c.dec.error = false := by
  -- the connections other than the one at hand
  have hother : ∀ {b : Bench W} {w : W} {oc : Option Conn} {taken fed : List UInt8},
      b.cs = s.client.cs → (∀ d, oc = some d → d.dec.error = false) →
      ∀ v d, (b.put w oc taken fed).cs v = some d → d.dec.error = false := by
    intro b w oc taken fed hcs hself v d hd
    by_cases hvw : v = w
    · rw [hvw, Bench.put_cs_self] at hd
      exact hself d hd
    · rw [Bench.put_cs_of_ne _ hvw, hcs] at hd
      exact h.fine v d hd
  cases heffect with
  | quiet => exact ⟨h.extra, h.tampered, h.fine⟩
  | wrote hc _ _ hdec =>
    refine ⟨h.extra, h.tampered, hother rfl ?_⟩
    rintro d ⟨⟩
    rw [hdec]
    exact h.fine _ _ hc
  | @read w c o control hc hcontrol _ _ =>
    obtain ⟨accepted, rejected, hinv⟩ := inv_reachable h.client
    have hheld := hinv.held hc
    have hnone : rejected w = [] := by
      have hextra := h.extra
      rw [hinv.tally] at hextra
      exact List.length_eq_zero_iff.mp (eq_zero_of_total hextra w)
    have htoClient := hcarried.toClient w
    rw [Bench.put_traffic_self] at htoClient
    obtain ⟨hunbroken, hitems⟩ := fed_subperm h.server (h.carried.toServer w) hheld htoClient
    rw [hnone] at hheld
    obtain ⟨hextra, htampered, herr⟩ :=
      received_intact (k := s.client.tally) hheld (h.fine w c hc) hunbroken hitems
    refine ⟨hextra.trans h.extra, htampered.trans h.tampered, hother rfl ?_⟩
    rintro d ⟨⟩
    exact herr
  | failed => exact ⟨h.extra, h.tampered, hother rfl nofun⟩
  | through => exact ⟨h.extra, h.tampered, hother rfl nofun⟩

theorem loopInv_reachable (h : (closedLoop number A).Reachable s) : LoopInv number A s := by
  apply h.invariant
  · rintro ⟨server, client⟩ ⟨rfl, hclient⟩
    obtain ⟨order, hnodup, hall, rfl⟩ := hclient
    refine ⟨.of_init rfl, .of_init ⟨order, hnodup, hall, rfl⟩, ⟨?_, ?_⟩, rfl, rfl, ?_⟩
    · exact fun _ => List.nil_prefix
    · exact fun _ => List.nil_prefix
    · rintro w c ⟨⟩
      rfl
  · rintro s a t hs ⟨hstep, hsmall, hcarried⟩
    cases a with
    | server a =>
      obtain ⟨server, hserver, rfl⟩ := Option.map_eq_some_iff.mp hstep
      exact ⟨hs.server.step ⟨hserver, hsmall⟩, hs.client, hcarried, hs.extra, hs.tampered, hs.fine⟩
    | client a =>
      obtain ⟨client, hclient, rfl⟩ := Option.map_eq_some_iff.mp hstep
      obtain ⟨hextra, htampered, hfine⟩ := hs.client_step (benchEffect_of_step hclient) hcarried
      exact ⟨hs.server, hs.client.step hclient, hcarried, hextra, htampered, hfine⟩

/-- Against the echo server the client never counts a message as extra or tampered and finds
no stream broken, and its verdict is `PASS` exactly when no connection was lost and none was
left open. -/
theorem closedLoop_clean (h : (closedLoop number A).Reachable s) :
    s.client.tally.extra = 0 ∧ s.client.tally.tampered = 0 ∧
      (∀ w c, s.client.cs w = some c → c.dec.error = false) ∧
      ∀ ok, s.client.control = .exited ok →
        (ok = true ↔ s.client.errors = 0 ∧ s.client.alive = 0) := by
  have hloop := loopInv_reachable h
  obtain ⟨accepted, rejected, hinv⟩ := inv_reachable hloop.client
  refine ⟨hloop.extra, hloop.tampered, hloop.fine, fun ok hexited => ?_⟩
  rw [hinv.exited ok hexited, Bench.verdict, hloop.extra, hloop.tampered]
  constructor
  · intro hpass
    simp only [Bool.and_eq_true, beq_iff_eq] at hpass
    exact ⟨hpass.1.1.2, hpass.2⟩
  · rintro ⟨herrors, halive⟩
    simp [hinv.received_eq herrors halive, herrors, halive]

instance : Decidable (Carried number s) :=
  decidable_of_iff ((∀ w, s.server.wire.received (number w) <+: (s.client.traffic w).sent) ∧
      ∀ w, (s.client.traffic w).fed <+: s.server.wire.sent (number w))
    ⟨fun h => ⟨h.1, h.2⟩, fun h => ⟨h.toServer, h.toClient⟩⟩

/-- A step that keeps to what the sockets carry. -/
def LoopState.carriedStep (number : W → Nat) (A : Args) (s : LoopState W) (a : LoopAction W) :
    Option (LoopState W) :=
  (s.step A a).bind fun t => if Carried number t then some t else none

/-- Where all responses together stay below `2 ^ 31` bytes, so did every output buffer. -/
theorem closedLoop_of_run {u : LoopState W} (hu : (closedLoop number A).Reachable u)
    (hserver : u.server = {}) {as : List (LoopAction W)}
    (hrun : as.foldlM (LoopState.carriedStep number A) u = some s)
    (hshort : s.server.wire.reactor.answeredBytes < 2 ^ 31) :
    (closedLoop number A).Reachable s := by
  have hcarried : ∀ {s t : LoopState W} {a : LoopAction W},
      s.carriedStep number A a = some t → s.step A a = some t ∧ Carried number t := by
    intro s t a hstep
    obtain ⟨v, hv, hif⟩ := Option.bind_eq_some_iff.mp hstep
    split at hif
    · rename_i hcarried
      cases hif
      exact ⟨hv, hcarried⟩
    · cases hif
  have hgrows : ∀ (s : LoopState W) (a : LoopAction W) (t : LoopState W),
      ShortOutput s.server → s.carriedStep number A a = some t → ShortOutput t.server ∧
        s.server.wire.reactor.answeredBytes ≤ t.server.wire.reactor.answeredBytes := by
    intro s a t hs hstep
    have hstep' := (hcarried hstep).1
    cases a with
    | server a =>
      obtain ⟨server, hserver, rfl⟩ := Option.map_eq_some_iff.mp hstep'
      exact shortOutput_step hs hserver
    | client a =>
      obtain ⟨client, -, rfl⟩ := Option.map_eq_some_iff.mp hstep'
      exact ⟨hs, le_rfl⟩
  have hstart : ShortOutput u.server := by
    rw [hserver]
    exact .start
  refine TransitionSystem.Reachable.foldlM_lt (T := closedLoop number A) hgrows ?_ hu hstart hrun
    hshort
  intro s a t hstep hinv hlt
  exact ⟨(hcarried hstep).1, hinv.1.small hlt, (hcarried hstep).2⟩

/-- One message goes there and back. -/
theorem closedLoop_clean_one :
    let A : Args := ⟨1, 9, 1, true, by decide, by decide, by decide, by decide, by decide⟩
    ∃ s, (closedLoop (fun _ : Unit => 1) A).Reachable s ∧ s.client.control = .exited true ∧
      s.client.tally.extra = 0 ∧ s.client.errors = 0 ∧ s.client.alive = 0 := by
  intro A
  let msg := encode (makeMsg 0 9)
  let as : List (LoopAction Unit) := [.client (.start [.accepted 100]), .client .loop,
    .server (.reactor (.accept 5)), .server (.reactor (.event 5 { epollin := true } [])),
    .server (.reactor (.recv (.data msg))), .server .submit, .server (.notify none),
    .server (.reactor .endTurn), .server (.look 3), .server (.reactor (.recv .again)),
    .server (.reactor .endTurn), .server (.finish 3), .server (.reactor .drain),
    .server (.reactor (.deliver [.accepted 100])), .client (.event () { epollin := true }),
    .client (.write []), .client .read, .client (.recv (.data (msg.take 6))),
    .client (.recv (.data (msg.drop 6))), .client (.pump []), .client .finish, .client .exit]
  let u : LoopState Unit := ⟨{}, Bench.connected [()]⟩
  have hu : (closedLoop (fun _ => 1) A).Reachable u :=
    .of_init ⟨rfl, [()], by simp, fun _ => List.mem_singleton_self _, rfl⟩
  have hrun : (as.foldlM (LoopState.carriedStep (fun _ => 1) A) u).any (fun s =>
      s.server.wire.reactor.answeredBytes < 2 ^ 31 ∧ s.client.control = .exited true) = true := by
    decide +kernel
  obtain ⟨s, hlast, hend⟩ := (Option.any_eq_true _ _).mp hrun
  obtain ⟨hshort, hexited⟩ := of_decide_eq_true hend
  have hreach := closedLoop_of_run hu rfl hlast hshort
  obtain ⟨hextra, -, -, hverdict⟩ := closedLoop_clean hreach
  exact ⟨s, hreach, hexited, hextra, (hverdict true hexited).mp rfl⟩

end Runs

end ServiceInfra.Client
