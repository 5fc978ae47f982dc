import ServiceInfra.Client.Bench

/-!
# What one connection of the client knows

The messages that came back on a connection are those that answered one in flight and the
others. `Ledger` says that the numbers given out so far are those of the messages that were
answered and those in flight, each once; `Held` adds the bytes: what was sent and what is
left to send are the encoded messages in order, and the decoder has read what came back.

Main results:
- `checkMsg_iff`: the check accepts the message that was sent and no other
- `Held.flush`, `Held.pumpSend`, `Held.onRecv`: what the calls keep
-/

namespace ServiceInfra.Client

open Library
open Net

/-! ## Messages -/

section Messages

variable {id : UInt64} {size : Nat}

@[simp] theorem length_idBytes (id : UInt64) : (idBytes id).length = 8 := rfl

theorem length_makeMsg (h : 8 ≤ size) : (makeMsg id size).length = size := by
  rw [makeMsg, List.length_append, length_idBytes, List.length_map, List.length_range']
  omega

@[simp] theorem readId_makeMsg : readId (makeMsg id size) = id := by
  have htake : (makeMsg id size).take 8 = idBytes id := List.take_left' (length_idBytes id)
  rw [readId, htake, idBytes, List.reverse_reverse, ← List.append_nil (writeU64Be id),
    readU64Be_writeU64Be]

/-- The eight bytes in front are those of the number read from them. -/
theorem idBytes_readId {m : List UInt8} (h : 8 ≤ m.length) : idBytes (readId m) = m.take 8 := by
  have hlen : (m.take 8).reverse.length = 8 := by simp [h]
  rw [idBytes, readId, writeU64Be_readU64Be hlen.ge, List.take_of_length_le hlen.le,
    List.reverse_reverse]

/-- The bytes from place 8 on, one by one. -/
theorem map_getD_range' {m : List UInt8} {n : Nat} (h : m.length = 8 + n) :
    (List.range' 8 n).map (fun i => m.getD i 0) = m.drop 8 := by
  refine List.ext_getElem (by simp [h]) fun i hi hi' => ?_
  have hlt : 8 + i < m.length := by
    rw [List.length_drop] at hi'
    omega
  rw [List.getElem_map, List.getElem_range', one_mul, List.getElem_drop,
    List.getD_eq_getElem?_getD, List.getElem?_eq_getElem hlt, Option.getD_some]

/-- `check_msg` accepts the message that was sent under its number, and no other. -/
theorem checkMsg_iff (h : 8 ≤ size) {m : List UInt8} :
    checkMsg (readId m) m size = true ↔ m = makeMsg (readId m) size := by
  have hcheck : checkMsg (readId m) m size = true ↔ m.length = size ∧
      (List.range' 8 (size - 8)).map (fun i => m.getD i 0) =
        (List.range' 8 (size - 8)).map (patternByte (readId m)) := by
    rw [checkMsg, List.map_inj_left]
    by_cases hlen : m.length = size <;> simp [hlen]
  rw [hcheck]
  constructor
  · rintro ⟨hlen, hbytes⟩
    rw [map_getD_range' (by omega)] at hbytes
    rw [makeMsg, ← hbytes, idBytes_readId (by omega), List.take_append_drop]
  · intro hm
    have hlen : m.length = size := by
      rw [hm]
      exact length_makeMsg h
    have hdrop : m.drop 8 = (List.range' 8 (size - 8)).map (patternByte (readId m)) := by
      conv_lhs => rw [hm]
      exact List.drop_left' (length_idBytes _)
    exact ⟨hlen, by rw [map_getD_range' (by omega), hdrop]⟩

end Messages

/-! ## What was sent -/

/-- The messages of a connection with `n` numbers given out. -/
def messages (A : Args) (n : Nat) : List (List UInt8) :=
  (List.range n).map fun i => makeMsg (UInt64.ofNat i) A.size

/-- The numbers given out. -/
def issued (n : Nat) : Finset UInt64 := (Finset.range n).image UInt64.ofNat

section Messages

variable {A : Args} {n : Nat}

theorem messages_succ (n : Nat) :
    messages A (n + 1) = messages A n ++ [makeMsg (UInt64.ofNat n) A.size] := by
  rw [messages, messages, List.range_succ, List.map_append, List.map_singleton]

theorem issued_succ (n : Nat) : issued (n + 1) = insert (UInt64.ofNat n) (issued n) := by
  rw [issued, issued, Finset.range_add_one, Finset.image_insert]

theorem ofNat_inj {i j : Nat} (hi : i < 2 ^ 31) (hj : j < 2 ^ 31)
    (h : UInt64.ofNat i = UInt64.ofNat j) : i = j := by
  have hsize : UInt64.size = 2 ^ 64 := rfl
  have hval := congrArg UInt64.toNat h
  rwa [UInt64.toNat_ofNat_of_lt' (by omega), UInt64.toNat_ofNat_of_lt' (by omega)] at hval

theorem notMem_issued (h : n < 2 ^ 31) : UInt64.ofNat n ∉ issued n := by
  intro hmem
  obtain ⟨i, hi, heq⟩ := Finset.mem_image.mp hmem
  rw [Finset.mem_range] at hi
  exact absurd (ofNat_inj (by omega) h heq) (by omega)

theorem card_issued (h : n ≤ 2 ^ 31) : (issued n).card = n := by
  rw [issued, Finset.card_image_of_injOn, Finset.card_range]
  intro i hi j hj heq
  rw [Finset.coe_range, Set.mem_Iio] at hi hj
  exact ofNat_inj (by omega) (by omega) heq

theorem length_of_mem_messages {m : List UInt8} (h : m ∈ messages A n) : m.length = A.size := by
  obtain ⟨i, -, rfl⟩ := List.mem_map.mp h
  exact length_makeMsg A.le_size

/-- A message that was sent carries a number given out, and passes the check. -/
theorem mem_messages {m : List UInt8} (h : m ∈ messages A n) :
    readId m ∈ issued n ∧ m = makeMsg (readId m) A.size := by
  obtain ⟨i, hi, rfl⟩ := List.mem_map.mp h
  rw [readId_makeMsg]
  exact ⟨Finset.mem_image_of_mem _ (Finset.mem_range.mpr (List.mem_range.mp hi)), rfl⟩

/-- The messages carry different numbers. -/
theorem nodup_messages (h : n ≤ 2 ^ 31) : ((messages A n).map readId).Nodup := by
  rw [messages, List.map_map]
  refine List.Nodup.map_on (fun i hi j hj heq => ?_) List.nodup_range
  rw [List.mem_range] at hi hj
  rw [Function.comp_apply, Function.comp_apply, readId_makeMsg, readId_makeMsg] at heq
  exact ofNat_inj (by omega) (by omega) heq

end Messages

/-! ## The numbers of a connection -/

/-- The numbers given out are those of the messages that were answered and those in flight. -/
structure Ledger (A : Args) (accepted : List (List UInt8)) (c : Conn) : Prop where
  nodup : (accepted.map readId).Nodup
  notMem_pending : ∀ m ∈ accepted, readId m ∉ c.pending
  mem_iff : ∀ id, id ∈ issued c.nextId ↔ id ∈ c.pending ∨ id ∈ accepted.map readId
  long : ∀ m ∈ accepted, 8 ≤ m.length
  done_eq : c.doneCnt = accepted.length
  inflight_eq : c.inflight = c.pending.card
  next_le : c.nextId ≤ A.perConn
  inflight_le : c.inflight ≤ A.depth

section Ledger

variable {A : Args} {accepted : List (List UInt8)} {c : Conn}

namespace Ledger

theorem fresh {events : Events} : Ledger A [] { evCur := events } := by
  constructor <;> simp [issued]

/-- Every number given out is that of a message answered or in flight, and of one only. -/
theorem balance (h : Ledger A accepted c) : accepted.length + c.inflight = c.nextId := by
  have hlt := A.perConn_lt
  have hle := h.next_le
  have hunion : issued c.nextId = c.pending ∪ (accepted.map readId).toFinset := by
    ext id
    rw [Finset.mem_union, List.mem_toFinset]
    exact h.mem_iff id
  have hdisjoint : Disjoint c.pending (accepted.map readId).toFinset := by
    rw [Finset.disjoint_right]
    intro id hid
    obtain ⟨m, hm, rfl⟩ := List.mem_map.mp (List.mem_toFinset.mp hid)
    exact h.notMem_pending m hm
  have hcard := congrArg Finset.card hunion
  rw [card_issued (by omega), Finset.card_union_of_disjoint hdisjoint,
    List.toFinset_card_of_nodup h.nodup, List.length_map, ← h.inflight_eq] at hcard
  omega

/-- With nothing in flight, the numbers answered are those of the messages sent. -/
theorem perm_of_idle (h : Ledger A accepted c) (hidle : c.inflight = 0) :
    (accepted.map readId).Perm ((messages A c.nextId).map readId) := by
  have hlt := A.perConn_lt
  have hle := h.next_le
  have hempty : c.pending = ∅ := Finset.card_eq_zero.mp (h.inflight_eq.symm.trans hidle)
  refine (List.perm_ext_iff_of_nodup h.nodup (nodup_messages (by omega))).mpr fun id => ?_
  have hmem := h.mem_iff id
  rw [hempty] at hmem
  have hsent : id ∈ (messages A c.nextId).map readId ↔ id ∈ issued c.nextId := by
    simp [messages, issued]
  rw [hsent, hmem]
  simp

/-- The fields of the books are the same. -/
theorem of_same (h : Ledger A accepted c) {c' : Conn} (hpending : c'.pending = c.pending)
    (hnext : c'.nextId = c.nextId) (hdone : c'.doneCnt = c.doneCnt)
    (hinflight : c'.inflight = c.inflight) : Ledger A accepted c' where
  nodup := h.nodup
  notMem_pending := by rw [hpending]; exact h.notMem_pending
  mem_iff := by rw [hpending, hnext]; exact h.mem_iff
  long := h.long
  done_eq := hdone.trans h.done_eq
  inflight_eq := by rw [hpending, hinflight]; exact h.inflight_eq
  next_le := by rw [hnext]; exact h.next_le
  inflight_le := by rw [hinflight]; exact h.inflight_le

/-- The next number is given out. -/
theorem pumpOne (h : Ledger A accepted c) (hnext : c.nextId < A.perConn)
    (hdepth : c.inflight < A.depth) : Ledger A accepted (c.pumpOne A) := by
  have hlt := A.perConn_lt
  have hfresh : UInt64.ofNat c.nextId ∉ issued c.nextId := notMem_issued (by omega)
  have hpending : UInt64.ofNat c.nextId ∉ c.pending := fun hmem =>
    hfresh ((h.mem_iff _).mpr (.inl hmem))
  constructor
  · exact h.nodup
  · intro m hm hmem
    rcases Finset.mem_insert.mp hmem with heq | hmem
    · exact hfresh ((h.mem_iff _).mpr (.inr (heq ▸ List.mem_map_of_mem hm)))
    · exact h.notMem_pending m hm hmem
  · intro id
    show id ∈ issued (c.nextId + 1) ↔ id ∈ insert _ c.pending ∨ _
    rw [issued_succ, Finset.mem_insert, Finset.mem_insert, h.mem_iff id, or_assoc]
  · exact h.long
  · exact h.done_eq
  · show c.inflight + 1 = (insert _ c.pending).card
    rw [Finset.card_insert_of_notMem hpending, h.inflight_eq]
  · exact hnext
  · exact hdepth

/-- A message that answers one in flight is taken off the books. -/
theorem answered (h : Ledger A accepted c) {m : List UInt8} (hm : c.Answers m) (k : Tally) :
    Ledger A (accepted ++ [m]) (c.onMessage A k m).1 := by
  obtain ⟨hlong, hmem⟩ := hm
  have hstate : (c.onMessage A k m).1 = { c with
      pending := c.pending.erase (readId m)
      inflight := c.inflight - 1
      doneCnt := c.doneCnt + 1 } := by
    rw [Conn.onMessage, if_pos ⟨hlong, hmem⟩]
  rw [hstate]
  constructor
  · rw [List.map_append, List.map_singleton, List.nodup_append]
    refine ⟨h.nodup, List.nodup_singleton _, fun id hid id' hid' heq => ?_⟩
    obtain ⟨m', hm', rfl⟩ := List.mem_map.mp hid
    rw [List.mem_singleton] at hid'
    exact h.notMem_pending m' hm' (heq ▸ hid' ▸ hmem)
  · intro m' hm' hpending
    obtain ⟨hne, hpending⟩ := Finset.mem_erase.mp hpending
    rcases List.mem_append.mp hm' with hm' | hm'
    · exact h.notMem_pending m' hm' hpending
    · exact hne (congrArg readId (List.mem_singleton.mp hm'))
  · intro id
    show id ∈ issued c.nextId ↔ _
    rw [h.mem_iff id, List.map_append, List.mem_append, List.map_singleton, List.mem_singleton,
      Finset.mem_erase]
    by_cases hid : id = readId m
    · simp [hid, hmem]
    · simp [hid]
  · intro m' hm'
    rcases List.mem_append.mp hm' with hm' | hm'
    · exact h.long m' hm'
    · rwa [List.mem_singleton.mp hm']
  · show c.doneCnt + 1 = _
    rw [h.done_eq, List.length_append, List.length_singleton]
  · show c.inflight - 1 = _
    rw [Finset.card_erase_of_mem hmem, h.inflight_eq]
  · exact h.next_le
  · exact (Nat.sub_le _ _).trans h.inflight_le

end Ledger

/-- The messages that fail the check, where they are checked. -/
def bad (A : Args) (msgs : List (List UInt8)) : Nat :=
  if A.check then msgs.countP fun m => !checkMsg (readId m) m A.size else 0

theorem bad_append (msgs msgs' : List (List UInt8)) :
    bad A (msgs ++ msgs') = bad A msgs + bad A msgs' := by
  rw [bad, bad, bad]
  split
  · exact List.countP_append
  · rfl

/-- What the counters say of more messages. -/
def Tally.plus (A : Args) (k : Tally) (accepted rejected : List (List UInt8)) : Tally :=
  ⟨k.received + accepted.length, k.extra + rejected.length, k.tampered + bad A accepted⟩

theorem onMessage_answered {m : List UInt8} (hm : c.Answers m) (k : Tally) :
    (c.onMessage A k m).2 = k.plus A [m] [] := by
  rw [Conn.onMessage, if_pos hm]
  simp only [Tally.plus, bad, List.length_singleton, List.length_nil, Nat.add_zero,
    List.countP_singleton]
  cases A.check <;> cases checkMsg (readId m) m A.size <;> simp

theorem onMessages_cons (c : Conn) (k : Tally) (m : List UInt8) (msgs : List (List UInt8)) :
    c.onMessages A k (m :: msgs) =
      (c.onMessage A k m).1.onMessages A (c.onMessage A k m).2 msgs := rfl

/-- The counting touches nothing but the books. -/
theorem onMessage_fields (c : Conn) (k : Tally) (m : List UInt8) :
    (c.onMessage A k m).1.dec = c.dec ∧ (c.onMessage A k m).1.outbuf = c.outbuf ∧
      (c.onMessage A k m).1.nextId = c.nextId ∧ (c.onMessage A k m).1.evCur = c.evCur := by
  rw [Conn.onMessage]
  split <;> exact ⟨rfl, rfl, rfl, rfl⟩

/-- Each message of a chunk answers one in flight or does not. -/
theorem Ledger.onMessages (h : Ledger A accepted c) (k : Tally) (msgs : List (List UInt8)) :
    ∃ acc rej, msgs.Perm (acc ++ rej) ∧
      Ledger A (accepted ++ acc) (c.onMessages A k msgs).1 ∧
      (c.onMessages A k msgs).2 = k.plus A acc rej := by
  induction msgs generalizing accepted c k with
  | nil =>
    refine ⟨[], [], .refl _, ?_, ?_⟩
    · rw [List.append_nil]
      exact h
    · simp [Conn.onMessages, Tally.plus, bad]
  | cons m msgs ih =>
    rw [onMessages_cons]
    by_cases hm : c.Answers m
    · obtain ⟨acc, rej, hperm, hledger, htally⟩ := ih (h.answered hm k) (c.onMessage A k m).2
      refine ⟨m :: acc, rej, hperm.cons m, by simpa using hledger, ?_⟩
      have hbad : bad A (m :: acc) = bad A [m] + bad A acc := bad_append [m] acc
      rw [htally, onMessage_answered hm]
      simp only [Tally.plus, hbad, List.length_cons, List.length_nil, Tally.mk.injEq]
      omega
    · have hsame : c.onMessage A k m = (c, { k with extra := k.extra + 1 }) := by
        rw [Conn.onMessage, if_neg hm]
      rw [hsame]
      obtain ⟨acc, rej, hperm, hledger, htally⟩ := ih h { k with extra := k.extra + 1 }
      refine ⟨acc, m :: rej, (hperm.cons m).trans List.perm_middle.symm, hledger, ?_⟩
      rw [htally, Tally.plus, Tally.plus, List.length_cons]
      simp only [Tally.mk.injEq, true_and, and_true]
      omega

/-- Messages that were sent, each back once, all answer one in flight, and pass the check. -/
theorem Ledger.all_answered (h : Ledger A accepted c) (k : Tally) {msgs : List (List UInt8)}
    (hsent : (accepted ++ msgs).Subperm (messages A c.nextId)) :
    (c.onMessages A k msgs).2 = { k with received := k.received + msgs.length } := by
  induction msgs generalizing accepted c k with
  | nil => rfl
  | cons m msgs ih =>
    have hlt := A.perConn_lt
    have hle := h.next_le
    -- its number was given out, and no message before had it
    have hmem : m ∈ messages A c.nextId :=
      hsent.subset (List.mem_append_right _ List.mem_cons_self)
    obtain ⟨hissued, hsame⟩ := mem_messages hmem
    have hnodup : ((accepted ++ m :: msgs).map readId).Nodup := by
      obtain ⟨sent, hperm, hsub⟩ := hsent
      exact (hperm.map readId).nodup_iff.mp
        ((nodup_messages (by omega)).sublist (hsub.map readId))
    have hfresh : readId m ∉ accepted.map readId := by
      rw [List.map_append, List.map_cons, List.nodup_append] at hnodup
      exact fun hold => hnodup.2.2 _ hold _ List.mem_cons_self rfl
    have hm : c.Answers m := by
      refine ⟨?_, ((h.mem_iff _).mp hissued).resolve_right hfresh⟩
      rw [length_of_mem_messages hmem]
      exact A.le_size
    have hgood : bad A [m] = 0 := by
      have hcheck : checkMsg (readId m) m A.size = true := (checkMsg_iff A.le_size).mpr hsame
      simp [bad, hcheck]
    have hnext : (c.onMessage A k m).1.nextId = c.nextId := (onMessage_fields c k m).2.2.1
    have hrest := ih (h.answered hm k) (c.onMessage A k m).2 (by
      rw [hnext]
      simpa using hsent)
    rw [onMessages_cons, hrest, onMessage_answered hm, Tally.plus, hgood]
    simp only [List.length_cons, List.length_nil, Tally.mk.injEq]
    omega

theorem onMessages_fields (c : Conn) (k : Tally) (msgs : List (List UInt8)) :
    (c.onMessages A k msgs).1.dec = c.dec ∧ (c.onMessages A k msgs).1.outbuf = c.outbuf ∧
      (c.onMessages A k msgs).1.nextId = c.nextId ∧
      (c.onMessages A k msgs).1.evCur = c.evCur := by
  induction msgs generalizing c k with
  | nil => exact ⟨rfl, rfl, rfl, rfl⟩
  | cons m msgs ih =>
    obtain ⟨hdec, hout, hnext, hev⟩ := ih (c.onMessage A k m).1 (c.onMessage A k m).2
    obtain ⟨hdec', hout', hnext', hev'⟩ := onMessage_fields (A := A) c k m
    exact ⟨hdec.trans hdec', hout.trans hout', hnext.trans hnext', hev.trans hev'⟩

end Ledger

/-! ## The bytes of a connection -/

/-- What was sent and what is left to send are the messages in order, and the messages that
came back are on the books or were rejected. -/
structure Held (A : Args) (h : Traffic) (accepted rejected : List (List UInt8)) (c : Conn) :
    Prop where
  ledger : Ledger A accepted c
  sent_eq : h.sent ++ c.outbuf = (messages A c.nextId).flatMap encode
  submits : ∃ msgs, Submits h.fed c.dec msgs ∧ msgs.Perm (accepted ++ rejected)

section Held

variable {A : Args} {h : Traffic} {accepted rejected : List (List UInt8)} {c c' : Conn}

/-- `flush_out` sends the front of the buffer. -/
theorem flushOut_spec {script : List SendOutcome} {taken : List UInt8} {ok : Bool}
    (hcall : c.flushOut script = some (c', taken, ok)) :
    c' = { c with outbuf := c'.outbuf } ∧ taken ++ c'.outbuf = c.outbuf := by
  induction script generalizing c taken with
  | nil =>
    simp only [Conn.flushOut] at hcall
    split at hcall <;> cases hcall
    exact ⟨rfl, rfl⟩
  | cons o script ih =>
    simp only [Conn.flushOut] at hcall
    split at hcall
    · cases hcall
      exact ⟨rfl, rfl⟩
    · cases o with
      | accepted n =>
        dsimp only at hcall
        split at hcall
        · cases hcall
          exact ⟨rfl, rfl⟩
        · obtain ⟨⟨d, rest, ok'⟩, hrest, heq⟩ := Option.map_eq_some_iff.mp hcall
          cases heq
          obtain ⟨hsame, hbytes⟩ := ih hrest
          refine ⟨hsame, ?_⟩
          rw [List.append_assoc, hbytes, List.take_append_drop]
      | intr => exact ih hcall
      | again | error =>
        cases hcall
        exact ⟨rfl, rfl⟩

theorem flush_spec {script : List SendOutcome} {taken : List UInt8} {ok : Bool}
    (hcall : c.flush script = some (c', taken, ok)) :
    (∃ evCur, c' = { c with evCur, outbuf := c'.outbuf }) ∧ taken ++ c'.outbuf = c.outbuf ∧
      (ok = true → c'.evCur = c'.want) := by
  obtain ⟨⟨d, taken', ok'⟩, hflush, heq⟩ := Option.map_eq_some_iff.mp hcall
  cases heq
  obtain ⟨hsame, hbytes⟩ := flushOut_spec hflush
  rw [hsame]
  cases ok with
  | true => exact ⟨⟨d.want, rfl⟩, hbytes, fun _ => rfl⟩
  | false => exact ⟨⟨c.evCur, rfl⟩, hbytes, nofun⟩

theorem Held.flush (hheld : Held A h accepted rejected c) {script : List SendOutcome}
    {taken : List UInt8} {ok : Bool} (hcall : c.flush script = some (c', taken, ok)) :
    Held A { h with sent := h.sent ++ taken } accepted rejected c' := by
  obtain ⟨⟨evCur, hsame⟩, hbytes, -⟩ := flush_spec hcall
  have hsent : (h.sent ++ taken) ++ c'.outbuf = (messages A c.nextId).flatMap encode := by
    rw [List.append_assoc, hbytes, hheld.sent_eq]
  rw [hsame] at hsent ⊢
  exact ⟨hheld.ledger.of_same rfl rfl rfl rfl, hsent, hheld.submits⟩

theorem Held.pumpOne (hheld : Held A h accepted rejected c) (hnext : c.nextId < A.perConn)
    (hdepth : c.inflight < A.depth) : Held A h accepted rejected (c.pumpOne A) where
  ledger := hheld.ledger.pumpOne hnext hdepth
  sent_eq := by
    show h.sent ++ (c.outbuf ++ _) = (messages A (c.nextId + 1)).flatMap encode
    rw [messages_succ, List.flatMap_append, ← List.append_assoc, hheld.sent_eq]
    simp
  submits := hheld.submits

theorem Held.pumpLoop (hheld : Held A h accepted rejected c) (turns : Nat) :
    Held A h accepted rejected (c.pumpLoop A turns) := by
  induction turns generalizing c with
  | zero => exact hheld
  | succ turns ih =>
    rw [Conn.pumpLoop]
    split
    · rename_i hmore
      exact ih (hheld.pumpOne hmore.1 hmore.2)
    · exact hheld

theorem pumpLoop_dec (turns : Nat) (c : Conn) : (c.pumpLoop A turns).dec = c.dec := by
  induction turns generalizing c with
  | zero => rfl
  | succ turns ih =>
    rw [Conn.pumpLoop]
    split
    · exact ih _
    · rfl

theorem Held.pumpSend (hheld : Held A h accepted rejected c) {script : List SendOutcome}
    {taken : List UInt8} {ok : Bool} (hcall : c.pumpSend A script = some (c', taken, ok)) :
    Held A { h with sent := h.sent ++ taken } accepted rejected c' :=
  (hheld.pumpLoop _).flush hcall

/-- A turn of the loop over `recv`: each message that it completes answers one in flight or
does not, and the loop is left with `fail` where the stream is broken. -/
theorem Held.onRecv (hheld : Held A h accepted rejected c) (hfine : c.dec.error = false)
    (k : Tally) (o : RecvOutcome) :
    ∃ acc rej, Held A { h with fed := h.fed ++ o.bytes } (accepted ++ acc) (rejected ++ rej)
        (c.onRecv A k o).1 ∧
      (c.onRecv A k o).2.1 = k.plus A acc rej ∧
      ((c.onRecv A k o).2.2 = .leave true ∨ (c.onRecv A k o).1.dec.error = false) := by
  obtain ⟨msgs, hsubmits, hperm⟩ := hheld.submits
  have hnone : k = k.plus A [] [] := by simp [Tally.plus, bad]
  have hquiet : o.bytes = [] → ∀ {k' : Tally}, k' = k.plus A [] [] →
      ∃ acc rej, Held A { h with fed := h.fed ++ o.bytes } (accepted ++ acc) (rejected ++ rej) c ∧
        k' = k.plus A acc rej := by
    intro hbytes k' hk
    refine ⟨[], [], ?_, hk⟩
    rw [hbytes, List.append_nil, List.append_nil, List.append_nil]
    exact hheld
  cases o with
  | data bytes =>
    rw [Conn.onRecv]
    dsimp only
    split
    · rename_i hbroken
      refine ⟨[], [], ⟨?_, ?_, msgs, hsubmits.feed_broken hbroken, by simpa using hperm⟩, hnone,
        .inl rfl⟩
      · rw [List.append_nil]
        exact hheld.ledger.of_same rfl rfl rfl rfl
      · exact hheld.sent_eq
    · rename_i hgood
      rw [Bool.not_eq_true] at hgood
      have hledger : Ledger A accepted { c with dec := (c.dec.feed bytes).take.2 } :=
        hheld.ledger.of_same rfl rfl rfl rfl
      obtain ⟨acc, rej, hgot, hledger, htally⟩ :=
        hledger.onMessages k (c.dec.feed bytes).take.1
      obtain ⟨hdec, hout, hnext, -⟩ := onMessages_fields (A := A)
        { c with dec := (c.dec.feed bytes).take.2 } k (c.dec.feed bytes).take.1
      refine ⟨acc, rej, ⟨hledger, ?_, msgs ++ (c.dec.feed bytes).take.1, ?_, ?_⟩, htally, .inr ?_⟩
      · rw [hout, hnext]
        exact hheld.sent_eq
      · rw [hdec]
        exact hsubmits.feed_take hgood
      · refine List.perm_iff_count.mpr fun m => ?_
        have hbefore := hperm.count_eq m
        have hnew := hgot.count_eq m
        simp only [List.count_append] at hbefore hnew ⊢
        omega
      · rw [hdec]
        exact hgood
  | eof =>
    obtain ⟨acc, rej, hkeeps, hk⟩ := hquiet rfl hnone
    exact ⟨acc, rej, hkeeps, hk, .inr hfine⟩
  | again =>
    obtain ⟨acc, rej, hkeeps, hk⟩ := hquiet rfl hnone
    exact ⟨acc, rej, hkeeps, hk, .inr hfine⟩
  | error =>
    obtain ⟨acc, rej, hkeeps, hk⟩ := hquiet rfl hnone
    exact ⟨acc, rej, hkeeps, hk, .inr hfine⟩

end Held

end ServiceInfra.Client
