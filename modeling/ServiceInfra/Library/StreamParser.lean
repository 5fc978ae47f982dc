import Mathlib.Tactic

/-!
# Stream parsers

A stream parser looks at the front of a string and either reads one item, asks for
more input, or declares the stream broken; more input never changes an item or a
break. `parse` is the plain recursive parse of a whole string.

Main results:
- `StreamParser.parse_append`: parsing in two pieces, carrying the unread rest
- `StreamParser.items_prefix_append`: what was read stays read
- `StreamParser.parse_flatMap`: an encoder that `next` reads back
- `StreamParser.flatMap_items_append_rest`: the items and the rest spell the input
-/

namespace ServiceInfra.Library

universe u v

/-- What the front of a string is. -/
inductive Verdict (β : Type v) where
  /-- The front may still become an item. -/
  | more
  /-- The stream is broken here. -/
  | broken
  /-- The first `n` symbols are the item `v`. -/
  | item (v : β) (n : Nat)
  deriving DecidableEq, Repr

/-- A parser of items off the front of a string, stable under more input. -/
structure StreamParser (α : Type u) (β : Type v) where
  /-- Look at the front of the string. -/
  next : List α → Verdict β
  /-- An item takes at least one symbol, and only symbols that are there. -/
  item_bounds : ∀ {bs v n}, next bs = .item v n → 0 < n ∧ n ≤ bs.length
  /-- More input does not change an item. -/
  item_append : ∀ {bs v n} (ys), next bs = .item v n → next (bs ++ ys) = .item v n
  /-- More input does not mend a break. -/
  broken_append : ∀ {bs} (ys), next bs = .broken → next (bs ++ ys) = .broken

/-- The outcome of parsing a string as far as it goes. -/
structure Parsed (α : Type u) (β : Type v) where
  /-- The items read, in order. -/
  items : List β
  /-- Whether the parse stopped at a break. -/
  broken : Bool
  /-- The symbols from where the parse stopped. -/
  rest : List α

namespace StreamParser

variable {α : Type u} {β : Type v} (P : StreamParser α β)

/-- Read items until the string runs out or breaks. -/
def parse (bs : List α) : Parsed α β :=
  match _h : P.next bs with
  | .more => ⟨[], false, bs⟩
  | .broken => ⟨[], true, bs⟩
  | .item v n =>
      { parse (bs.drop n) with items := v :: (parse (bs.drop n)).items }
termination_by bs.length
decreasing_by
  all_goals
    have hb := P.item_bounds _h
    rw [List.length_drop]
    omega

/-! ## One item at a time -/

theorem parse_of_more {bs : List α} (h : P.next bs = .more) : P.parse bs = ⟨[], false, bs⟩ := by
  rw [parse]
  split <;> simp_all

theorem parse_of_broken {bs : List α} (h : P.next bs = .broken) :
    P.parse bs = ⟨[], true, bs⟩ := by
  rw [parse]
  split <;> simp_all

theorem parse_of_item {bs : List α} {v : β} {n : Nat} (h : P.next bs = .item v n) :
    P.parse bs = { P.parse (bs.drop n) with items := v :: (P.parse (bs.drop n)).items } := by
  rw [parse]
  split
  · simp_all
  · simp_all
  · rename_i v' n' h'
    rw [h] at h'
    obtain ⟨rfl, rfl⟩ : v = v' ∧ n = n' := by simpa using h'
    rfl

/-- Induction along a parse: the string shrinks by one item at a time. -/
theorem parse_induct {motive : List α → Prop}
    (more : ∀ bs, P.next bs = .more → motive bs)
    (broken : ∀ bs, P.next bs = .broken → motive bs)
    (item : ∀ bs v n, P.next bs = .item v n → motive (bs.drop n) → motive bs)
    (bs : List α) : motive bs := by
  induction hlen : bs.length using Nat.strongRecOn generalizing bs with
  | ind len ih =>
    cases h : P.next bs with
    | more => exact more bs h
    | broken => exact broken bs h
    | item v n =>
      have hb := P.item_bounds h
      refine item bs v n h (ih (bs.drop n).length ?_ _ rfl)
      rw [List.length_drop]
      omega

/-! ## Parsing in pieces -/

/-- A string parsed without a break contributes its items, and its rest is parsed
together with what follows. -/
theorem parse_append {xs : List α} (h : (P.parse xs).broken = false) (ys : List α) :
    P.parse (xs ++ ys) =
      { P.parse ((P.parse xs).rest ++ ys) with
        items := (P.parse xs).items ++ (P.parse ((P.parse xs).rest ++ ys)).items } := by
  -- along the parse of the first piece, which more input does not change
  induction xs using P.parse_induct with
  | more xs hn => simp [P.parse_of_more hn]
  | broken xs hn => simp [P.parse_of_broken hn] at h
  | item xs v n hn ih =>
    have hle := (P.item_bounds hn).2
    have htail := ih (by rw [P.parse_of_item hn] at h; exact h)
    rw [P.parse_of_item hn, P.parse_of_item (P.item_append ys hn), List.drop_append_of_le_length hle,
      htail]
    simp

/-- After a break more input changes nothing but the rest. -/
theorem parse_append_of_broken {xs : List α} (h : (P.parse xs).broken = true) (ys : List α) :
    P.parse (xs ++ ys) = { P.parse xs with rest := (P.parse xs).rest ++ ys } := by
  -- along the parse of the first piece, up to the break
  induction xs using P.parse_induct with
  | more xs hn => simp [P.parse_of_more hn] at h
  | broken xs hn => rw [P.parse_of_broken hn, P.parse_of_broken (P.broken_append ys hn)]
  | item xs v n hn ih =>
    have hle := (P.item_bounds hn).2
    have htail := ih (by rw [P.parse_of_item hn] at h; exact h)
    rw [P.parse_of_item hn, P.parse_of_item (P.item_append ys hn), List.drop_append_of_le_length hle,
      htail]

/-- More input only adds items. -/
theorem items_prefix_append (xs ys : List α) :
    (P.parse xs).items <+: (P.parse (xs ++ ys)).items := by
  cases h : (P.parse xs).broken with
  | false =>
    rw [P.parse_append h]
    exact List.prefix_append _ _
  | true => rw [P.parse_append_of_broken h]

/-- The front of a string without a break has none. -/
theorem broken_of_append {xs ys : List α} (h : (P.parse (xs ++ ys)).broken = false) :
    (P.parse xs).broken = false := by
  cases hxs : (P.parse xs).broken with
  | false => rfl
  | true =>
    rw [P.parse_append_of_broken hxs] at h
    exact absurd (hxs.symm.trans h) Bool.noConfusion

/-! ## Encoders -/

/-- A string of encoded items that the parser reads back contributes those items. -/
theorem parse_flatMap {enc : β → List α} {vs : List β}
    (henc : ∀ v ∈ vs, ∀ ys, P.next (enc v ++ ys) = .item v (enc v).length) (ys : List α) :
    P.parse (vs.flatMap enc ++ ys) = { P.parse ys with items := vs ++ (P.parse ys).items } := by
  induction vs with
  | nil => simp
  | cons v vs ih =>
    have hhead : P.next ((v :: vs).flatMap enc ++ ys) = .item v (enc v).length := by
      rw [List.flatMap_cons, List.append_assoc]
      exact henc v List.mem_cons_self _
    have hdrop : ((v :: vs).flatMap enc ++ ys).drop (enc v).length = vs.flatMap enc ++ ys := by
      rw [List.flatMap_cons, List.append_assoc, List.drop_left]
    rw [P.parse_of_item hhead, hdrop, ih fun w hw => henc w (List.mem_cons_of_mem v hw)]
    simp

/-- If every item's symbols are its encoding, the encoded items followed by the rest are
the string itself. -/
theorem flatMap_items_append_rest {enc : β → List α}
    (henc : ∀ bs v n, P.next bs = .item v n → bs.take n = enc v) (bs : List α) :
    (P.parse bs).items.flatMap enc ++ (P.parse bs).rest = bs := by
  induction bs using P.parse_induct with
  | more bs hn => simp [P.parse_of_more hn]
  | broken bs hn => simp [P.parse_of_broken hn]
  | item bs v n hn ih =>
    rw [P.parse_of_item hn]
    simp only [List.flatMap_cons, List.append_assoc]
    rw [ih, ← henc bs v n hn, List.take_append_drop]

end StreamParser

end ServiceInfra.Library
