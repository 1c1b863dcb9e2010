/-
Entries, pointers and sums per price as an image of the stored orders.

* `Pages.Shows` — every order that rests has its entry and its pointer, nothing else has, and the sums
  are those of the entries;
* **`Shows.enter`**, **`Shows.leave`**, **`Shows.shrink`**, **`Shows.drain`**, `Shows.aside` — the writes
  of the life cycle keep that.

Entries and pointers are secondary indexes of the table of orders, so `IsIndex.put` applies.  A trigger
that was activated is stored as open before it is on the book; `held` is the index of that order.
-/
import PerpDex.PageEffects
import PerpDex.SecondaryIndex

namespace PerpDex

open Txn

/-! ### The sums of the entries -/

/-- What an entry adds to the sums of a side of a price. -/
def share (m price : ℕ) (isAsk : Bool) (k : ℕ ×ₗ SortKey) (e : OrderBookEntry) : ℤ × ℤ × ℤ :=
  if onSide m isAsk k = true ∧ e.price = price then
    (e.remainingBaseAmount, e.remainingBaseAmount * e.price, 1) else 0

/-- Base amount, quote amount and number of the entries on one side of a price. -/
def bookTotals (entries : KVStore (ℕ ×ₗ SortKey) OrderBookEntry) (m price : ℕ) (isAsk : Bool) :
    ℤ × ℤ × ℤ :=
  (entries.sum fun k e => (share m price isAsk k e).1,
    entries.sum fun k e => (share m price isAsk k e).2.1,
    entries.sum fun k e => (share m price isAsk k e).2.2)

variable {entries : KVStore (ℕ ×ₗ SortKey) OrderBookEntry} {m price : ℕ} {isAsk : Bool}
  {k : ℕ ×ₗ SortKey} {e : OrderBookEntry} {o r : Order}

theorem share_nonneg (m price : ℕ) (isAsk : Bool) (k : ℕ ×ₗ SortKey) (e : OrderBookEntry) :
    0 ≤ share m price isAsk k e := by
  unfold share
  split
  · exact ⟨Int.natCast_nonneg _, Int.mul_nonneg (Int.natCast_nonneg _) (Int.natCast_nonneg _),
      zero_le_one⟩
  · exact le_rfl

theorem share_toEntry (o : Order) : share m price isAsk (toLex (o.marketIndex, o.sortKey)) o.toEntry
    = if m = o.marketIndex ∧ price = o.price ∧ isAsk = o.isAsk then
        ((o.remainingBaseAmount : ℤ), (o.remainingBaseAmount : ℤ) * o.price, 1) else 0 := by
  have hiff : (onSide m isAsk (toLex (o.marketIndex, o.sortKey)) = true ∧ o.toEntry.price = price)
      ↔ (m = o.marketIndex ∧ price = o.price ∧ isAsk = o.isAsk) := by
    rw [Order.sortKey, onSide_sortableKey]
    constructor
    · rintro ⟨⟨rfl, rfl⟩, rfl⟩
      exact ⟨rfl, rfl, rfl⟩
    · rintro ⟨rfl, rfl, rfl⟩
      exact ⟨⟨rfl, rfl⟩, rfl⟩
  rw [share, if_congr hiff rfl rfl]
  rfl

theorem bookTotals_nonneg (entries : KVStore (ℕ ×ₗ SortKey) OrderBookEntry) (m price : ℕ)
    (isAsk : Bool) : 0 ≤ bookTotals entries m price isAsk := by
  have h := share_nonneg m price isAsk
  unfold bookTotals
  refine Prod.mk_le_mk.mpr ⟨?_, Prod.mk_le_mk.mpr ⟨?_, ?_⟩⟩
  · exact KVStore.sum_nonneg fun k e _ => (h k e).1
  · exact KVStore.sum_nonneg fun k e _ => (h k e).2.1
  · exact KVStore.sum_nonneg fun k e _ => (h k e).2.2

theorem bookTotals_set (h : entries.get k = none) (e : OrderBookEntry) :
    bookTotals (entries.set k e) m price isAsk
      = bookTotals entries m price isAsk + share m price isAsk k e := by
  simp only [bookTotals, KVStore.sum_set, KVStore.term, h, Option.elim_none, sub_zero]
  rfl

theorem bookTotals_replace (h : entries.get k = some e) (e' : OrderBookEntry) :
    bookTotals (entries.set k e') m price isAsk
      = bookTotals entries m price isAsk + (share m price isAsk k e' - share m price isAsk k e) := by
  simp only [bookTotals, KVStore.sum_set, KVStore.term_of_get h, sub_add_eq_add_sub, add_sub]
  rfl

theorem bookTotals_remove (h : entries.get k = some e) :
    bookTotals (entries.remove k) m price isAsk
      = bookTotals entries m price isAsk - share m price isAsk k e := by
  simp only [bookTotals, KVStore.sum_remove, KVStore.term_of_get h]
  rfl

theorem bookTotals_mono {entries' : KVStore (ℕ ×ₗ SortKey) OrderBookEntry}
    (h : ∀ k e, entries.get k = some e → entries'.get k = some e) :
    bookTotals entries m price isAsk ≤ bookTotals entries' m price isAsk := by
  have hshare := share_nonneg m price isAsk
  unfold bookTotals
  refine Prod.mk_le_mk.mpr ⟨?_, Prod.mk_le_mk.mpr ⟨?_, ?_⟩⟩
  · exact KVStore.sum_le_sum_of_subset (fun k e => (hshare k e).1) h
  · exact KVStore.sum_le_sum_of_subset (fun k e => (hshare k e).2.1) h
  · exact KVStore.sum_le_sum_of_subset (fun k e => (hshare k e).2.2) h

/-! ### Stored sums -/

variable {levels : Table PriceLevelAggregate.key} {T T' : ℕ → ℕ → Bool → ℤ × ℤ × ℤ}
  {pl pl' : PriceLevelAggregate} {base quote : ℕ} {sign : Sign} {delta : ℤ}

/-- The stored sums are those of `T`, and machine words. -/
structure Sums (levels : Table PriceLevelAggregate.key) (T : ℕ → ℕ → Bool → ℤ × ℤ × ℤ) : Prop
    extends Represents levels T where
  words : ∀ m price side, (levelOf levels m price).baseSum side ≤ maxUint64 ∧
    (levelOf levels m price).quoteSum side ≤ maxUint64

theorem applyMagDelta_word {cur mag n : ℕ} (h : applyMagDelta cur mag sign = .ok n)
    (hcur : cur ≤ maxUint64) (hmag : mag ≤ maxUint64) : n ≤ maxUint64 := by
  unfold applyMagDelta at h
  split at h
  · cases h
    exact hcur
  · split at h
    · cases h
    · cases h
      omega
  · split at h
    · cases h
    · cases h
      omega

theorem checkedQuote_ok (h : checkedQuote base price = .ok quote) : quote = base * price := by
  unfold checkedQuote at h
  dsimp only at h
  split at h
  · rename_i hzero
    cases h
    rcases hzero with rfl | rfl <;> simp
  · split at h
    · cases h
    · split at h
      · cases h
      · cases h
        rfl

theorem checkedQuote_word (h : checkedQuote base price = .ok quote) : quote ≤ maxUint64 := by
  unfold checkedQuote at h
  dsimp only at h
  split at h
  · cases h
    exact Nat.zero_le _
  · split at h
    · cases h
    · rename_i hlimit
      split at h
      · cases h
      · cases h
        exact (not_lt.mp hlimit).trans (by decide)

theorem checkedQuote_part {part : ℕ} (h : checkedQuote base price = .ok quote)
    (hle : part ≤ base) : checkedQuote part price = .ok (part * price) := by
  have hmul : part * price ≤ base * price := Nat.mul_le_mul_right _ hle
  unfold checkedQuote at h ⊢
  dsimp only at h ⊢
  split at h
  · rename_i hzero
    have hpart : part = 0 ∨ price = 0 := by omega
    rw [if_pos hpart]
    rcases hpart with rfl | rfl <;> simp
  · split at h
    · cases h
    · split at h
      · cases h
      · split
        · rename_i hzero
          rcases hzero with rfl | rfl <;> simp
        · rw [if_neg (by omega), if_neg (by omega)]

theorem adjust_words (h : pl.adjust isAsk base quote sign delta = .ok pl')
    (hbase : base ≤ maxUint64) (hquote : quote ≤ maxUint64)
    (hpl : ∀ side, pl.baseSum side ≤ maxUint64 ∧ pl.quoteSum side ≤ maxUint64) (side : Bool) :
    pl'.baseSum side ≤ maxUint64 ∧ pl'.quoteSum side ≤ maxUint64 := by
  cases isAsk
  all_goals
    obtain ⟨b, hb, h⟩ := except_bind_ok.mp h
    obtain ⟨q, hq, h⟩ := except_bind_ok.mp h
    obtain ⟨c, hc, h⟩ := except_bind_ok.mp h
    cases h
  · cases side
    · exact ⟨applyMagDelta_word hb (hpl false).1 hbase, applyMagDelta_word hq (hpl false).2 hquote⟩
    · exact hpl true
  · cases side
    · exact hpl false
    · exact ⟨applyMagDelta_word hb (hpl true).1 hbase, applyMagDelta_word hq (hpl true).2 hquote⟩

theorem Sums.adjust (h : Sums levels T)
    (hadj : (levelOf levels m price).adjust isAsk base quote sign delta = .ok pl)
    (hbase : base ≤ maxUint64) (hquote : quote ≤ maxUint64)
    (hT : ∀ m' p' side, T' m' p' side = T m' p' side +
      if m' = m ∧ p' = price ∧ side = isAsk then (sign.apply base, sign.apply quote, delta)
      else 0) : Sums (writeLevel levels pl) T' where
  toRepresents := by
    have heq : T' = fun m' p' side => T m' p' side +
        if m' = m ∧ p' = price ∧ side = isAsk then (sign.apply base, sign.apply quote, delta)
        else 0 := by
      funext m' p' side
      exact hT m' p' side
    rw [heq]
    exact h.toRepresents.adjust hadj
  words m' p' side := by
    obtain ⟨hkey, -⟩ := adjust_ok hadj
    rw [levelOf_key] at hkey
    by_cases hk : toLex (m', p') = pl.key
    · obtain ⟨rfl, rfl⟩ := Prod.mk.inj (toLex.injective (hk.trans hkey))
      rw [levelOf_writeLevel hkey]
      exact adjust_words hadj hbase hquote (h.words m' p') side
    · rw [levelOf_writeLevel_ne hk]
      exact h.words m' p' side

theorem Sums.shrinks (h : Sums levels T) (hsign : sign ≠ .plus) (hdelta : delta ≤ 0)
    (hfits : 0 ≤ T m price isAsk + (sign.apply base, sign.apply quote, delta)) :
    ∃ pl, (levelOf levels m price).adjust isAsk base quote sign delta = .ok pl := by
  rw [← h.totals] at hfits
  obtain ⟨hb, hq, hc⟩ := hfits
  have hword := h.word m price isAsk
  exact adjust_shrinks hsign hb hq hc (by omega)

/-! ### The orders that rest -/

/-- An order is on the book if its status says so and it is not a trigger that is in hand. -/
def Order.shown (held : Option ℕ) (o : Order) : Bool :=
  o.status.isResting && decide (held ≠ some o.orderIndex)

def restingEntry (held : Option ℕ) (o : Order) : Option ((ℕ ×ₗ SortKey) × OrderBookEntry) :=
  if o.shown held then some (toLex (o.marketIndex, o.sortKey), o.toEntry) else none

def restingPointer (held : Option ℕ) (o : Order) : Option ((ℕ ×ₗ ℕ) × SortKey) :=
  if o.shown held then some (toLex (o.marketIndex, o.orderIndex), o.sortKey) else none

/-- The orders on the book have their entries and their pointers, nothing else has, and the sums
are those of the entries. -/
structure Pages.Shows (p : Pages) (orders : Table Order.orderIndex) (held : Option ℕ) : Prop where
  entries : IsIndex orders (restingEntry held) p.entries
  pointers : IsIndex orders (restingPointer held) p.pointers
  sums : Sums p.levels (bookTotals p.entries)

variable {p p' : Pages} {orders : Table Order.orderIndex} {held held' : Option ℕ} {i : ℕ}

theorem Order.shown_eq_true : o.shown held = true ↔
    o.status.isResting = true ∧ held ≠ some o.orderIndex := by
  simp [Order.shown]

theorem restingEntry_eq_some : restingEntry held o = some (k, e) ↔
    o.shown held = true ∧ toLex (o.marketIndex, o.sortKey) = k ∧ o.toEntry = e := by
  simp [restingEntry]

theorem restingPointer_eq_some {k : ℕ ×ₗ ℕ} {sk : SortKey} : restingPointer held o = some (k, sk) ↔
    o.shown held = true ∧ toLex (o.marketIndex, o.orderIndex) = k ∧ o.sortKey = sk := by
  simp [restingPointer]

/-- No other order has the place on the book that `o` would have. -/
def Unclaimed (orders : Table Order.orderIndex) (held : Option ℕ) (o : Order) : Prop :=
  ∀ o' : Order, orders.get o'.orderIndex = some o' → o'.shown held = true →
    o'.marketIndex = o.marketIndex → o'.sortKey = o.sortKey → o'.orderIndex = o.orderIndex

/-- Outside the order that is written, the same orders are in hand. -/
def SameHand (i : ℕ) (held held' : Option ℕ) : Prop :=
  ∀ j, j ≠ i → (held' = some j ↔ held = some j)

theorem SameHand.shown (h : SameHand i held held') (hi : o.orderIndex ≠ i) :
    o.shown held' = o.shown held := by
  rw [Order.shown, Order.shown, decide_eq_decide.mpr (not_congr (h _ hi))]

theorem bind_hidden {α : Type} {f : Order → Option α}
    (hf : ∀ o : Order, o.shown held = false → f o = none)
    (h : ∀ o, orders.get i = some o → o.shown held = false) : (orders.get i).bind f = none := by
  rcases ho : orders.get i with _ | o
  · rfl
  · exact hf o (h o ho)

theorem restingEntry_hidden (h : o.shown held = false) : restingEntry held o = none :=
  if_neg (by rw [h]; decide)

theorem restingPointer_hidden (h : o.shown held = false) : restingPointer held o = none :=
  if_neg (by rw [h]; decide)

namespace Pages.Shows

theorem empty : Pages.Shows ⟨.empty, .empty, .empty⟩ .empty held where
  entries := .empty
  pointers := .empty
  sums := by
    refine ⟨⟨fun m price side => ?_, fun k pl h => ?_, fun m price side => ?_⟩,
      fun m price side => ?_⟩
    · cases side <;> rfl
    · simp at h
    · cases side <;> exact Nat.zero_le _
    · cases side <;> exact ⟨Nat.zero_le _, Nat.zero_le _⟩

theorem find_shown (h : p.Shows orders held) (ho : orders.get i = some o)
    (hshown : o.shown held = true) : p.find o.marketIndex i = some (o.sortKey, o.toEntry) := by
  obtain rfl := Table.key_of_get ho
  exact Pages.find_eq_some.mpr
    ⟨h.pointers.get ho (restingPointer_eq_some.mpr ⟨hshown, rfl, rfl⟩),
      h.entries.get ho (restingEntry_eq_some.mpr ⟨hshown, rfl, rfl⟩)⟩

theorem find_hidden (h : p.Shows orders held)
    (hhidden : ∀ o, orders.get i = some o → o.shown held = false) (m : ℕ) : p.find m i = none := by
  have hpointer : p.pointers.get (toLex (m, i)) = none := by
    refine h.pointers.get_none fun r sk hr hentry => ?_
    obtain ⟨hshown, hkey, -⟩ := restingPointer_eq_some.mp hentry
    obtain ⟨-, rfl⟩ := Prod.mk.inj (toLex.injective hkey)
    exact absurd (hhidden r hr) (by rw [hshown]; decide)
  simp [Pages.find, hpointer]

theorem eq (h : p.Shows orders held) (h' : p'.Shows orders held) : p = p' := by
  have hentries : p.entries = p'.entries := h.entries.eq h'.entries
  have hlevels : p.levels = p'.levels :=
    h.sums.toRepresents.eq (hentries ▸ h'.sums.toRepresents)
  cases p
  cases p'
  simp only [Pages.mk.injEq]
  exact ⟨hentries, h.pointers.eq h'.pointers, hlevels⟩

theorem write (h : p.Shows orders held) (r : Order) (hheld : SameHand r.orderIndex held held')
    (hfree : r.shown held' = true → Unclaimed orders held r)
    (hentries : p'.entries = p.entries.replace
      ((orders.get r.orderIndex).bind (restingEntry held)) (restingEntry held' r))
    (hpointers : p'.pointers = p.pointers.replace
      ((orders.get r.orderIndex).bind (restingPointer held)) (restingPointer held' r))
    (hsums : Sums p'.levels (bookTotals p'.entries)) : p'.Shows (orders.put r) held' where
  entries := by
    rw [hentries]
    refine h.entries.put r (fun o ho => ?_) fun o k w w' ho hr hentry => ?_
    · rw [restingEntry, restingEntry, hheld.shown ho]
    · obtain ⟨hshown, hkey, -⟩ := restingEntry_eq_some.mp hr
      obtain ⟨hshown', hkey', -⟩ := restingEntry_eq_some.mp hentry
      obtain ⟨hmarket, hsk⟩ := Prod.mk.inj (toLex.injective (hkey'.trans hkey.symm))
      exact hfree hshown o ho hshown' hmarket hsk
  pointers := by
    rw [hpointers]
    refine h.pointers.put r (fun o ho => ?_) fun o k w w' ho hr hentry => ?_
    · rw [restingPointer, restingPointer, hheld.shown ho]
    · obtain ⟨-, hkey, -⟩ := restingPointer_eq_some.mp hr
      obtain ⟨-, hkey', -⟩ := restingPointer_eq_some.mp hentry
      exact (Prod.mk.inj (toLex.injective (hkey'.trans hkey.symm))).2
  sums := hsums

theorem aside (h : p.Shows orders held) (r : Order) (hheld : SameHand r.orderIndex held held')
    (hold : ∀ o, orders.get r.orderIndex = some o → o.shown held = false)
    (hnew : r.shown held' = false) : p.Shows (orders.put r) held' := by
  refine h.write r hheld (fun hshown => absurd hshown (by rw [hnew]; decide)) ?_ ?_ h.sums
  · rw [bind_hidden (fun _ => restingEntry_hidden) hold, restingEntry_hidden hnew]
    rfl
  · rw [bind_hidden (fun _ => restingPointer_hidden) hold, restingPointer_hidden hnew]
    rfl

theorem key_free (h : p.Shows orders held) (hfree : Unclaimed orders held r)
    (hold : ∀ o, orders.get r.orderIndex = some o → o.shown held = false) :
    p.entries.get (toLex (r.marketIndex, r.sortKey)) = none := by
  refine h.entries.get_none fun o w ho hentry => ?_
  obtain ⟨hshown, hkey, -⟩ := restingEntry_eq_some.mp hentry
  obtain ⟨hmarket, hsk⟩ := Prod.mk.inj (toLex.injective hkey)
  have hidx : o.orderIndex = r.orderIndex := hfree o ho hshown hmarket hsk
  exact absurd (hold o (hidx ▸ ho)) (by rw [hshown]; decide)

theorem enter (h : p.Shows orders held) (hheld : SameHand r.orderIndex held held')
    (hold : ∀ o, orders.get r.orderIndex = some o → o.shown held = false)
    (hnew : r.shown held' = true) (hfree : Unclaimed orders held r)
    (hbase : r.remainingBaseAmount ≤ maxUint64)
    (hquote : checkedQuote r.remainingBaseAmount r.price = .ok quote) (hword : quote ≤ maxUint64)
    (hadj : (levelOf p.levels r.marketIndex r.price).adjust r.isAsk r.remainingBaseAmount quote
      .plus 1 = .ok pl) :
    ((p.insert r.marketIndex r.sortKey r.toEntry).write pl).Shows (orders.put r) held' := by
  refine h.write r hheld (fun _ => hfree) ?_ ?_ ?_
  · rw [bind_hidden (fun _ => restingEntry_hidden) hold, restingEntry, if_pos hnew]
    rfl
  · rw [bind_hidden (fun _ => restingPointer_hidden) hold, restingPointer, if_pos hnew]
    rfl
  · refine h.sums.adjust hadj hbase hword fun m' p' side => ?_
    show bookTotals (p.entries.set _ _) m' p' side = _
    rw [bookTotals_set (h.key_free hfree hold), share_toEntry, checkedQuote_ok hquote]
    simp only [Sign.apply, Nat.cast_mul]

theorem get_shown (h : p.Shows orders held) (ho : orders.get o.orderIndex = some o)
    (hshown : o.shown held = true) :
    p.entries.get (toLex (o.marketIndex, o.sortKey)) = some o.toEntry :=
  h.entries.get ho (restingEntry_eq_some.mpr ⟨hshown, rfl, rfl⟩)

theorem sums_without (h : p.Shows orders held) (ho : orders.get o.orderIndex = some o)
    (hshown : o.shown held = true) :
    0 ≤ bookTotals p.entries o.marketIndex o.price o.isAsk
      - ((o.remainingBaseAmount : ℤ), (o.remainingBaseAmount : ℤ) * o.price, (1 : ℤ)) := by
  have hrest := bookTotals_nonneg (p.entries.remove (toLex (o.marketIndex, o.sortKey)))
    o.marketIndex o.price o.isAsk
  rwa [bookTotals_remove (h.get_shown ho hshown), share_toEntry, if_pos ⟨rfl, rfl, rfl⟩] at hrest

theorem withdrawn (h : p.Shows orders held) (ho : orders.get o.orderIndex = some o)
    (hshown : o.shown held = true) (hidx : r.orderIndex = o.orderIndex)
    (hnew : r.shown held = false)
    (hentries : p'.entries = p.entries.remove (toLex (o.marketIndex, o.sortKey)))
    (hpointers : p'.pointers = p.pointers.remove (toLex (o.marketIndex, o.orderIndex)))
    (hsums : Sums p'.levels (bookTotals p'.entries)) : p'.Shows (orders.put r) held := by
  refine h.write r (fun _ _ => Iff.rfl) (fun hs => absurd hs (by rw [hnew]; decide)) ?_ ?_ hsums
  · rw [hidx, ho, Option.bind_some, restingEntry, if_pos hshown, restingEntry_hidden hnew]
    exact hentries
  · rw [hidx, ho, Option.bind_some, restingPointer, if_pos hshown, restingPointer_hidden hnew]
    exact hpointers

theorem leave (h : p.Shows orders held) (ho : orders.get o.orderIndex = some o)
    (hshown : o.shown held = true) (hbase : o.remainingBaseAmount ≤ maxUint64)
    (hquote : checkedQuote o.remainingBaseAmount o.price = .ok quote)
    (hword : quote ≤ maxUint64) :
    ∃ pl, (levelOf p.levels o.marketIndex o.price).adjust o.isAsk o.remainingBaseAmount quote
        .minus (-1) = .ok pl ∧
      ∀ r : Order, r.orderIndex = o.orderIndex → r.shown held = false →
        ((p.drop o.marketIndex o.orderIndex o.sortKey).write pl).Shows (orders.put r) held := by
  obtain rfl := checkedQuote_ok hquote
  have hfits : 0 ≤ bookTotals p.entries o.marketIndex o.price o.isAsk
      + (Sign.minus.apply o.remainingBaseAmount,
        Sign.minus.apply (o.remainingBaseAmount * o.price), -1) := by
    simpa [Sign.apply, sub_eq_add_neg] using h.sums_without ho hshown
  obtain ⟨pl, hadj⟩ := h.sums.shrinks (by decide) (by decide) hfits
  refine ⟨pl, hadj, fun r hidx hnew => h.withdrawn ho hshown hidx hnew rfl rfl ?_⟩
  refine h.sums.adjust hadj hbase hword fun m' p' side => ?_
  show bookTotals (p.entries.remove _) m' p' side = _
  rw [bookTotals_remove (h.get_shown ho hshown), share_toEntry, sub_eq_add_neg]
  congr 1
  split
  · simp [Sign.apply]
  · exact neg_zero

theorem sums_part (h : p.Shows orders held) (ho : orders.get o.orderIndex = some o)
    (hshown : o.shown held = true) {part : ℕ} (hle : part ≤ o.remainingBaseAmount) :
    ∃ pl, (levelOf p.levels o.marketIndex o.price).adjust o.isAsk part (part * o.price) .minus 0
      = .ok pl := by
  have hfits : 0 ≤ bookTotals p.entries o.marketIndex o.price o.isAsk
      + (Sign.minus.apply part, Sign.minus.apply (part * o.price), 0) := by
    obtain ⟨hb, hq, hc⟩ := h.sums_without ho hshown
    have hmul : part * o.price ≤ o.remainingBaseAmount * o.price := Nat.mul_le_mul_right _ hle
    simp only [Prod.fst_zero, Prod.snd_zero, Prod.fst_sub, Prod.snd_sub] at hb hq hc
    refine ⟨?_, ?_, ?_⟩
    all_goals
      simp only [Prod.fst_zero, Prod.snd_zero, Prod.fst_add, Prod.snd_add, Sign.apply]
      push_cast at *
      omega
  exact h.sums.shrinks (by decide) le_rfl hfits

theorem shrink (h : p.Shows orders held) (ho : orders.get o.orderIndex = some o)
    (hshown : o.shown held = true) {part : ℕ} (hle : part ≤ o.remainingBaseAmount)
    (hbase : part ≤ maxUint64) (hword : part * o.price ≤ maxUint64)
    (hadj : (levelOf p.levels o.marketIndex o.price).adjust o.isAsk part (part * o.price) .minus 0
      = .ok pl) {st : OrderStatus} (hst : st.isResting = true) :
    ({ p.write pl with
        entries := p.entries.set (toLex (o.marketIndex, o.sortKey))
          { o.toEntry with remainingBaseAmount := o.remainingBaseAmount - part } } : Pages).Shows
      (orders.put { o with remainingBaseAmount := o.remainingBaseAmount - part, status := st })
      held := by
  set r : Order := { o with remainingBaseAmount := o.remainingBaseAmount - part, status := st }
  have hnew : r.shown held = true :=
    Order.shown_eq_true.mpr ⟨hst, (Order.shown_eq_true.mp hshown).2⟩
  refine h.write r (fun _ _ => Iff.rfl) (fun _ o' ho' hshown' hmarket hsk => ?_) ?_ ?_ ?_
  · exact h.entries.unique o' o _ _ _ ho' ho (restingEntry_eq_some.mpr ⟨hshown', rfl, rfl⟩)
      (restingEntry_eq_some.mpr ⟨hshown, congrArg toLex (Prod.ext hmarket.symm hsk.symm), rfl⟩)
  · rw [show r.orderIndex = o.orderIndex from rfl, ho, Option.bind_some, restingEntry, restingEntry,
      if_pos hshown, if_pos hnew]
    exact (KVStore.replace_some_some _ _ _ _).symm
  · have hsame := h.pointers.replace_same ho
    rw [restingPointer, if_pos hshown] at hsame
    rw [show r.orderIndex = o.orderIndex from rfl, ho, Option.bind_some, restingPointer,
      restingPointer, if_pos hshown, if_pos hnew]
    exact hsame.symm
  · refine h.sums.adjust hadj hbase hword fun m' p' side => ?_
    show bookTotals (p.entries.set _ _) m' p' side = _
    rw [bookTotals_replace (h.get_shown ho hshown)]
    congr 1
    show share m' p' side (toLex (r.marketIndex, r.sortKey)) r.toEntry - _ = _
    rw [share_toEntry, share_toEntry]
    have hrem : (r.remainingBaseAmount : ℤ) = o.remainingBaseAmount - part := Nat.cast_sub hle
    by_cases hside : m' = o.marketIndex ∧ p' = o.price ∧ side = o.isAsk
    · rw [if_pos hside, if_pos hside, if_pos hside, hrem]
      simp only [Sign.apply, Prod.mk_sub_mk, Prod.mk.injEq, Nat.cast_mul]
      refine ⟨by ring, ?_, sub_self _⟩
      show ((o.remainingBaseAmount : ℤ) - part) * o.price - _ = _
      ring
    · rw [if_neg hside, if_neg hside, if_neg hside, sub_zero]

theorem drain (h : p.Shows orders held) (ho : orders.get o.orderIndex = some o)
    (hshown : o.shown held = true) (hbase : o.remainingBaseAmount ≤ maxUint64)
    (hword : o.remainingBaseAmount * o.price ≤ maxUint64) :
    ∃ pl pl', (levelOf p.levels o.marketIndex o.price).adjust o.isAsk o.remainingBaseAmount
        (o.remainingBaseAmount * o.price) .minus 0 = .ok pl ∧
      pl.adjust o.isAsk 0 0 .zero (-1) = .ok pl' ∧
      ∀ r : Order, r.orderIndex = o.orderIndex → r.shown held = false →
        (((p.write pl).drop o.marketIndex o.orderIndex o.sortKey).write pl').Shows
          (orders.put r) held := by
  obtain ⟨pl, hadj⟩ := h.sums_part ho hshown le_rfl
  -- between the two steps the price counts an order that holds nothing
  have hbetween := h.sums.adjust hadj hbase hword fun _ _ _ => rfl
  have hlevel : levelOf (writeLevel p.levels pl) o.marketIndex o.price = pl :=
    levelOf_writeLevel ((adjust_ok hadj).1.trans (levelOf_key _ _ _))
  have hfits : 0 ≤ (bookTotals p.entries o.marketIndex o.price o.isAsk +
      if o.marketIndex = o.marketIndex ∧ o.price = o.price ∧ o.isAsk = o.isAsk then
        (Sign.minus.apply o.remainingBaseAmount,
          Sign.minus.apply (o.remainingBaseAmount * o.price), (0 : ℤ)) else 0)
      + (Sign.zero.apply 0, Sign.zero.apply 0, -1) := by
    rw [if_pos ⟨rfl, rfl, rfl⟩, add_assoc]
    simpa [Sign.apply, sub_eq_add_neg] using h.sums_without ho hshown
  obtain ⟨pl', hadj'⟩ := hbetween.shrinks (by decide) (by decide) hfits
  refine ⟨pl, pl', hadj, hlevel ▸ hadj', fun r hidx hnew => ?_⟩
  refine h.withdrawn ho hshown hidx hnew rfl rfl ?_
  refine hbetween.adjust hadj' (Nat.zero_le _) (Nat.zero_le _) fun m' p' side => ?_
  show bookTotals (p.entries.remove _) m' p' side = _
  rw [bookTotals_remove (h.get_shown ho hshown), share_toEntry, sub_eq_add_neg, add_assoc]
  congr 1
  split
  · simp [Sign.apply]
  · simp

end Pages.Shows

end PerpDex
