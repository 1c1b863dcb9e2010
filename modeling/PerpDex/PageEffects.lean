/-
Entries, pointers and sums per price as the functions of the order book write them.

* `Pages`, `pagesOf` — the three stores behind the book of a market;
* `Represents` — the stored sums are those of a function of market, side and price.

A fill that drains an entry adjusts its price twice, and between the two calls the sums belong to no set
of entries.  They are therefore followed as a function of their own.
-/
import PerpDex.BookEffects

namespace PerpDex

open Txn

/-! ### The sums of a price -/

namespace PriceLevelAggregate

def baseSum (pl : PriceLevelAggregate) (isAsk : Bool) : ℕ :=
  if isAsk then pl.askBaseSum else pl.bidBaseSum

def quoteSum (pl : PriceLevelAggregate) (isAsk : Bool) : ℕ :=
  if isAsk then pl.askQuoteSum else pl.bidQuoteSum

def count (pl : PriceLevelAggregate) (isAsk : Bool) : ℕ :=
  if isAsk then pl.askCount else pl.bidCount

def totals (pl : PriceLevelAggregate) (isAsk : Bool) : ℤ × ℤ × ℤ :=
  (pl.baseSum isAsk, pl.quoteSum isAsk, pl.count isAsk)

end PriceLevelAggregate

/-- An amount with the sign of a change. -/
def Sign.apply : Sign → ℕ → ℤ
  | .plus, n => n
  | .zero, _ => 0
  | .minus, n => -n

variable {pl pl' : PriceLevelAggregate} {isAsk : Bool} {base quote : ℕ} {sign : Sign} {delta : ℤ}

theorem PriceLevelAggregate.isEmpty_of_totals (h : ∀ isAsk, pl.totals isAsk = 0) :
    pl.isEmpty = true := by
  have hask := h true
  have hbid := h false
  simp only [PriceLevelAggregate.totals, PriceLevelAggregate.baseSum, PriceLevelAggregate.quoteSum,
    PriceLevelAggregate.count, Prod.ext_iff, Prod.fst_zero, Prod.snd_zero, if_true, Nat.cast_eq_zero]
    at hask hbid
  simp_all [PriceLevelAggregate.isEmpty]

theorem PriceLevelAggregate.eq_of_totals (hkey : pl.key = pl'.key)
    (h : ∀ isAsk, pl.totals isAsk = pl'.totals isAsk) : pl = pl' := by
  obtain ⟨hm, hp⟩ := Prod.mk.inj (toLex.injective hkey)
  have hask := h true
  have hbid := h false
  simp only [PriceLevelAggregate.totals, PriceLevelAggregate.baseSum, PriceLevelAggregate.quoteSum,
    PriceLevelAggregate.count, if_true, Bool.false_eq_true, if_false, Prod.mk.injEq, Nat.cast_inj]
    at hask hbid
  cases pl
  cases pl'
  simp_all

theorem applyMagDelta_ok {cur mag n : ℕ} (h : applyMagDelta cur mag sign = .ok n) :
    (n : ℤ) = cur + sign.apply mag := by
  cases sign with
  | zero =>
    cases h
    simp [Sign.apply]
  | plus =>
    simp only [applyMagDelta] at h
    split at h
    · cases h
    · cases h
      simp [Sign.apply]
  | minus =>
    simp only [applyMagDelta] at h
    split at h
    · cases h
    · cases h
      simp only [Sign.apply]
      omega

theorem applyCountDelta_ok {cur n : ℕ} (h : applyCountDelta cur delta = .ok n) :
    (n : ℤ) = cur + delta ∧ n ≤ maxUint32 := by
  simp only [applyCountDelta] at h
  split at h
  · cases h
  · split at h
    · cases h
    · cases h
      omega

theorem adjust_ok (h : pl.adjust isAsk base quote sign delta = .ok pl') :
    pl'.key = pl.key ∧ pl'.totals isAsk
        = pl.totals isAsk + (sign.apply base, sign.apply quote, delta) ∧
      pl'.totals (!isAsk) = pl.totals (!isAsk) ∧ pl'.count isAsk ≤ maxUint32 ∧
      pl'.count (!isAsk) = pl.count (!isAsk) := by
  cases isAsk with
  | true =>
    simp only [PriceLevelAggregate.adjust, if_true, except_bind_ok] at h
    obtain ⟨b, hb, q, hq, n, hn, h⟩ := h
    cases h
    obtain ⟨hn, hword⟩ := applyCountDelta_ok hn
    refine ⟨rfl, ?_, rfl, hword, rfl⟩
    simp [PriceLevelAggregate.totals, PriceLevelAggregate.baseSum, PriceLevelAggregate.quoteSum,
      PriceLevelAggregate.count, applyMagDelta_ok hb, applyMagDelta_ok hq, hn]
  | false =>
    simp only [PriceLevelAggregate.adjust, Bool.false_eq_true, if_false, except_bind_ok] at h
    obtain ⟨b, hb, q, hq, n, hn, h⟩ := h
    cases h
    obtain ⟨hn, hword⟩ := applyCountDelta_ok hn
    refine ⟨rfl, ?_, rfl, hword, rfl⟩
    simp [PriceLevelAggregate.totals, PriceLevelAggregate.baseSum, PriceLevelAggregate.quoteSum,
      PriceLevelAggregate.count, applyMagDelta_ok hb, applyMagDelta_ok hq, hn]

theorem applyMagDelta_fits {cur mag : ℕ} (hsign : sign ≠ .plus) (h : 0 ≤ cur + sign.apply mag) :
    ∃ n, applyMagDelta cur mag sign = .ok n := by
  cases sign with
  | zero => exact ⟨cur, rfl⟩
  | plus => exact absurd rfl hsign
  | minus =>
    refine ⟨cur - mag, if_neg ?_⟩
    simp only [Sign.apply] at h
    omega

theorem applyCountDelta_fits {cur : ℕ} (h : 0 ≤ cur + delta) (hword : cur + delta ≤ maxUint32) :
    ∃ n, applyCountDelta cur delta = .ok n := by
  refine ⟨(cur + delta).toNat, ?_⟩
  rw [applyCountDelta, if_neg (by omega), if_neg (by omega)]

theorem adjust_shrinks (hsign : sign ≠ .plus) (hbase : 0 ≤ pl.baseSum isAsk + sign.apply base)
    (hquote : 0 ≤ pl.quoteSum isAsk + sign.apply quote) (hcount : 0 ≤ pl.count isAsk + delta)
    (hword : pl.count isAsk + delta ≤ maxUint32) :
    ∃ pl', pl.adjust isAsk base quote sign delta = .ok pl' := by
  obtain ⟨b, hb⟩ := applyMagDelta_fits hsign hbase
  obtain ⟨q, hq⟩ := applyMagDelta_fits hsign hquote
  obtain ⟨n, hn⟩ := applyCountDelta_fits hcount hword
  cases isAsk with
  | true =>
    refine ⟨{ pl with askBaseSum := b, askQuoteSum := q, askCount := n }, ?_⟩
    simp only [PriceLevelAggregate.adjust, if_true, except_bind_ok]
    exact ⟨b, hb, q, hq, n, hn, rfl⟩
  | false =>
    refine ⟨{ pl with bidBaseSum := b, bidQuoteSum := q, bidCount := n }, ?_⟩
    simp only [PriceLevelAggregate.adjust, Bool.false_eq_true, if_false, except_bind_ok]
    exact ⟨b, hb, q, hq, n, hn, rfl⟩

theorem adjust_grows (hbase : pl.baseSum isAsk + base ≤ maxUint64)
    (hquote : pl.quoteSum isAsk + quote ≤ maxUint64) (hcount : pl.count isAsk + 1 ≤ maxUint32) :
    ∃ pl', pl.adjust isAsk base quote .plus 1 = .ok pl' := by
  have hmag : ∀ {cur mag : ℕ}, cur + mag ≤ maxUint64 →
      applyMagDelta cur mag .plus = .ok (cur + mag) := fun h => if_neg (by omega)
  have hone : ∀ {cur : ℕ}, cur + 1 ≤ maxUint32 → ∃ n, applyCountDelta cur 1 = .ok n :=
    fun h => applyCountDelta_fits (by omega) (by omega)
  obtain ⟨n, hn⟩ := hone hcount
  cases isAsk
  · exact ⟨_, except_bind_ok.mpr ⟨_, hmag hbase, except_bind_ok.mpr ⟨_, hmag hquote,
      except_bind_ok.mpr ⟨n, hn, rfl⟩⟩⟩⟩
  · exact ⟨_, except_bind_ok.mpr ⟨_, hmag hbase, except_bind_ok.mpr ⟨_, hmag hquote,
      except_bind_ok.mpr ⟨n, hn, rfl⟩⟩⟩⟩

/-! ### The sums of all prices -/

def levelOf (levels : Table PriceLevelAggregate.key) (m price : ℕ) : PriceLevelAggregate :=
  (levels.get (toLex (m, price))).getD { marketIndex := m, price := price }

/-- Sums that are all zero have no row. -/
def writeLevel (levels : Table PriceLevelAggregate.key) (pl : PriceLevelAggregate) :
    Table PriceLevelAggregate.key :=
  if pl.isEmpty then levels.remove pl.key else levels.put pl

variable {levels : Table PriceLevelAggregate.key} {m price : ℕ}

theorem levelOf_key (levels : Table PriceLevelAggregate.key) (m price : ℕ) :
    (levelOf levels m price).key = toLex (m, price) := by
  unfold levelOf
  rcases h : levels.get (toLex (m, price)) with _ | pl
  · rfl
  · exact Table.key_of_get h

theorem levelOf_of_get (h : levels.get (toLex (m, price)) = some pl) :
    levelOf levels m price = pl := by
  rw [levelOf, h, Option.getD_some]

theorem levelOf_of_none (h : levels.get (toLex (m, price)) = none) :
    levelOf levels m price = { marketIndex := m, price := price } := by
  rw [levelOf, h, Option.getD_none]

theorem levelOf_writeLevel (hkey : pl.key = toLex (m, price)) :
    levelOf (writeLevel levels pl) m price = pl := by
  unfold levelOf writeLevel
  split
  · rename_i hempty
    rw [Table.get_remove, if_pos hkey.symm, Option.getD_none]
    obtain ⟨hm, hp⟩ := Prod.mk.inj (toLex.injective hkey)
    cases pl
    simp only at hm hp
    simp only [PriceLevelAggregate.isEmpty, Bool.and_eq_true, beq_iff_eq] at hempty
    obtain ⟨⟨⟨⟨⟨rfl, rfl⟩, rfl⟩, rfl⟩, rfl⟩, rfl⟩ := hempty
    rw [hm, hp]
  · rw [← hkey, Table.get_put_self, Option.getD_some]

theorem levelOf_writeLevel_ne (hkey : toLex (m, price) ≠ pl.key) :
    levelOf (writeLevel levels pl) m price = levelOf levels m price := by
  unfold levelOf writeLevel
  split
  · rw [Table.get_remove, if_neg hkey]
  · rw [Table.get_put_ne _ hkey]

/-- The stored sums are those of `T`, and where they are all zero nothing is stored. -/
structure Represents (levels : Table PriceLevelAggregate.key) (T : ℕ → ℕ → Bool → ℤ × ℤ × ℤ) :
    Prop where
  totals : ∀ m price side, (levelOf levels m price).totals side = T m price side
  stored : ∀ k pl, levels.get k = some pl → pl.isEmpty = false
  word : ∀ m price side, (levelOf levels m price).count side ≤ maxUint32

theorem Represents.get_eq_none {T : ℕ → ℕ → Bool → ℤ × ℤ × ℤ} (h : Represents levels T) :
    levels.get (toLex (m, price)) = none ↔ ∀ side, T m price side = 0 := by
  constructor
  · intro hget side
    rw [← h.totals, levelOf_of_none hget]
    cases side <;> rfl
  · intro hzero
    rcases hget : levels.get (toLex (m, price)) with _ | pl
    · rfl
    · have hempty : pl.isEmpty = true := PriceLevelAggregate.isEmpty_of_totals fun side => by
        rw [← levelOf_of_get hget, h.totals, hzero]
      exact absurd hempty (by rw [h.stored _ pl hget]; decide)

theorem Represents.eq {levels' : Table PriceLevelAggregate.key} {T : ℕ → ℕ → Bool → ℤ × ℤ × ℤ}
    (h : Represents levels T) (h' : Represents levels' T) : levels = levels' := by
  refine Table.ext_get fun k => ?_
  obtain ⟨m, price⟩ := k
  have hnone : levels.get (toLex (m, price)) = none ↔ levels'.get (toLex (m, price)) = none :=
    h.get_eq_none.trans h'.get_eq_none.symm
  show levels.get (toLex (m, price)) = levels'.get (toLex (m, price))
  rcases hget : levels.get (toLex (m, price)) with _ | pl
  · exact (hnone.mp hget).symm
  · rcases hget' : levels'.get (toLex (m, price)) with _ | pl'
    · rw [hnone.mpr hget'] at hget
      cases hget
    · refine congrArg some (PriceLevelAggregate.eq_of_totals ?_ fun side => ?_)
      · rw [Table.key_of_get hget, Table.key_of_get hget']
      · rw [← levelOf_of_get hget, ← levelOf_of_get hget', h.totals, h'.totals]

theorem Represents.adjust {T : ℕ → ℕ → Bool → ℤ × ℤ × ℤ} (h : Represents levels T)
    (hadj : (levelOf levels m price).adjust isAsk base quote sign delta = .ok pl) :
    Represents (writeLevel levels pl) fun m' p' side => T m' p' side +
      if m' = m ∧ p' = price ∧ side = isAsk then (sign.apply base, sign.apply quote, delta)
      else 0 := by
  obtain ⟨hkey, hside, hother, hword, hcount⟩ := adjust_ok hadj
  rw [levelOf_key] at hkey
  refine ⟨fun m' p' side => ?_, fun k pl' hget => ?_, fun m' p' side => ?_⟩
  · by_cases hk : toLex (m', p') = pl.key
    · obtain ⟨rfl, rfl⟩ := Prod.mk.inj (toLex.injective (hk.trans hkey))
      rw [levelOf_writeLevel hkey]
      by_cases hs : side = isAsk
      · rw [if_pos ⟨rfl, rfl, hs⟩, hs, hside, h.totals]
      · have hs' : side = !isAsk := by cases side <;> cases isAsk <;> simp_all
        rw [if_neg fun hc => hs hc.2.2, hs', hother, h.totals, add_zero]
    · have hne : ¬ (m' = m ∧ p' = price ∧ side = isAsk) := by
        rintro ⟨rfl, rfl, -⟩
        exact hk hkey.symm
      rw [levelOf_writeLevel_ne hk, h.totals, if_neg hne, add_zero]
  · unfold writeLevel at hget
    split at hget
    · rw [Table.get_remove] at hget
      split at hget
      · cases hget
      · exact h.stored k pl' hget
    · rename_i hfull
      rw [Table.get_put] at hget
      split at hget
      · cases hget
        simpa using hfull
      · exact h.stored k pl' hget
  · by_cases hk : toLex (m', p') = pl.key
    · obtain ⟨rfl, rfl⟩ := Prod.mk.inj (toLex.injective (hk.trans hkey))
      rw [levelOf_writeLevel hkey]
      by_cases hs : side = isAsk
      · rw [hs]
        exact hword
      · have hs' : side = !isAsk := by cases side <;> cases isAsk <;> simp_all
        rw [hs', hcount]
        exact h.word _ _ _
    · rw [levelOf_writeLevel_ne hk]
      exact h.word _ _ _

/-! ### Entries, pointers and sums -/

structure Pages where
  entries : KVStore (ℕ ×ₗ SortKey) OrderBookEntry
  pointers : KVStore (ℕ ×ₗ ℕ) SortKey
  levels : Table PriceLevelAggregate.key

def pagesOf (s : State) : Pages where
  entries := s.book.orderBookEntries
  pointers := s.book.orderToSortKey
  levels := s.book.priceLevels

def SamePages (s t : State) : Prop := pagesOf t = pagesOf s

instance : IsPreorder State SamePages where
  refl _ := rfl
  trans _ _ _ h h' := Eq.trans h' h

variable {s t : State} {u : Unit} {e : Err} {entry : OrderBookEntry} {i : ℕ} {sk : SortKey}

theorem SameBook.pages (h : SameBook s t) : SamePages s t := by
  simp only [SamePages, pagesOf, h.book]

theorem unindexAccountOpenOrder_pages (o : Order) :
    Keeps SamePages (unindexAccountOpenOrder o) :=
  Keeps.bind Keeps.read fun _ => Keeps.bind (Keeps.write fun _ => rfl) fun _ =>
    Keeps.when fun _ => Keeps.bind Keeps.read fun _ => Keeps.bind Keeps.require fun _ =>
      Keeps.bind Keeps.require fun _ => Keeps.write fun _ => rfl

theorem indexOpenOrder_pages (o : Order) : Keeps SamePages (indexOpenOrder o) := by
  refine Keeps.bind (Keeps.when fun _ => Keeps.write fun _ => rfl) fun _ => Keeps.bind ?_ fun _ =>
    Keeps.when fun _ => Keeps.write fun _ => rfl
  exact Keeps.bind Keeps.read fun _ => Keeps.bind (Keeps.write fun _ => rfl) fun _ =>
    Keeps.when fun _ => Keeps.bind Keeps.read fun _ => Keeps.bind Keeps.require fun _ =>
      Keeps.bind Keeps.require fun _ => Keeps.write fun _ => rfl

theorem unindexOpenOrder_pages (o : Order) : Keeps SamePages (unindexOpenOrder o) :=
  Keeps.bind (Keeps.when fun _ => Keeps.write fun _ => rfl) fun _ =>
    Keeps.bind (unindexAccountOpenOrder_pages o) fun _ =>
      Keeps.when fun _ => Keeps.write fun _ => rfl

theorem closeOrder_pages (o : Order) (st : OrderStatus) : Keeps SamePages (closeOrder o st) :=
  Keeps.bind (unindexOpenOrder_pages _) fun _ => Keeps.bind (Keeps.write fun _ => rfl) fun _ =>
    Keeps.pure

theorem openTriggerOrder_pages (o : Order) : Keeps SamePages (openTriggerOrder o) :=
  Keeps.bind (Keeps.write fun _ => rfl) fun _ => Keeps.bind (indexOpenOrder_pages o) fun _ =>
    Keeps.write fun _ => rfl

theorem activateTrigger_pages (i : ℕ) : Keeps SamePages (activateTrigger i) :=
  Keeps.bind Keeps.read fun _ => Keeps.bind (Keeps.write fun _ => rfl) fun _ =>
    Keeps.bind (Keeps.when fun _ => Keeps.write fun _ => rfl) fun _ =>
      Keeps.bind (Keeps.write fun _ => rfl) fun _ => Keeps.pure

theorem adjustPriceLevel_run (hadj : (levelOf (pagesOf s).levels m price).adjust isAsk base quote
      sign delta = .ok pl) :
    ∃ t, (adjustPriceLevel m isAsk price base quote sign delta).run s = .ok () t ∧
      pagesOf t = { pagesOf s with levels := writeLevel (pagesOf s).levels pl } := by
  have hkey : pl.key = toLex (m, price) := (adjust_ok hadj).1.trans (levelOf_key _ _ _)
  have hread : (priceLevelOf s m price).adjust isAsk base quote sign delta = .ok pl := hadj
  rw [adjustPriceLevel, run_bind_read, hread]
  refine ⟨_, rfl, ?_⟩
  simp only [pagesOf, writeLevel, hkey]

theorem adjustPriceLevel_error (hadj : (levelOf (pagesOf s).levels m price).adjust isAsk base quote
      sign delta = .error e) :
    (adjustPriceLevel m isAsk price base quote sign delta).run s = .error e s := by
  have hread : (priceLevelOf s m price).adjust isAsk base quote sign delta = .error e := hadj
  rw [adjustPriceLevel, run_bind_read, hread]

/-- The pages with an entry and the pointer to it. -/
def Pages.insert (p : Pages) (m : ℕ) (sk : SortKey) (entry : OrderBookEntry) : Pages :=
  { p with
    entries := p.entries.set (toLex (m, sk)) entry
    pointers := p.pointers.set (toLex (m, entry.orderIndex)) sk }

/-- The pages without an entry and without the pointer to it. -/
def Pages.drop (p : Pages) (m i : ℕ) (sk : SortKey) : Pages :=
  { p with
    entries := p.entries.remove (toLex (m, sk))
    pointers := p.pointers.remove (toLex (m, i)) }

def Pages.write (p : Pages) (pl : PriceLevelAggregate) : Pages :=
  { p with levels := writeLevel p.levels pl }

def Pages.find (p : Pages) (m i : ℕ) : Option (SortKey × OrderBookEntry) := do
  let sk ← p.pointers.get (toLex (m, i))
  let entry ← p.entries.get (toLex (m, sk))
  return (sk, entry)

def State.enter (s : State) (m : ℕ) (sk : SortKey) (entry : OrderBookEntry) : State :=
  { s with book := { s.book with
    orderBookEntries := s.book.orderBookEntries.set (toLex (m, sk)) entry
    orderToSortKey := s.book.orderToSortKey.set (toLex (m, entry.orderIndex)) sk } }

def State.leave (s : State) (m i : ℕ) (sk : SortKey) : State :=
  { s with book := { s.book with
    orderBookEntries := s.book.orderBookEntries.remove (toLex (m, sk))
    orderToSortKey := s.book.orderToSortKey.remove (toLex (m, i)) } }

theorem Pages.find_eq_some {p : Pages} :
    p.find m i = some (sk, entry) ↔
      p.pointers.get (toLex (m, i)) = some sk ∧ p.entries.get (toLex (m, sk)) = some entry := by
  constructor
  · intro h
    obtain ⟨sk', hsk', h⟩ := Option.bind_eq_some_iff.mp h
    obtain ⟨entry', hentry', h⟩ := Option.bind_eq_some_iff.mp h
    cases h
    exact ⟨hsk', hentry'⟩
  · rintro ⟨hsk, hentry⟩
    exact Option.bind_eq_some_iff.mpr ⟨sk, hsk, Option.bind_eq_some_iff.mpr ⟨entry, hentry, rfl⟩⟩

theorem insertEntry_eq
    (hquote : checkedQuote entry.remainingBaseAmount entry.price = .ok quote) :
    (insertEntry m isAsk entry).run s = (adjustPriceLevel m isAsk entry.price
      entry.remainingBaseAmount quote .plus 1).run
        (s.enter m (sortableKey entry.price entry.nonce isAsk) entry) := by
  simp only [insertEntry, hquote, Txn.lift, run_bind_read, modifyBook, run_bind_write]
  rfl

theorem insertEntry_pages (h : (insertEntry m isAsk entry).run s = .ok u t) :
    ∃ quote pl, checkedQuote entry.remainingBaseAmount entry.price = .ok quote ∧
      (levelOf (pagesOf s).levels m entry.price).adjust isAsk entry.remainingBaseAmount quote
        .plus 1 = .ok pl ∧
      pagesOf t
        = ((pagesOf s).insert m (sortableKey entry.price entry.nonce isAsk) entry).write pl := by
  have hrun := h
  simp only [insertEntry, run_bind_lift_ok] at h
  obtain ⟨quote, hquote, -⟩ := h
  rw [insertEntry_eq hquote] at hrun
  set s₁ := s.enter m (sortableKey entry.price entry.nonce isAsk) entry with hs₁
  have hlevels : (pagesOf s₁).levels = (pagesOf s).levels := rfl
  rcases hadj : (levelOf (pagesOf s₁).levels m entry.price).adjust isAsk entry.remainingBaseAmount
      quote .plus 1 with e | pl
  · rw [adjustPriceLevel_error hadj] at hrun
    cases hrun
  · obtain ⟨t', ht', hpages⟩ := adjustPriceLevel_run hadj
    cases hrun.symm.trans ht'
    exact ⟨quote, pl, hquote, hlevels ▸ hadj, hpages⟩

theorem insertEntry_overflow
    (hquote : checkedQuote entry.remainingBaseAmount entry.price = .ok quote)
    (hadj : (levelOf (pagesOf s).levels m entry.price).adjust isAsk entry.remainingBaseAmount quote
      .plus 1 = .error e) :
    (insertEntry m isAsk entry).run s
      = .error e (s.enter m (sortableKey entry.price entry.nonce isAsk) entry) := by
  rw [insertEntry_eq hquote]
  exact adjustPriceLevel_error hadj

theorem dropEntry_run (s : State) (m i : ℕ) (sk : SortKey) :
    (dropEntry m i sk).run s = .ok () (s.leave m i sk) := rfl

theorem removeEntry_absent (h : (pagesOf s).find m i = none) :
    (removeEntry m isAsk i).run s = .ok () s := by
  have hfind : entryOf s m i = none := h
  rw [removeEntry, run_bind_read]
  simp only [hfind]
  rfl

theorem removeEntry_eq (h : (pagesOf s).find m i = some (sk, entry))
    (hquote : checkedQuote entry.remainingBaseAmount entry.price = .ok quote) :
    (removeEntry m isAsk i).run s = (adjustPriceLevel m isAsk entry.price
      entry.remainingBaseAmount quote .minus (-1)).run (s.leave m i sk) := by
  have hfind : entryOf s m i = some (sk, entry) := h
  rw [removeEntry, run_bind_read]
  simp only [hfind, dropEntry, bind_assoc, modifyBook, run_bind_write, hquote, Txn.lift,
    run_bind_read]
  rfl

theorem removeEntry_run (h : (pagesOf s).find m i = some (sk, entry))
    (hquote : checkedQuote entry.remainingBaseAmount entry.price = .ok quote)
    (hadj : (levelOf (pagesOf s).levels m entry.price).adjust isAsk entry.remainingBaseAmount quote
      .minus (-1) = .ok pl) :
    ∃ t, (removeEntry m isAsk i).run s = .ok () t ∧
      pagesOf t = ((pagesOf s).drop m i sk).write pl := by
  rw [removeEntry_eq h hquote]
  obtain ⟨t, ht, hpages⟩ := adjustPriceLevel_run (s := s.leave m i sk) hadj
  exact ⟨t, ht, hpages⟩

theorem shrinkEntryResidue_absent {delta : ℕ} (h : (pagesOf s).find m i = none) :
    (shrinkEntryResidue m isAsk i delta).run s = .error ⟨.collectionNotFound, ""⟩ s := by
  have hfind : entryOf s m i = none := h
  rw [shrinkEntryResidue, run_bind_read]
  simp only [hfind]

theorem shrinkEntryResidue_part {delta : ℕ} (h : (pagesOf s).find m i = some (sk, entry))
    (hlt : delta < entry.remainingBaseAmount)
    (hquote : checkedQuote delta entry.price = .ok quote)
    (hadj : (levelOf (pagesOf s).levels m entry.price).adjust isAsk delta quote .minus 0
      = .ok pl) :
    ∃ t, (shrinkEntryResidue m isAsk i delta).run s = .ok false t ∧
      pagesOf t = { (pagesOf s).write pl with
        entries := (pagesOf s).entries.set (toLex (m, sk))
          { entry with remainingBaseAmount := entry.remainingBaseAmount - delta } } := by
  have hfind : entryOf s m i = some (sk, entry) := h
  obtain ⟨s₁, h₁, hpages⟩ := adjustPriceLevel_run hadj
  have hrest : ¬ entry.remainingBaseAmount - delta = 0 := by omega
  refine ⟨{ s₁ with book := { s₁.book with
    orderBookEntries := s₁.book.orderBookEntries.set (toLex (m, sk))
      { entry with remainingBaseAmount := entry.remainingBaseAmount - delta } } }, ?_, ?_⟩
  · rw [shrinkEntryResidue, run_bind_read]
    simp only [hfind, Nat.min_eq_left hlt.le, hquote, Txn.lift, run_bind_read, if_neg hrest]
    exact run_bind_ok.mpr ⟨(), s₁, h₁, rfl⟩
  · have hentries : (pagesOf s₁).entries = (pagesOf s).entries := by rw [hpages]
    have hpointers : (pagesOf s₁).pointers = (pagesOf s).pointers := by rw [hpages]
    have hlevels : (pagesOf s₁).levels = writeLevel (pagesOf s).levels pl := by rw [hpages]
    show Pages.mk ((pagesOf s₁).entries.set _ _) (pagesOf s₁).pointers (pagesOf s₁).levels = _
    rw [hentries, hpointers, hlevels]
    rfl

theorem shrinkEntryResidue_all {delta : ℕ} (h : (pagesOf s).find m i = some (sk, entry))
    (hle : entry.remainingBaseAmount ≤ delta)
    (hquote : checkedQuote entry.remainingBaseAmount entry.price = .ok quote)
    (hadj : (levelOf (pagesOf s).levels m entry.price).adjust isAsk entry.remainingBaseAmount quote
      .minus 0 = .ok pl)
    (hadj' : pl.adjust isAsk 0 0 .zero (-1) = .ok pl') :
    ∃ t, (shrinkEntryResidue m isAsk i delta).run s = .ok true t ∧
      pagesOf t = (((pagesOf s).write pl).drop m i sk).write pl' := by
  have hfind : entryOf s m i = some (sk, entry) := h
  obtain ⟨s₁, h₁, hpages⟩ := adjustPriceLevel_run hadj
  have hkey : pl.key = toLex (m, entry.price) := (adjust_ok hadj).1.trans (levelOf_key _ _ _)
  have hlevel : levelOf (pagesOf (s₁.leave m i sk)).levels m entry.price = pl := by
    show levelOf (pagesOf s₁).levels m entry.price = pl
    rw [hpages]
    exact levelOf_writeLevel hkey
  obtain ⟨t, ht, hpages'⟩ := adjustPriceLevel_run (s := s₁.leave m i sk) (m := m)
    (show (levelOf _ m entry.price).adjust isAsk 0 0 .zero (-1) = .ok pl' by
      rw [hlevel]
      exact hadj')
  refine ⟨t, ?_, ?_⟩
  · rw [shrinkEntryResidue, run_bind_read]
    simp only [hfind, Nat.min_eq_right hle, Nat.sub_self, hquote, Txn.lift, run_bind_read, if_true]
    exact run_bind_ok.mpr ⟨(), s₁, h₁, run_bind_ok.mpr ⟨(), _, dropEntry_run s₁ m i sk,
      run_bind_ok.mpr ⟨(), t, ht, rfl⟩⟩⟩
  · rw [hpages']
    show ((pagesOf s₁).drop m i sk).write pl' = _
    rw [hpages]
    rfl

/-! ### Storing an order -/

theorem openOrder_pages {o : Order} (hst : o.status.isResting = true)
    (h : (openOrder o).run s = .ok u t) :
    ∃ market quote pl, getMarket o.marketIndex s = .ok market ∧
      checkedQuote o.remainingBaseAmount o.price = .ok quote ∧
      (levelOf (pagesOf s).levels o.marketIndex o.price).adjust o.isAsk o.remainingBaseAmount quote
        .plus 1 = .ok pl ∧
      pagesOf t = ((pagesOf s).insert o.marketIndex o.sortKey o.toEntry).write pl := by
  rw [openOrder, if_pos hst] at h
  simp only [run_bind_ok] at h
  obtain ⟨_, s₁, hlock, _, s₂, hinsert, _, s₃, hindex, hset⟩ := h
  obtain ⟨market, hmarket, -⟩ := run_bind_read_ok.mp hlock
  have hsame : pagesOf s₁ = pagesOf s := ((applySpotLockOnOpen_book o).ok hlock).pages
  obtain ⟨quote, pl, hquote, hadj, hpages⟩ := insertEntry_pages hinsert
  rw [hsame] at hadj hpages
  refine ⟨market, quote, pl, hmarket, hquote, hadj, ?_⟩
  have hindexed : pagesOf s₃ = pagesOf s₂ := (indexOpenOrder_pages o).ok hindex
  obtain rfl := modifyBook_ok hset
  exact hindexed.trans hpages

theorem openOrder_closed_pages {o : Order} (hst : o.status.isResting = false)
    (h : (openOrder o).run s = .ok u t) : pagesOf t = pagesOf s := by
  rw [openOrder, if_neg (by rw [hst]; decide)] at h
  obtain ⟨_, s₁, hunindex, hset⟩ := run_bind_ok.mp h
  have hsame : pagesOf s₁ = pagesOf s := (unindexOpenOrder_pages o).ok hunindex
  obtain rfl := modifyBook_ok hset
  exact hsame

end PerpDex
