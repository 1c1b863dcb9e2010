/-
What the functions of the order book do to the orders and the stores that list them.

* `Indexes`, `indexesOf` — the orders, the open orders of an account and their number, the client order
  ids, the triggers and the expiries;
* `Indexes.mark`, `Indexes.unmark`, `Indexes.close` — what opening and closing an order write.

Calls that fail leave these stores alone, as long as no order that is listed has been left out of the
count.  `SameIndexes` is what the functions keep that write entries and sums per price.
-/
import PerpDex.BookEffects
import PerpDex.SecondaryIndex

namespace PerpDex

open Txn

structure Indexes where
  orders : Table Order.orderIndex
  openOrders : KVStore (ℕ ×ₗ ℕ ×ₗ ℕ) Unit
  counts : KVStore (ℕ ×ₗ ℕ) ℕ
  clients : KVStore (ℕ ×ₗ ℕ ×ₗ ℕ) ℕ
  triggers : KVStore (ℕ ×ₗ ℕ ×ₗ ℕ) Unit
  expiries : KVStore (ℤ ×ₗ ℕ) Unit

def indexesOf (s : State) : Indexes where
  orders := s.book.orders
  openOrders := s.book.accountOpenOrders
  counts := s.book.accountOpenOrderCount
  clients := s.book.userOrderIndex
  triggers := s.book.triggerIndex
  expiries := s.book.expiryIndex

/-- The key under which the open orders of an account in a market are counted. -/
def Order.countKey (o : Order) : ℕ ×ₗ ℕ := toLex (o.ownerAccountIndex, o.marketIndex)

def Order.expiryKey (o : Order) : ℤ ×ₗ ℕ := toLex (o.expiry, o.orderIndex)

namespace Indexes

/-- How many open orders are counted for the owner and the market of `o`. -/
def countOf (x : Indexes) (o : Order) : ℕ := (x.counts.get o.countKey).getD 0

/-- Write a count; a count of zero has no row. -/
def writeCount (counts : KVStore (ℕ ×ₗ ℕ) ℕ) (k : ℕ ×ₗ ℕ) (n : ℕ) : KVStore (ℕ ×ₗ ℕ) ℕ :=
  if n = 0 then counts.remove k else counts.set k n

/-- Put an order among the open orders of its owner and count it, unless it is there. -/
def enlist (x : Indexes) (o : Order) : Indexes where
  __ := x
  openOrders := x.openOrders.set o.accountOpenOrderKey ()
  counts := if x.openOrders.has o.accountOpenOrderKey then x.counts
    else writeCount x.counts o.countKey (x.countOf o + 1)

def delist (x : Indexes) (o : Order) : Indexes where
  __ := x
  openOrders := x.openOrders.remove o.accountOpenOrderKey
  counts := if x.openOrders.has o.accountOpenOrderKey then
      writeCount x.counts o.countKey (x.countOf o - 1)
    else x.counts

def indexClient (x : Indexes) (o : Order) : Indexes where
  __ := x
  clients := if o.clientOrderIndex ≠ 0 then x.clients.set o.clientKey o.orderIndex else x.clients

def unindexClient (x : Indexes) (o : Order) : Indexes where
  __ := x
  clients := if o.clientOrderIndex ≠ 0 then x.clients.remove o.clientKey else x.clients

def unindexClientIfMatches (x : Indexes) (o : Order) : Indexes where
  __ := x
  clients := if o.clientOrderIndex ≠ 0 then
      if x.clients.get o.clientKey = some o.orderIndex then x.clients.remove o.clientKey
      else x.clients
    else x.clients

def addExpiry (x : Indexes) (o : Order) : Indexes where
  __ := x
  expiries := if indexExpiry o = true then x.expiries.set o.expiryKey () else x.expiries

def removeExpiry (x : Indexes) (o : Order) : Indexes where
  __ := x
  expiries := if o.expiry ≠ 0 then x.expiries.remove o.expiryKey else x.expiries

def mark (x : Indexes) (o : Order) : Indexes := ((x.indexClient o).enlist o).addExpiry o

def unmark (x : Indexes) (o : Order) : Indexes :=
  ((x.unindexClientIfMatches o).delist o).removeExpiry o

def put (x : Indexes) (o : Order) : Indexes := { x with orders := x.orders.put o }

def wait (x : Indexes) (o : Order) : Indexes :=
  { x with triggers := x.triggers.set (triggerKey o.marketIndex o.triggerPrice o.orderIndex) () }

def unwait (x : Indexes) (o : Order) : Indexes :=
  { x with triggers := x.triggers.remove (triggerKey o.marketIndex o.triggerPrice o.orderIndex) }

/-- Take an order off the lists and store it with its last status. -/
def close (x : Indexes) (o : Order) (st : OrderStatus) : Indexes :=
  (x.unmark o).put { o with status := st }

/-- The orders that are listed are counted, and the counts are machine words. -/
structure Counted (x : Indexes) : Prop where
  pos : ∀ o : Order, x.openOrders.get o.accountOpenOrderKey = some () → 1 ≤ x.countOf o
  word : ∀ k n, x.counts.get k = some n → n ≤ maxUint32

theorem Counted.congr {x y : Indexes} (h : x.Counted) (hopen : y.openOrders = x.openOrders)
    (hcounts : y.counts = x.counts) : y.Counted where
  pos o := by
    rw [hopen, countOf, hcounts]
    exact h.pos o
  word := hcounts ▸ h.word

theorem Counted.countOf_le {x : Indexes} (h : x.Counted) (o : Order) : x.countOf o ≤ maxUint32 := by
  unfold countOf
  rcases hn : x.counts.get o.countKey with _ | n
  · exact Nat.zero_le _
  · exact h.word o.countKey n hn

end Indexes

theorem OrderStatus.isLive_of_isResting {st : OrderStatus} (h : st.isResting = true) :
    st.isLive = true := by simp [OrderStatus.isLive, h]

theorem OrderStatus.not_pending_of_isResting {st : OrderStatus} (h : st.isResting = true) :
    st ≠ .triggeredPending := by
  rintro rfl
  cases h

def SameIndexes (s t : State) : Prop := indexesOf t = indexesOf s

instance : IsPreorder State SameIndexes where
  refl _ := rfl
  trans _ _ _ h h' := Eq.trans h' h

variable {s t : State} {u : Unit} {e : Err} {o o' : Order}

/-! ### Functions that leave the indexes alone -/

theorem SameBook.indexes (h : SameBook s t) : SameIndexes s t := by
  simp only [SameIndexes, indexesOf, h.book]

theorem adjustPriceLevel_indexes (m : ℕ) (isAsk : Bool) (price base quote : ℕ) (sign : Sign)
    (count : ℤ) : Keeps SameIndexes (adjustPriceLevel m isAsk price base quote sign count) :=
  Keeps.bind Keeps.read fun _ => Keeps.write fun _ => rfl

theorem insertEntry_indexes (m : ℕ) (isAsk : Bool) (entry : OrderBookEntry) :
    Keeps SameIndexes (insertEntry m isAsk entry) :=
  Keeps.bind Keeps.read fun _ => Keeps.bind (Keeps.write fun _ => rfl) fun _ =>
    Keeps.bind (Keeps.write fun _ => rfl) fun _ => adjustPriceLevel_indexes _ _ _ _ _ _ _

theorem dropEntry_indexes (m i : ℕ) (sk : SortKey) : Keeps SameIndexes (dropEntry m i sk) :=
  Keeps.bind (Keeps.write fun _ => rfl) fun _ => Keeps.write fun _ => rfl

theorem removeEntry_indexes (m : ℕ) (isAsk : Bool) (i : ℕ) :
    Keeps SameIndexes (removeEntry m isAsk i) := by
  refine Keeps.bind Keeps.read fun found => ?_
  rcases found with _ | ⟨sk, entry⟩
  · exact Keeps.pure
  · exact Keeps.bind (dropEntry_indexes _ _ _) fun _ => Keeps.bind Keeps.read fun _ =>
      adjustPriceLevel_indexes _ _ _ _ _ _ _

theorem shrinkEntryResidue_indexes (m : ℕ) (isAsk : Bool) (i delta : ℕ) :
    Keeps SameIndexes (shrinkEntryResidue m isAsk i delta) := by
  refine Keeps.bind Keeps.read fun found => Keeps.bind Keeps.read fun quote =>
    Keeps.bind (adjustPriceLevel_indexes _ _ _ _ _ _ _) fun _ => Keeps.ite (fun _ => ?_) fun _ => ?_
  · exact Keeps.bind (dropEntry_indexes _ _ _) fun _ =>
      Keeps.bind (adjustPriceLevel_indexes _ _ _ _ _ _ _) fun _ => Keeps.pure
  · exact Keeps.bind (Keeps.write fun _ => rfl) fun _ => Keeps.pure

/-! ### Listing and unlisting -/

theorem bumpAccountOpenOrderCount_run (account market : ℕ) {n : ℕ} {delta : ℤ}
    (hn : (n : ℤ) = getAccountOpenOrderCount s account market + delta) (hword : n ≤ maxUint32) :
    ∃ t, (bumpAccountOpenOrderCount account market delta).run s = .ok () t ∧
      indexesOf t = { indexesOf s with
        counts := Indexes.writeCount (indexesOf s).counts (toLex (account, market)) n } := by
  have hnext : ¬ (getAccountOpenOrderCount s account market : ℤ) + delta < 0 := by omega
  have hword' : ¬ (getAccountOpenOrderCount s account market : ℤ) + delta > maxUint32 := by omega
  unfold bumpAccountOpenOrderCount
  rw [run_bind_read]
  simp only
  rw [Txn.require, if_pos hnext, pure_bind, Txn.require, if_pos hword', pure_bind]
  refine ⟨_, rfl, ?_⟩
  simp only [indexesOf, Indexes.writeCount, ← hn, Int.natCast_eq_zero, Int.toNat_natCast]

theorem bumpAccountOpenOrderCount_ok {account market : ℕ} {delta : ℤ}
    (h : (bumpAccountOpenOrderCount account market delta).run s = .ok u t) :
    ∃ n : ℕ, (n : ℤ) = getAccountOpenOrderCount s account market + delta ∧ n ≤ maxUint32 ∧
      indexesOf t = { indexesOf s with
        counts := Indexes.writeCount (indexesOf s).counts (toLex (account, market)) n } := by
  have hrun := h
  simp only [bumpAccountOpenOrderCount, run_bind_read_ok, run_bind_require_ok] at h
  obtain ⟨cur, hcur, hnext, hword, -⟩ := h
  cases hcur
  obtain ⟨n, hn⟩ := Int.eq_ofNat_of_zero_le (not_lt.mp hnext)
  have hn' : n ≤ maxUint32 := by
    rw [hn] at hword
    exact_mod_cast not_lt.mp hword
  obtain ⟨v, hv, hindexes⟩ := bumpAccountOpenOrderCount_run _ _ hn.symm hn'
  rw [hrun] at hv
  cases hv
  exact ⟨n, hn.symm, hn', hindexes⟩

theorem indexAccountOpenOrder_indexes (h : (indexAccountOpenOrder o).run s = .ok u t) :
    indexesOf t = (indexesOf s).enlist o ∧
    ((indexesOf s).openOrders.has o.accountOpenOrderKey = false →
      (indexesOf s).countOf o + 1 ≤ maxUint32) := by
  simp only [indexAccountOpenOrder, run_bind_read_ok, modifyBook, run_bind_write, run_when] at h
  obtain ⟨had, hhad, h⟩ := h
  cases hhad
  by_cases hnew : s.book.accountOpenOrders.has o.accountOpenOrderKey = false
  · rw [if_pos hnew] at h
    obtain ⟨n, hn, hword, hindexes⟩ := bumpAccountOpenOrderCount_ok h
    have hcount : n = (indexesOf s).countOf o + 1 := by exact_mod_cast hn
    refine ⟨?_, fun _ => hcount ▸ hword⟩
    rw [hindexes, hcount, Indexes.enlist]
    simp only [indexesOf, hnew]
    rfl
  · rw [if_neg hnew] at h
    cases h
    refine ⟨?_, fun hnew' => absurd hnew' hnew⟩
    have hhas : s.book.accountOpenOrders.has o.accountOpenOrderKey = true := by simpa using hnew
    rw [Indexes.enlist]
    simp only [indexesOf, hhas]
    rfl

theorem unindexAccountOpenOrder_run (hx : (indexesOf s).Counted) :
    ∃ t, (unindexAccountOpenOrder o).run s = .ok () t ∧
      indexesOf t = (indexesOf s).delist o := by
  simp only [unindexAccountOpenOrder, run_bind_read, modifyBook, run_bind_write, run_when]
  by_cases hhas : s.book.accountOpenOrders.has o.accountOpenOrderKey = true
  · rw [if_pos hhas]
    obtain ⟨_, hget⟩ := KVStore.has_eq_true.mp hhas
    have hpos : 1 ≤ (indexesOf s).countOf o := hx.pos o hget
    have hle := hx.countOf_le o
    have hn : (((indexesOf s).countOf o - 1 : ℕ) : ℤ)
        = ((indexesOf s).countOf o : ℤ) + -1 := by omega
    obtain ⟨t, ht, hindexes⟩ := bumpAccountOpenOrderCount_run o.ownerAccountIndex
      o.marketIndex (s := { s with book := { s.book with
        accountOpenOrders := s.book.accountOpenOrders.remove o.accountOpenOrderKey } }) hn
      (by omega)
    refine ⟨t, ht, ?_⟩
    rw [hindexes, Indexes.delist]
    simp only [indexesOf, hhas]
    rfl
  · rw [if_neg hhas]
    refine ⟨_, rfl, ?_⟩
    rw [Indexes.delist]
    simp only [indexesOf, hhas]
    rfl

theorem indexClientOrder_run (s : State) (o : Order) :
    ∃ t, (indexClientOrder o).run s = .ok () t ∧ indexesOf t = (indexesOf s).indexClient o := by
  rw [indexClientOrder, run_when]
  unfold Indexes.indexClient
  split <;> exact ⟨_, rfl, rfl⟩

theorem addExpiryIndex_run (s : State) (o : Order) :
    ∃ t, (addExpiryIndex o).run s = .ok () t ∧ indexesOf t = (indexesOf s).addExpiry o := by
  rw [addExpiryIndex, run_when]
  unfold Indexes.addExpiry
  split <;> exact ⟨_, rfl, rfl⟩

theorem unindexClientOrder_run (s : State) (o : Order) :
    ∃ t, (unindexClientOrder o).run s = .ok () t ∧
      indexesOf t = (indexesOf s).unindexClient o := by
  rw [unindexClientOrder, run_when]
  unfold Indexes.unindexClient
  split <;> exact ⟨_, rfl, rfl⟩

theorem unindexClientOrderIfMatches_run (s : State) (o : Order) :
    ∃ t, (unindexClientOrderIfMatches o).run s = .ok () t ∧
      indexesOf t = (indexesOf s).unindexClientIfMatches o := by
  rw [unindexClientOrderIfMatches, run_when]
  unfold Indexes.unindexClientIfMatches
  split <;> exact ⟨_, rfl, rfl⟩

theorem removeExpiryIndex_run (s : State) (o : Order) :
    ∃ t, (removeExpiryIndex o).run s = .ok () t ∧
      indexesOf t = (indexesOf s).removeExpiry o := by
  rw [removeExpiryIndex, run_when]
  unfold Indexes.removeExpiry
  split <;> exact ⟨_, rfl, rfl⟩

theorem indexOpenOrder_indexes (h : (indexOpenOrder o).run s = .ok u t) :
    indexesOf t = (indexesOf s).mark o ∧
    ((indexesOf s).openOrders.has o.accountOpenOrderKey = false →
      (indexesOf s).countOf o + 1 ≤ maxUint32) := by
  simp only [indexOpenOrder, run_bind_ok] at h
  obtain ⟨_, s₁, h₁, _, s₂, h₂, h₃⟩ := h
  obtain ⟨s₁', h₁', hclients⟩ := indexClientOrder_run s o
  obtain ⟨hlist, hword⟩ := indexAccountOpenOrder_indexes h₂
  obtain ⟨t', h₃', hexpiry⟩ := addExpiryIndex_run s₂ o
  cases h₁.symm.trans h₁'
  cases h₃.symm.trans h₃'
  rw [hexpiry, hlist, hclients, Indexes.mark]
  rw [hclients] at hword
  exact ⟨rfl, hword⟩

theorem unindexOpenOrder_run (hx : (indexesOf s).Counted) (o : Order) :
    ∃ t, (unindexOpenOrder o).run s = .ok () t ∧ indexesOf t = (indexesOf s).unmark o := by
  obtain ⟨s₁, h₁, hclients⟩ := unindexClientOrderIfMatches_run s o
  have hx₁ : (indexesOf s₁).Counted := by
    rw [hclients]
    exact hx.congr rfl rfl
  obtain ⟨s₂, h₂, hlist⟩ := unindexAccountOpenOrder_run (o := o) hx₁
  obtain ⟨t, h₃, hexpiry⟩ := removeExpiryIndex_run s₂ o
  refine ⟨t, ?_, by rw [hexpiry, hlist, hclients, Indexes.unmark]⟩
  simp only [unindexOpenOrder, run_bind_ok]
  exact ⟨(), s₁, h₁, (), s₂, h₂, h₃⟩

theorem indexOpenOrder_run (h : (indexesOf s).openOrders.has o.accountOpenOrderKey = true ∨
      (indexesOf s).countOf o + 1 ≤ maxUint32) : ∃ t, (indexOpenOrder o).run s = .ok () t := by
  obtain ⟨s₁, h₁, hclients⟩ := indexClientOrder_run s o
  rw [show (indexesOf s).openOrders = (indexesOf s₁).openOrders by rw [hclients]; rfl,
    show (indexesOf s).countOf o = (indexesOf s₁).countOf o by rw [hclients]; rfl] at h
  have h₂ : ∃ s₂, (indexAccountOpenOrder o).run s₁ = .ok () s₂ := by
    simp only [indexAccountOpenOrder, run_bind_read, modifyBook, run_bind_write, run_when]
    by_cases hhas : s₁.book.accountOpenOrders.has o.accountOpenOrderKey = true
    · rw [hhas]
      exact ⟨_, rfl⟩
    · rw [if_pos (Bool.not_eq_true _ ▸ hhas)]
      obtain ⟨s₂, hrun, -⟩ := bumpAccountOpenOrderCount_run o.ownerAccountIndex
        o.marketIndex (n := (indexesOf s₁).countOf o + 1) (s := { s₁ with book := { s₁.book with
          accountOpenOrders := s₁.book.accountOpenOrders.set o.accountOpenOrderKey () } })
        (show _ = _ + (1 : ℤ) from rfl) (h.resolve_left hhas)
      exact ⟨s₂, hrun⟩
  obtain ⟨s₂, h₂⟩ := h₂
  obtain ⟨t, h₃, -⟩ := addExpiryIndex_run s₂ o
  refine ⟨t, ?_⟩
  simp only [indexOpenOrder, run_bind_ok]
  exact ⟨(), s₁, h₁, (), s₂, h₂, h₃⟩

/-! ### Life cycle -/

theorem setOrder_indexes (h : (setOrder o).run s = .ok u t) :
    indexesOf t = (indexesOf s).put o := by
  rw [modifyBook_ok h]
  rfl

theorem openOrder_indexes (hx : (indexesOf s).Counted) (h : (openOrder o).run s = .ok u t) :
    if o.status.isResting then
      indexesOf t = ((indexesOf s).mark o).put o ∧
        ((indexesOf s).openOrders.has o.accountOpenOrderKey = false →
          (indexesOf s).countOf o + 1 ≤ maxUint32)
    else indexesOf t = ((indexesOf s).unmark o).put o := by
  unfold openOrder at h
  split at h
  · rename_i hst
    simp only [run_bind_ok] at h
    obtain ⟨_, s₁, h₁, _, s₂, h₂, _, s₃, h₃, h₄⟩ := h
    have hlock : indexesOf s₁ = indexesOf s := ((applySpotLockOnOpen_book o).ok h₁).indexes
    have hentry : indexesOf s₂ = indexesOf s₁ := (insertEntry_indexes _ _ _).ok h₂
    obtain ⟨hmark, hword⟩ := indexOpenOrder_indexes h₃
    rw [hentry, hlock] at hmark hword
    rw [if_pos hst, setOrder_indexes h₄, hmark]
    exact ⟨rfl, hword⟩
  · rename_i hst
    simp only [run_bind_ok] at h
    obtain ⟨_, s₁, h₁, h₂⟩ := h
    obtain ⟨s₁', h₁', hunmark⟩ := unindexOpenOrder_run hx o
    cases h₁.symm.trans h₁'
    rw [if_neg hst, setOrder_indexes h₂, hunmark]

theorem openOrder_indexes_error (hx : (indexesOf s).Counted)
    (hlisted : (indexesOf s).openOrders.get o.accountOpenOrderKey = some ())
    (h : (openOrder o).run s = .error e t) : indexesOf t = indexesOf s := by
  unfold openOrder at h
  split at h
  · simp only [run_bind_error] at h
    rcases h with h₁ | ⟨_, s₁, h₁, h₂ | ⟨_, s₂, h₂, h₃ | ⟨_, s₃, h₃, h₄⟩⟩⟩
    · exact ((applySpotLockOnOpen_book o).error h₁).indexes
    · have hlock : indexesOf s₁ = indexesOf s := ((applySpotLockOnOpen_book o).ok h₁).indexes
      exact ((insertEntry_indexes _ _ _).error h₂).trans hlock
    · have hlock : indexesOf s₁ = indexesOf s := ((applySpotLockOnOpen_book o).ok h₁).indexes
      have hentry : indexesOf s₂ = indexesOf s₁ := (insertEntry_indexes _ _ _).ok h₂
      rw [← hlock, ← hentry] at hlisted
      obtain ⟨v, hv⟩ := indexOpenOrder_run (.inl (KVStore.has_eq_true.mpr ⟨(), hlisted⟩))
      rw [hv] at h₃
      cases h₃
    · cases h₄
  · simp only [run_bind_error] at h
    obtain ⟨s₁', h₁', -⟩ := unindexOpenOrder_run hx o
    rcases h with h₁ | ⟨_, s₁, h₁, h₂⟩
    · rw [h₁'] at h₁
      cases h₁
    · cases h₂

theorem openTriggerOrder_indexes (h : (openTriggerOrder o).run s = .ok u t) :
    indexesOf t = (((indexesOf s).wait o).mark o).put o ∧
      ((indexesOf s).openOrders.has o.accountOpenOrderKey = false →
        (indexesOf s).countOf o + 1 ≤ maxUint32) := by
  simp only [openTriggerOrder, run_bind_ok] at h
  obtain ⟨_, s₁, h₁, _, s₂, h₂, h₃⟩ := h
  have hwait : indexesOf s₁ = (indexesOf s).wait o := by
    rw [modifyBook_ok h₁]
    rfl
  obtain ⟨hmark, hword⟩ := indexOpenOrder_indexes h₂
  rw [hwait] at hmark hword
  rw [setOrder_indexes h₃, hmark]
  exact ⟨rfl, hword⟩

theorem openTriggerOrder_run (hcount : (indexesOf s).countOf o + 1 ≤ maxUint32) :
    ∃ t, (openTriggerOrder o).run s = .ok () t := by
  obtain ⟨s₁, h₁⟩ := indexOpenOrder_run (o := o)
    (s := after (addTrigger o.marketIndex o.triggerPrice o.orderIndex) s) (.inr hcount)
  exact ⟨after (setOrder o) s₁, run_bind_ok.mpr ⟨(), _, rfl, run_bind_ok.mpr ⟨(), s₁, h₁, rfl⟩⟩⟩

theorem activateTrigger_run {i : ℕ} (ho : s.book.orders.get i = some o) :
    ∃ t, (activateTrigger i).run s = .ok { o with status := .opened } t := by
  obtain ⟨s₂, h₂, -⟩ := removeExpiryIndex_run
    (after (removeTrigger o.marketIndex o.triggerPrice o.orderIndex) s) o
  refine ⟨after (setOrder { o with status := .opened }) s₂, ?_⟩
  rw [activateTrigger, run_bind_read, getOrder_eq_ok.mpr ho]
  exact run_bind_ok.mpr ⟨(), _, rfl, run_bind_ok.mpr ⟨(), s₂, h₂, rfl⟩⟩

theorem activateTrigger_indexes {i : ℕ} (h : (activateTrigger i).run s = .ok o' t) :
    ∃ o, (indexesOf s).orders.get i = some o ∧ o' = { o with status := .opened } ∧
      indexesOf t = (((indexesOf s).unwait o).removeExpiry o).put o' := by
  simp only [activateTrigger, run_bind_read_ok] at h
  obtain ⟨o, ho, h⟩ := h
  simp only [run_bind_ok, run_pure_ok] at h
  obtain ⟨_, s₁, h₁, _, s₂, h₂, _, s₃, h₃, rfl, rfl⟩ := h
  obtain ⟨s₂', h₂', hexpiry⟩ := removeExpiryIndex_run s₁ o
  cases h₂.symm.trans h₂'
  refine ⟨o, getOrder_eq_ok.mp ho, rfl, ?_⟩
  rw [setOrder_indexes h₃, hexpiry, modifyBook_ok h₁]
  rfl

theorem fillMakerOrder_indexes {i base : ℕ} (hx : (indexesOf s).Counted)
    (h : (fillMakerOrder i base).run s = .ok o' t) :
    ∃ o, (indexesOf s).orders.get i = some o ∧ o' = applyOrderResidue o base ∧
      indexesOf t = if o'.remainingBaseAmount = 0 then
          ((((indexesOf s).unindexClient o).delist o).removeExpiry o).put o'
        else (indexesOf s).put o' := by
  simp only [fillMakerOrder, run_bind_read_ok] at h
  obtain ⟨o, ho, h⟩ := h
  have hmin : applyOrderResidue o (min base o.remainingBaseAmount) = applyOrderResidue o base := by
    simp only [applyOrderResidue, min_assoc, min_self]
  rw [hmin] at h
  simp only [run_bind_ok, run_pure_ok, run_require_ok] at h
  obtain ⟨_, s₁, h₁, _, s₂, ⟨-, rfl⟩, _, s₃, h₃, _, s₄, h₄, rfl, rfl⟩ := h
  have hentry : indexesOf s₂ = indexesOf s := (shrinkEntryResidue_indexes _ _ _ _).ok h₁
  refine ⟨o, getOrder_eq_ok.mp ho, rfl, ?_⟩
  rw [setOrder_indexes h₄, ← hentry]
  rw [← hentry] at hx
  simp only [run_when, decide_eq_true_eq] at h₃
  split at h₃
  · rename_i hdrained
    simp only [run_bind_ok] at h₃
    obtain ⟨_, v₁, k₁, _, v₂, k₂, k₃⟩ := h₃
    obtain ⟨v₁', k₁', hclient⟩ := unindexClientOrder_run s₂ (applyOrderResidue o base)
    cases k₁.symm.trans k₁'
    have hx₁ : (indexesOf v₁).Counted := by
      rw [hclient]
      exact hx.congr rfl rfl
    obtain ⟨v₂', k₂', hlist⟩ := unindexAccountOpenOrder_run (o := applyOrderResidue o base) hx₁
    cases k₂.symm.trans k₂'
    obtain ⟨v₃', k₃', hexpiry⟩ := removeExpiryIndex_run v₂ (applyOrderResidue o base)
    cases k₃.symm.trans k₃'
    rw [if_pos hdrained, hexpiry, hlist, hclient]
    rfl
  · rename_i hrest
    cases h₃
    rw [if_neg hrest]

theorem closeOrder_run (hx : (indexesOf s).Counted) (o : Order) (st : OrderStatus) :
    ∃ t, (closeOrder o st).run s = .ok { o with status := st } t ∧
      indexesOf t = (indexesOf s).close o st := by
  obtain ⟨s₁, h₁, hunmark⟩ := unindexOpenOrder_run hx { o with status := st }
  set o₁ : Order := { o with status := st }
  have h₂ : (setOrder o₁).run s₁ = .ok () { s₁ with book := { s₁.book with
    orders := s₁.book.orders.put o₁ } } := rfl
  refine ⟨_, run_bind_ok.mpr ⟨(), s₁, h₁, run_bind_ok.mpr ⟨(), _, h₂, rfl⟩⟩, ?_⟩
  rw [setOrder_indexes h₂, hunmark]
  rfl

theorem evictMakerOrder_indexes {i : ℕ} {st : OrderStatus} (hx : (indexesOf s).Counted)
    (h : (evictMakerOrder i st).run s = .ok o' t) :
    ∃ o, (indexesOf s).orders.get i = some o ∧ indexesOf t = (indexesOf s).close o st := by
  simp only [evictMakerOrder, run_bind_read_ok] at h
  obtain ⟨o, ho, h⟩ := h
  simp only [run_bind_ok] at h
  obtain ⟨_, s₁, h₁, _, s₂, h₂, h₃⟩ := h
  have hentry : indexesOf s₁ = indexesOf s := (removeEntry_indexes _ _ _).ok h₁
  have hlock : indexesOf s₂ = indexesOf s₁ := ((releaseSpotLockOnClose_book o).ok h₂).indexes
  have hsame : indexesOf s₂ = indexesOf s := hlock.trans hentry
  rw [← hsame] at hx ⊢
  obtain ⟨t', h₃', hclose⟩ := closeOrder_run hx o st
  cases h₃.symm.trans h₃'
  exact ⟨o, hsame ▸ getOrder_eq_ok.mp ho, hclose⟩

theorem evictMakerOrder_indexes_error {i : ℕ} {st : OrderStatus} (hx : (indexesOf s).Counted)
    (h : (evictMakerOrder i st).run s = .error e t) : indexesOf t = indexesOf s := by
  rw [evictMakerOrder, run_bind_error] at h
  rcases h with h₀ | ⟨o, s₀, h₀, h⟩
  · rw [(run_read_error.mp h₀).2]
  obtain ⟨-, rfl⟩ := run_read_ok.mp h₀
  simp only [run_bind_error] at h
  rcases h with h₁ | ⟨_, s₁, h₁, h₂ | ⟨_, s₂, h₂, h₃⟩⟩
  · exact (removeEntry_indexes _ _ _).error h₁
  · have hentry : indexesOf s₁ = indexesOf s₀ := (removeEntry_indexes _ _ _).ok h₁
    exact (((releaseSpotLockOnClose_book o).error h₂).indexes).trans hentry
  · have hentry : indexesOf s₁ = indexesOf s₀ := (removeEntry_indexes _ _ _).ok h₁
    have hlock : indexesOf s₂ = indexesOf s₁ := ((releaseSpotLockOnClose_book o).ok h₂).indexes
    rw [← hentry, ← hlock] at hx
    obtain ⟨t', h₃', -⟩ := closeOrder_run hx o st
    rw [h₃'] at h₃
    cases h₃

theorem detachOrder_indexes (h : (detachOrder o).run s = .ok u t) :
    o.status.isLive = true ∧ indexesOf t =
      if o.status = .triggeredPending then (indexesOf s).unwait o else indexesOf s := by
  unfold detachOrder at h
  simp only at h
  split at h
  · rename_i hst
    obtain ⟨-, h⟩ := run_bind_require_ok.mp h
    obtain ⟨_, s₁, h₁, h₂⟩ := run_bind_ok.mp h
    have hentry : indexesOf s₁ = indexesOf s := (removeEntry_indexes _ _ _).ok h₁
    have hlock : indexesOf t = indexesOf s₁ := ((releaseSpotLockOnClose_book o).ok h₂).indexes
    rw [if_neg (OrderStatus.not_pending_of_isResting hst), hlock, hentry]
    exact ⟨OrderStatus.isLive_of_isResting hst, rfl⟩
  · split at h
    · rename_i hst
      rw [if_pos hst, modifyBook_ok h]
      exact ⟨by simp [OrderStatus.isLive, hst], rfl⟩
    · cases h

theorem detachOrder_counted (hx : (indexesOf s).Counted) (h : (detachOrder o).run s = .ok u t) :
    (indexesOf t).Counted := by
  rw [(detachOrder_indexes h).2]
  split
  · exact hx.congr rfl rfl
  · exact hx

theorem detachOrder_indexes_error (h : (detachOrder o).run s = .error e t) :
    indexesOf t = indexesOf s := by
  unfold detachOrder at h
  simp only at h
  split at h
  · rw [run_bind_error] at h
    rcases h with h₁ | ⟨_, s₁, h₁, h⟩
    · rw [(run_require_error.mp h₁).2.2]
    obtain ⟨-, rfl⟩ := run_require_ok.mp h₁
    rw [run_bind_error] at h
    rcases h with h₁ | ⟨_, s₁, h₁, h₂⟩
    · exact (removeEntry_indexes _ _ _).error h₁
    · have hentry : indexesOf s₁ = indexesOf _ := (removeEntry_indexes _ _ _).ok h₁
      exact (((releaseSpotLockOnClose_book o).error h₂).indexes).trans hentry
  · split at h
    · cases h
    · cases h
      rfl

theorem cancelOrder_orders {i : ℕ} {o' : Order} (h : (cancelOrder i).run s = .ok o' t) :
    ∃ o, s.book.orders.get i = some o ∧ o.status.isLive = true ∧
      t.book.orders = s.book.orders.put { o with status := .cancelled } := by
  simp only [cancelOrder, run_bind_read_ok] at h
  obtain ⟨o, ho, h⟩ := h
  obtain ⟨_, s₁, hdetach, hclose⟩ := run_bind_ok.mp h
  obtain ⟨hlive, hindexes⟩ := detachOrder_indexes hdetach
  have horders : s₁.book.orders = s.book.orders := by
    have heq := congrArg Indexes.orders hindexes
    split_ifs at heq
    · exact heq
    · exact heq
  refine ⟨o, getOrder_eq_ok.mp ho, hlive, ?_⟩
  have hcore : t.book.orders = s₁.book.orders.put { o with status := .cancelled } :=
    congrArg Core.orders (closeOrder_ok hclose).2
  rw [hcore, horders]

theorem cancelOrder_indexes {i : ℕ} (hx : (indexesOf s).Counted)
    (h : (cancelOrder i).run s = .ok o' t) :
    ∃ o, (indexesOf s).orders.get i = some o ∧ o.status.isLive = true ∧ indexesOf t =
      (if o.status = .triggeredPending then (indexesOf s).unwait o else indexesOf s).close o
        .cancelled := by
  simp only [cancelOrder, run_bind_read_ok] at h
  obtain ⟨o, ho, h⟩ := h
  rw [run_bind_ok] at h
  obtain ⟨_, s₁, h₁, h₂⟩ := h
  obtain ⟨hlive, hdetach⟩ := detachOrder_indexes h₁
  obtain ⟨t', h₂', hclose⟩ := closeOrder_run (detachOrder_counted hx h₁) o .cancelled
  cases h₂.symm.trans h₂'
  exact ⟨o, getOrder_eq_ok.mp ho, hlive, by rw [hclose, hdetach]⟩

theorem cancelOrder_indexes_error {i : ℕ} (hx : (indexesOf s).Counted)
    (h : (cancelOrder i).run s = .error e t) : indexesOf t = indexesOf s := by
  rw [cancelOrder, run_bind_error] at h
  rcases h with h₀ | ⟨o, s₀, h₀, h⟩
  · rw [(run_read_error.mp h₀).2]
  obtain ⟨-, rfl⟩ := run_read_ok.mp h₀
  rw [run_bind_error] at h
  rcases h with h₁ | ⟨_, s₁, h₁, h₂⟩
  · exact detachOrder_indexes_error h₁
  · obtain ⟨t', h₂', -⟩ := closeOrder_run (detachOrder_counted hx h₁) o .cancelled
    rw [h₂'] at h₂
    cases h₂

end PerpDex
