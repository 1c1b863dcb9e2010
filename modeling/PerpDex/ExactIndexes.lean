/-
Where an order is listed, and what keeps the lists exact.

* `openEntry`, `clientEntry`, `triggerEntry`, `expiryEntry` — the entries of an order in the secondary
  indexes;
* `Indexes.Exact` — every order is listed where it should be, and nothing else is;
* `Exact.opened`, `Exact.relabelled`, `Exact.activated`, `Exact.closed`, `Exact.dismissed` — the writes
  of the life cycle keep that.

Each lemma comes down to `IsIndex.put`.  Between its activation and its storage a trigger is live but not
in the expiry index; `fired` is the index of that order.
-/
import PerpDex.IndexEffects

namespace PerpDex

open Txn

/-! ### Where an order is listed -/

/-- Orders that are not closed are listed under their owner. -/
def openEntry (o : Order) : Option ((ℕ ×ₗ ℕ ×ₗ ℕ) × Unit) :=
  if o.status.isLive then some (o.accountOpenOrderKey, ()) else none

/-- So are their client order ids, where they have one. -/
def clientEntry (o : Order) : Option ((ℕ ×ₗ ℕ ×ₗ ℕ) × ℕ) :=
  if o.status.isLive ∧ o.clientOrderIndex ≠ 0 then some (o.clientKey, o.orderIndex) else none

def triggerEntry (o : Order) : Option ((ℕ ×ₗ ℕ ×ₗ ℕ) × Unit) :=
  if o.status = .triggeredPending then
    some (triggerKey o.marketIndex o.triggerPrice o.orderIndex, ()) else none

/-- An activated trigger is taken off the expiry index until it is stored again. -/
def expiryEntry (fired : Option ℕ) (o : Order) : Option ((ℤ ×ₗ ℕ) × Unit) :=
  if o.status.isLive ∧ indexExpiry o ∧ fired ≠ some o.orderIndex then some (o.expiryKey, ())
  else none

/-- The owner and the market of an open order. -/
def countGroup (k : ℕ ×ₗ ℕ ×ₗ ℕ) : ℕ ×ₗ ℕ := toLex ((ofLex k).1, (ofLex (ofLex k).2).1)

namespace Indexes

/-- The counts are right, and machine words. -/
structure Tallied (x : Indexes) : Prop where
  tally : Tally x.openOrders countGroup x.counts
  word : ∀ k n, x.counts.get k = some n → n ≤ maxUint32

/-- Every order is listed where it should be, and nothing else is. -/
structure Exact (x : Indexes) (fired : Option ℕ) : Prop where
  openOrders : IsIndex x.orders openEntry x.openOrders
  tallied : x.Tallied
  clients : IsIndex x.orders clientEntry x.clients
  triggers : IsIndex x.orders triggerEntry x.triggers
  expiries : IsIndex x.orders (expiryEntry fired) x.expiries

end Indexes

variable {x x' : Indexes} {fired fired' : Option ℕ} {o o' r : Order}

/-- The fields by which an order is listed are those of another. -/
structure Order.SameKeys (o o' : Order) : Prop where
  index : o.orderIndex = o'.orderIndex
  owner : o.ownerAccountIndex = o'.ownerAccountIndex
  market : o.marketIndex = o'.marketIndex
  client : o.clientOrderIndex = o'.clientOrderIndex
  expiry : o.expiry = o'.expiry

theorem openEntry_congr (h : o.SameKeys o') (hlive : o.status.isLive = o'.status.isLive) :
    openEntry o = openEntry o' := by
  simp only [openEntry, Order.accountOpenOrderKey, h.index, h.owner, h.market, hlive]

theorem clientEntry_congr (h : o.SameKeys o') (hlive : o.status.isLive = o'.status.isLive) :
    clientEntry o = clientEntry o' := by
  simp only [clientEntry, Order.clientKey, h.index, h.owner, h.market, h.client, hlive]

theorem openEntry_index {l : ℕ ×ₗ ℕ ×ₗ ℕ} {w : Unit} (h : openEntry o = some (l, w)) :
    (ofLex (ofLex l).2).2 = o.orderIndex := by
  unfold openEntry at h
  split at h
  · cases h
    rfl
  · cases h

theorem triggerEntry_index {l : ℕ ×ₗ ℕ ×ₗ ℕ} {w : Unit} (h : triggerEntry o = some (l, w)) :
    (ofLex (ofLex l).2).2 = o.orderIndex := by
  unfold triggerEntry at h
  split at h
  · cases h
    rfl
  · cases h

theorem expiryEntry_index {l : ℤ ×ₗ ℕ} {w : Unit} (h : expiryEntry fired o = some (l, w)) :
    (ofLex l).2 = o.orderIndex := by
  unfold expiryEntry at h
  split at h
  · cases h
    rfl
  · cases h

/-! ### Counts -/

theorem Indexes.Tallied.counted (h : x.Tallied) : x.Counted :=
  ⟨fun _ ho => h.tally.pos ho, h.word⟩

theorem Indexes.Tallied.congr (h : x.Tallied) (hopen : x'.openOrders = x.openOrders)
    (hcounts : x'.counts = x.counts) : x'.Tallied :=
  ⟨by rw [hopen, hcounts]; exact h.tally, hcounts ▸ h.word⟩

section Counts

variable (counts : KVStore (ℕ ×ₗ ℕ) ℕ) (k : ℕ ×ₗ ℕ) (n : ℕ)

theorem get_writeCount : ((Indexes.writeCount counts k n).get k).getD 0 = n := by
  unfold Indexes.writeCount
  by_cases hn : n = 0
  · simp [hn]
  · simp [hn]

theorem get_writeCount_ne {j : ℕ ×ₗ ℕ} (h : j ≠ k) :
    (Indexes.writeCount counts k n).get j = counts.get j := by
  unfold Indexes.writeCount
  by_cases hn : n = 0
  · simp [hn, KVStore.get_remove_ne _ h]
  · simp [hn, KVStore.get_set_ne _ _ h]

theorem writeCount_word (h : ∀ k n, counts.get k = some n → n ≤ maxUint32) (hn : n ≤ maxUint32) :
    ∀ j n', (Indexes.writeCount counts k n).get j = some n' → n' ≤ maxUint32 := by
  intro j n' hget
  by_cases hj : j = k
  · subst hj
    have hself := get_writeCount counts j n
    rw [hget] at hself
    exact (show n' = n from hself) ▸ hn
  · rw [get_writeCount_ne counts k n hj] at hget
    exact h j n' hget

end Counts

theorem Indexes.Tallied.enlist (h : x.Tallied) (o : Order)
    (hword : x.openOrders.has o.accountOpenOrderKey = false → x.countOf o + 1 ≤ maxUint32) :
    (x.enlist o).Tallied := by
  rcases hget : x.openOrders.get o.accountOpenOrderKey with _ | _
  · have hhas : x.openOrders.has o.accountOpenOrderKey = false := by
      rw [KVStore.has, hget]
      rfl
    have hcounts : (x.enlist o).counts
        = Indexes.writeCount x.counts o.countKey (x.countOf o + 1) := by
      simp only [Indexes.enlist, hhas]
      rfl
    refine ⟨h.tally.set hget ?_ fun g hg => ?_, ?_⟩
    · rw [hcounts]
      exact get_writeCount _ _ _
    · rw [hcounts, get_writeCount_ne x.counts o.countKey _ hg]
    · rw [hcounts]
      exact writeCount_word _ _ _ h.word (hword hhas)
  · have hhas : x.openOrders.has o.accountOpenOrderKey = true := KVStore.has_eq_true.mpr ⟨(), hget⟩
    refine h.congr (KVStore.set_get_self hget) ?_
    simp only [Indexes.enlist, hhas, if_true]

theorem Indexes.Tallied.delist (h : x.Tallied) (o : Order) : (x.delist o).Tallied := by
  rcases hget : x.openOrders.get o.accountOpenOrderKey with _ | _
  · have hhas : x.openOrders.has o.accountOpenOrderKey = false := by
      rw [KVStore.has, hget]
      rfl
    refine h.congr (KVStore.remove_of_get_none hget) ?_
    simp only [Indexes.delist, hhas]
    rfl
  · have hhas : x.openOrders.has o.accountOpenOrderKey = true := KVStore.has_eq_true.mpr ⟨(), hget⟩
    have hcounts : (x.delist o).counts
        = Indexes.writeCount x.counts o.countKey (x.countOf o - 1) := by
      simp only [Indexes.delist, hhas, if_true]
    have hpos : 1 ≤ x.countOf o := h.counted.pos o hget
    have hle := h.counted.countOf_le o
    refine ⟨h.tally.remove hget ?_ fun g hg => ?_, ?_⟩
    · rw [hcounts]
      have hself := get_writeCount x.counts o.countKey (x.countOf o - 1)
      show ((Indexes.writeCount x.counts o.countKey (x.countOf o - 1)).get o.countKey).getD 0 + 1
        = x.countOf o
      omega
    · rw [hcounts, get_writeCount_ne x.counts o.countKey _ hg]
    · rw [hcounts]
      exact writeCount_word _ _ _ h.word (by omega)

/-- The counts are right, and a count of zero has no row. -/
structure Indexes.Reckoned (x : Indexes) : Prop extends x.Tallied where
  nonzero : ∀ k, x.counts.get k ≠ some 0

theorem writeCount_nonzero {counts : KVStore (ℕ ×ₗ ℕ) ℕ} (h : ∀ k, counts.get k ≠ some 0)
    (k : ℕ ×ₗ ℕ) (n : ℕ) (j : ℕ ×ₗ ℕ) : (Indexes.writeCount counts k n).get j ≠ some 0 := by
  unfold Indexes.writeCount
  split
  · rw [KVStore.get_remove]
    split
    · simp
    · exact h j
  · rename_i hn
    rw [KVStore.get_set]
    split
    · simpa using hn
    · exact h j

theorem Indexes.Reckoned.congr (h : x.Reckoned) (hopen : x'.openOrders = x.openOrders)
    (hcounts : x'.counts = x.counts) : x'.Reckoned :=
  ⟨h.toTallied.congr hopen hcounts, hcounts ▸ h.nonzero⟩

theorem Indexes.Reckoned.enlist (h : x.Reckoned) (o : Order)
    (hword : x.openOrders.has o.accountOpenOrderKey = false → x.countOf o + 1 ≤ maxUint32) :
    (x.enlist o).Reckoned where
  toTallied := h.toTallied.enlist o hword
  nonzero k := by
    unfold Indexes.enlist
    dsimp only
    split
    · exact h.nonzero k
    · exact writeCount_nonzero h.nonzero _ _ k

theorem Indexes.Reckoned.delist (h : x.Reckoned) (o : Order) : (x.delist o).Reckoned where
  toTallied := h.toTallied.delist o
  nonzero k := by
    unfold Indexes.delist
    dsimp only
    split
    · exact writeCount_nonzero h.nonzero _ _ k
    · exact h.nonzero k

/-! ### Writing one order -/

namespace Indexes.Exact

/-- The row of `r` is written, and every store replaces the entry of the old row by that of `r`. -/
theorem write (h : x.Exact fired) (r : Order) (horders : x'.orders = x.orders.put r)
    (hopen : x'.openOrders
      = x.openOrders.replace ((x.orders.get r.orderIndex).bind openEntry) (openEntry r))
    (htallied : x'.Tallied)
    (hclients : x'.clients
      = x.clients.replace ((x.orders.get r.orderIndex).bind clientEntry) (clientEntry r))
    (hfree : ∀ (o : Order) l w w', x.orders.get o.orderIndex = some o →
      clientEntry r = some (l, w) → clientEntry o = some (l, w') → o.orderIndex = r.orderIndex)
    (htriggers : x'.triggers
      = x.triggers.replace ((x.orders.get r.orderIndex).bind triggerEntry) (triggerEntry r))
    (hexpiries : x'.expiries = x.expiries.replace
      ((x.orders.get r.orderIndex).bind (expiryEntry fired)) (expiryEntry fired' r))
    (hfired : ∀ i, i ≠ r.orderIndex → (fired' = some i ↔ fired = some i)) : x'.Exact fired' where
  openOrders := by
    rw [horders, hopen]
    refine h.openOrders.put r (fun _ _ => rfl) fun o l w w' _ he he' => ?_
    rw [← openEntry_index he, ← openEntry_index he']
  tallied := htallied
  clients := by
    rw [horders, hclients]
    exact h.clients.put r (fun _ _ => rfl) hfree
  triggers := by
    rw [horders, htriggers]
    refine h.triggers.put r (fun _ _ => rfl) fun o l w w' _ he he' => ?_
    rw [← triggerEntry_index he, ← triggerEntry_index he']
  expiries := by
    rw [horders, hexpiries]
    refine h.expiries.put r (fun o ho => ?_) fun o l w w' _ he he' => ?_
    · simp only [expiryEntry, ne_eq, hfired o.orderIndex ho]
    · rw [← expiryEntry_index he, ← expiryEntry_index he']

theorem relabelled (h : x.Exact fired) (ho : x.orders.get r.orderIndex = some o)
    (hopen : openEntry r = openEntry o) (hclient : clientEntry r = clientEntry o)
    (htrigger : triggerEntry r = triggerEntry o)
    (hexpiry : expiryEntry fired r = expiryEntry fired o) : (x.put r).Exact fired := by
  have hrow : x.orders.get o.orderIndex = some o := by rwa [Table.key_of_get ho]
  have hsame : ∀ {L W : Type} [LinearOrder L] {entry : Order → Option (L × W)} {S : KVStore L W},
      IsIndex x.orders entry S → entry r = entry o →
      S = S.replace ((x.orders.get r.orderIndex).bind entry) (entry r) := by
    intro L W _ entry S hS heq
    rw [ho, Option.bind_some, heq, hS.replace_same hrow]
  refine h.write r rfl (hsame h.openOrders hopen) (h.tallied.congr rfl rfl)
    (hsame h.clients hclient) ?_
    (hsame h.triggers htrigger) (hsame h.expiries hexpiry) fun _ _ => Iff.rfl
  intro o₁ l w w' ho₁ he he₁
  have hidx : o.orderIndex = r.orderIndex := Table.key_of_get ho
  exact (h.clients.unique o₁ o l w' w ho₁ hrow he₁ (hclient ▸ he)).trans hidx

theorem opened (h : x.Exact fired) (hlive : o.status.isLive = true)
    (hx' : x' = ((if o.status = .triggeredPending then x.wait o else x).mark o).put o)
    (hold : ∀ o₀, x.orders.get o.orderIndex = some o₀ →
      o₀.status = .opened ∧ o₀.SameKeys o ∧ fired = some o.orderIndex)
    (hfree : x.orders.get o.orderIndex = none → o.clientOrderIndex ≠ 0 →
      x.clients.get o.clientKey = none)
    (hword : x.openOrders.has o.accountOpenOrderKey = false → x.countOf o + 1 ≤ maxUint32)
    (hfired : ∀ i, i ≠ o.orderIndex → (fired' = some i ↔ fired = some i))
    (hstored : fired' ≠ some o.orderIndex) : x'.Exact fired' := by
  have hopen : x'.openOrders = x.openOrders.set o.accountOpenOrderKey () := by
    rw [hx']
    split <;> rfl
  have hcounts : x'.counts = (x.enlist o).counts := by
    rw [hx']
    split <;> rfl
  have hclients : x'.clients = if o.clientOrderIndex ≠ 0
      then x.clients.set o.clientKey o.orderIndex else x.clients := by
    rw [hx']
    split <;> rfl
  have htriggers : x'.triggers = if o.status = .triggeredPending
      then x.triggers.set (triggerKey o.marketIndex o.triggerPrice o.orderIndex) ()
      else x.triggers := by
    rw [hx']
    split <;> rfl
  have hexpiries : x'.expiries = if indexExpiry o = true then x.expiries.set o.expiryKey ()
      else x.expiries := by
    rw [hx']
    split <;> rfl
  have horders : x'.orders = x.orders.put o := by
    rw [hx']
    split <;> rfl
  have htallied : x'.Tallied := (h.tallied.enlist o hword).congr hopen hcounts
  have hnewOpen : openEntry o = some (o.accountOpenOrderKey, ()) := if_pos hlive
  have hnewExpiry : expiryEntry fired' o
      = if indexExpiry o = true then some (o.expiryKey, ()) else none := by
    simp [expiryEntry, hlive, hstored]
  rcases hget : x.orders.get o.orderIndex with _ | o₀
  · refine h.write o horders ?_ htallied ?_ ?_ ?_ ?_ hfired
    · rw [hget, hnewOpen, hopen]
      rfl
    · rw [hget, hclients, clientEntry]
      by_cases hc : o.clientOrderIndex ≠ 0
      · simp [hc, hlive]
      · simp [hc]
    · intro o₁ l w w' ho₁ he he₁
      have hc : o.clientOrderIndex ≠ 0 ∧ o.clientKey = l := by
        unfold clientEntry at he
        split at he
        · rename_i hc
          cases he
          exact ⟨hc.2, rfl⟩
        · cases he
      have hnone := hfree hget hc.1
      rw [hc.2, h.clients.get ho₁ he₁] at hnone
      cases hnone
    · rw [hget, htriggers, triggerEntry]
      by_cases hst : o.status = .triggeredPending
      · simp [hst]
      · simp [hst]
    · rw [hget, hexpiries, hnewExpiry]
      split <;> rfl
  · obtain ⟨hst₀, hkeys, hfired₀⟩ := hold o₀ hget
    have hlive₀ : o₀.status.isLive = o.status.isLive := by
      rw [hst₀, hlive]
      rfl
    have hrow : x.orders.get o₀.orderIndex = some o₀ := by rwa [hkeys.index]
    refine h.write o horders ?_ htallied ?_ ?_ ?_ ?_ hfired
    · rw [hget, Option.bind_some, openEntry_congr hkeys hlive₀, hnewOpen,
        KVStore.replace_some_some, hopen]
    · rw [hget, Option.bind_some, clientEntry_congr hkeys hlive₀, hclients, clientEntry]
      by_cases hc : o.clientOrderIndex ≠ 0
      · simp [hc, hlive, KVStore.replace_some_some]
      · simp [hc]
    · intro o₁ l w w' ho₁ he he₁
      rw [← clientEntry_congr hkeys hlive₀] at he
      exact (h.clients.unique o₁ o₀ l w' w ho₁ hrow he₁ he).trans hkeys.index
    · have hnone : triggerEntry o₀ = none := by simp [triggerEntry, hst₀]
      rw [hget, Option.bind_some, hnone, htriggers, triggerEntry]
      split <;> rfl
    · have hnone : expiryEntry fired o₀ = none := by simp [expiryEntry, hfired₀, hkeys.index]
      rw [hget, Option.bind_some, hnone, hexpiries, hnewExpiry]
      split <;> rfl

theorem removeExpiry_eq (h : x.Exact fired) (hrow : x.orders.get o.orderIndex = some o) :
    (if o.expiry ≠ 0 then x.expiries.remove o.expiryKey else x.expiries)
      = x.expiries.replace (expiryEntry fired o) none := by
  rcases he : expiryEntry fired o with _ | ⟨l, w⟩
  · -- not listed, so there is nothing under its key
    have hnone : x.expiries.get o.expiryKey = none := by
      refine h.expiries.get_none fun o₁ w ho₁ he₁ => ?_
      have hidx : o.orderIndex = o₁.orderIndex := expiryEntry_index he₁
      rw [← hidx, hrow] at ho₁
      rw [← Option.some.inj ho₁, he] at he₁
      cases he₁
    rw [KVStore.remove_of_get_none hnone, KVStore.replace_none_none, ite_self]
  · unfold expiryEntry at he
    split at he
    · rename_i hc
      cases he
      have hpos : 0 < o.expiry := by
        have := hc.2.1
        simp only [indexExpiry, Bool.and_eq_true, decide_eq_true_eq] at this
        exact this.2
      rw [if_pos (by omega)]
      rfl
    · cases he

theorem closed (h : x.Exact fired) (hrow : x.orders.get r.orderIndex = some o)
    (hlive : o.status.isLive = true) (hend : r.status.isLive = false)
    (hx' : x' = ((if o.status = .triggeredPending then x.unwait o else x).unmark o).put r)
    (hfired : ∀ i, i ≠ r.orderIndex → (fired' = some i ↔ fired = some i)) : x'.Exact fired' := by
  have hidx : o.orderIndex = r.orderIndex := Table.key_of_get hrow
  have hrow' : x.orders.get o.orderIndex = some o := by rwa [hidx]
  have horders : x'.orders = x.orders.put r := by
    rw [hx']
    split <;> rfl
  have hopen : x'.openOrders = x.openOrders.remove o.accountOpenOrderKey := by
    rw [hx']
    split <;> rfl
  have hcounts : x'.counts = (x.delist o).counts := by
    rw [hx']
    split <;> rfl
  have hclients : x'.clients = (x.unindexClientIfMatches o).clients := by
    rw [hx']
    split <;> rfl
  have htriggers : x'.triggers = if o.status = .triggeredPending
      then x.triggers.remove (triggerKey o.marketIndex o.triggerPrice o.orderIndex)
      else x.triggers := by
    rw [hx']
    split <;> rfl
  have hexpiries : x'.expiries
      = if o.expiry ≠ 0 then x.expiries.remove o.expiryKey else x.expiries := by
    rw [hx']
    split <;> rfl
  have hpending : r.status ≠ .triggeredPending := fun heq => by simp [heq, OrderStatus.isLive] at hend
  have hgone : clientEntry r = none := by simp [clientEntry, hend]
  refine h.write r horders ?_ ((h.tallied.delist o).congr hopen hcounts) ?_ ?_ ?_ ?_ hfired
  · rw [hrow, hopen]
    simp [openEntry, hlive, hend]
  · rw [hrow, hclients, Option.bind_some, hgone, Indexes.unindexClientIfMatches]
    by_cases hc : o.clientOrderIndex ≠ 0
    · have he : clientEntry o = some (o.clientKey, o.orderIndex) := if_pos ⟨hlive, hc⟩
      simp [hc, he, h.clients.get hrow' he]
    · simp [hc, clientEntry]
  · intro o₁ l w w' _ he
    rw [hgone] at he
    cases he
  · rw [hrow, htriggers, Option.bind_some]
    simp only [triggerEntry, if_neg hpending]
    split <;> rfl
  · rw [hrow, hexpiries, h.removeExpiry_eq hrow', Option.bind_some]
    simp [expiryEntry, hend]

theorem activated (h : x.Exact none) (hrow : x.orders.get o.orderIndex = some o)
    (hst : o.status = .triggeredPending) :
    (((x.unwait o).removeExpiry o).put { o with status := .opened }).Exact
      (some o.orderIndex) := by
  have hlive : o.status.isLive = true := by
    rw [hst]
    rfl
  have hkeys : ({ o with status := .opened } : Order).SameKeys o := ⟨rfl, rfl, rfl, rfl, rfl⟩
  have hopened : ({ o with status := .opened } : Order).status.isLive = o.status.isLive := by
    rw [hlive]
    rfl
  refine h.write { o with status := .opened } rfl ?_ (h.tallied.congr rfl rfl) ?_ ?_ ?_ ?_ ?_
  · show x.openOrders = x.openOrders.replace ((x.orders.get o.orderIndex).bind openEntry) _
    rw [hrow, Option.bind_some, openEntry_congr hkeys hopened, h.openOrders.replace_same hrow]
  · show x.clients = x.clients.replace ((x.orders.get o.orderIndex).bind clientEntry) _
    rw [hrow, Option.bind_some, clientEntry_congr hkeys hopened, h.clients.replace_same hrow]
  · intro o₁ l w w' ho₁ he he₁
    rw [clientEntry_congr hkeys hopened] at he
    exact h.clients.unique o₁ o l w' w ho₁ hrow he₁ he
  · show x.triggers.remove _ = x.triggers.replace ((x.orders.get o.orderIndex).bind triggerEntry) _
    rw [hrow, Option.bind_some, triggerEntry, if_pos hst]
    rfl
  · show (if o.expiry ≠ 0 then x.expiries.remove o.expiryKey else x.expiries)
      = x.expiries.replace ((x.orders.get o.orderIndex).bind (expiryEntry none)) _
    rw [hrow, h.removeExpiry_eq hrow, Option.bind_some]
    simp [expiryEntry]
  · intro i hi
    simpa using Ne.symm hi

theorem dismissed (h : x.Exact fired) (hrow : x.orders.get o.orderIndex = none)
    (hend : o.status.isLive = false) : ((x.unmark o).put o).Exact fired := by
  have hopenNone : x.openOrders.get o.accountOpenOrderKey = none := by
    refine h.openOrders.get_none fun o₁ w ho₁ he₁ => ?_
    have hidx : o.orderIndex = o₁.orderIndex := openEntry_index he₁
    rw [← hidx, hrow] at ho₁
    cases ho₁
  have hexpiryNone : x.expiries.get o.expiryKey = none := by
    refine h.expiries.get_none fun o₁ w ho₁ he₁ => ?_
    have hidx : o.orderIndex = o₁.orderIndex := expiryEntry_index he₁
    rw [← hidx, hrow] at ho₁
    cases ho₁
  have hclientNone : x.clients.get o.clientKey ≠ some o.orderIndex := by
    intro hget
    obtain ⟨o₁, ho₁, he₁⟩ := (h.clients.exact _ _).mp hget
    have hidx : o₁.orderIndex = o.orderIndex := by
      unfold clientEntry at he₁
      split at he₁
      · exact (Prod.mk.inj (Option.some.inj he₁)).2
      · cases he₁
    rw [hidx, hrow] at ho₁
    cases ho₁
  have hpending : o.status ≠ .triggeredPending := fun heq => by simp [heq, OrderStatus.isLive] at hend
  have hgone : clientEntry o = none := by simp [clientEntry, hend]
  refine h.write o rfl ?_ ((h.tallied.delist o).congr rfl rfl) ?_ ?_ ?_ ?_ fun _ _ => Iff.rfl
  · show x.openOrders.remove _ = _
    rw [hrow, KVStore.remove_of_get_none hopenNone]
    simp [openEntry, hend]
  · show (x.unindexClientIfMatches o).clients = _
    rw [hrow, hgone, Indexes.unindexClientIfMatches]
    simp [hclientNone]
  · intro o₁ l w w' _ he
    rw [hgone] at he
    cases he
  · rw [hrow, triggerEntry, if_neg hpending]
    rfl
  · show (if o.expiry ≠ 0 then x.expiries.remove o.expiryKey else x.expiries) = _
    rw [hrow, KVStore.remove_of_get_none hexpiryNone, ite_self]
    simp [expiryEntry, hend]

theorem recorded (h : x.Exact fired) (hrow : x.orders.get o.orderIndex = none)
    (hend : o.status.isLive = false) : (x.put o).Exact fired := by
  have hpending : o.status ≠ .triggeredPending := fun heq => by simp [heq, OrderStatus.isLive] at hend
  have hclient : clientEntry o = none := by simp [clientEntry, hend]
  refine h.write o rfl ?_ (h.tallied.congr rfl rfl) ?_ (fun _ l w _ _ he => ?_) ?_ ?_
    fun _ _ => Iff.rfl
  · rw [hrow, openEntry, if_neg (by rw [hend]; decide)]
    rfl
  · rw [hrow, hclient]
    rfl
  · rw [hclient] at he
    cases he
  · rw [hrow, triggerEntry, if_neg hpending]
    rfl
  · rw [hrow, expiryEntry, if_neg (by simp [hend])]
    rfl

theorem unindexClient_eq (h : x.Exact fired) (hrow : x.orders.get o.orderIndex = some o)
    (hlive : o.status.isLive = true) : x.unindexClient o = x.unindexClientIfMatches o := by
  unfold Indexes.unindexClient Indexes.unindexClientIfMatches
  by_cases hc : o.clientOrderIndex ≠ 0
  · have he : clientEntry o = some (o.clientKey, o.orderIndex) := if_pos ⟨hlive, hc⟩
    simp [hc, h.clients.get hrow he]
  · simp [hc]

end Indexes.Exact

/-! ### What closing an order frees -/

/-- Client order ids that were free still are, and no count has grown. -/
structure Indexes.Shed (x x' : Indexes) : Prop where
  clients : ∀ k, x.clients.get k = none → x'.clients.get k = none
  counts : ∀ k, (x'.counts.get k).getD 0 ≤ (x.counts.get k).getD 0

theorem Indexes.Shed.refl (x : Indexes) : x.Shed x := ⟨fun _ h => h, fun _ => le_rfl⟩

theorem Indexes.delist_counts (x : Indexes) (o : Order) (k : ℕ ×ₗ ℕ) :
    ((x.delist o).counts.get k).getD 0 ≤ (x.counts.get k).getD 0 := by
  unfold Indexes.delist
  by_cases hhas : x.openOrders.has o.accountOpenOrderKey = true
  · simp only [hhas, if_true]
    by_cases hk : k = o.countKey
    · rw [hk, get_writeCount]
      exact Nat.sub_le _ _
    · rw [get_writeCount_ne _ _ _ hk]
  · simp only [hhas, Bool.false_eq_true, if_false, le_refl]

theorem Indexes.unmark_put_shed (x : Indexes) (o r : Order) : x.Shed ((x.unmark o).put r) where
  clients k hk := by
    show (x.unindexClientIfMatches o).clients.get k = none
    unfold Indexes.unindexClientIfMatches
    simp only
    split
    · split
      · rw [KVStore.get_remove, hk, ite_self]
      · exact hk
    · exact hk
  counts := x.delist_counts o

/-! ### The indexes of a chain state -/

variable {s : State}

/-- The indexes of the orders in a chain state hold what they should. -/
structure ExactIndexes (s : State) : Prop where
  openOrders : ∀ a m i, s.book.accountOpenOrders.get (toLex (a, toLex (m, i))) = some () ↔
    ∃ o, s.book.orders.get i = some o ∧ o.ownerAccountIndex = a ∧ o.marketIndex = m ∧
      o.status.isLive = true
  counts : ∀ a m, getAccountOpenOrderCount s a m = (s.book.accountOpenOrders.keys.filter fun k =>
    (ofLex k).1 = a ∧ (ofLex (ofLex k).2).1 = m).card
  clients : ∀ m a c i, s.book.userOrderIndex.get (toLex (m, toLex (a, c))) = some i ↔
    c ≠ 0 ∧ ∃ o, s.book.orders.get i = some o ∧ o.marketIndex = m ∧ o.ownerAccountIndex = a ∧
      o.clientOrderIndex = c ∧ o.status.isLive = true
  oneOrder : ∀ i i' o o', s.book.orders.get i = some o → s.book.orders.get i' = some o' →
    o.status.isLive = true → o'.status.isLive = true → o.clientOrderIndex ≠ 0 →
    o.clientKey = o'.clientKey → i = i'
  triggers : ∀ m p i, s.book.triggerIndex.get (triggerKey m p i) = some () ↔
    ∃ o, s.book.orders.get i = some o ∧ o.marketIndex = m ∧ o.triggerPrice = p ∧
      o.status = .triggeredPending
  expiries : ∀ ms i, s.book.expiryIndex.get (toLex (ms, i)) = some () ↔
    ∃ o, s.book.orders.get i = some o ∧ o.status.isLive = true ∧ o.timeInForce = .gtt ∧
      0 < o.expiry ∧ o.expiry = ms

theorem openEntry_eq_some {a m i : ℕ} {w : Unit} :
    openEntry o = some (toLex (a, toLex (m, i)), w) ↔
      o.status.isLive = true ∧ o.ownerAccountIndex = a ∧ o.marketIndex = m ∧ o.orderIndex = i := by
  unfold openEntry Order.accountOpenOrderKey
  split <;> simp [*]

theorem clientEntry_eq_some {m a c i : ℕ} :
    clientEntry o = some (toLex (m, toLex (a, c)), i) ↔
      o.clientOrderIndex ≠ 0 ∧ o.status.isLive = true ∧ o.marketIndex = m ∧
        o.ownerAccountIndex = a ∧ o.clientOrderIndex = c ∧ o.orderIndex = i := by
  unfold clientEntry Order.clientKey
  split
  · rename_i hc
    simp [hc, and_assoc]
  · rename_i hc
    simp only [reduceCtorEq, false_iff]
    exact fun h => hc ⟨h.2.1, h.1⟩

theorem triggerEntry_eq_some {m p i : ℕ} {w : Unit} :
    triggerEntry o = some (triggerKey m p i, w) ↔
      o.status = .triggeredPending ∧ o.marketIndex = m ∧ o.triggerPrice = p ∧
        o.orderIndex = i := by
  unfold triggerEntry triggerKey
  split <;> simp [*]

theorem expiryEntry_eq_some {ms : ℤ} {i : ℕ} {w : Unit} :
    expiryEntry none o = some (toLex (ms, i), w) ↔
      o.status.isLive = true ∧ o.timeInForce = .gtt ∧ 0 < o.expiry ∧ o.expiry = ms ∧
        o.orderIndex = i := by
  unfold expiryEntry Order.expiryKey indexExpiry
  split
  · rename_i hc
    simp only [Bool.and_eq_true, decide_eq_true_eq] at hc
    simp [hc]
  · rename_i hc
    simp only [Bool.and_eq_true, decide_eq_true_eq, ne_eq, reduceCtorEq, not_false_eq_true,
      and_true] at hc
    simp only [reduceCtorEq, false_iff]
    exact fun h => hc ⟨h.1, h.2.1, h.2.2.1⟩

theorem Indexes.Exact.exactIndexes (h : (indexesOf s).Exact none) : ExactIndexes s where
  openOrders a m i := by
    refine (h.openOrders.exact _ ()).trans ⟨?_, ?_⟩
    · rintro ⟨o, ho, he⟩
      obtain ⟨hlive, rfl, rfl, rfl⟩ := openEntry_eq_some.mp he
      exact ⟨o, ho, rfl, rfl, hlive⟩
    · rintro ⟨o, ho, rfl, rfl, hlive⟩
      obtain rfl : o.orderIndex = i := Table.key_of_get ho
      exact ⟨o, ho, openEntry_eq_some.mpr ⟨hlive, rfl, rfl, rfl⟩⟩
  counts a m := by
    refine (h.tallied.tally.exact (toLex (a, m))).trans (congrArg Finset.card ?_)
    refine Finset.filter_congr fun k _ => ?_
    simp [countGroup]
  clients m a c i := by
    refine (h.clients.exact _ i).trans ⟨?_, ?_⟩
    · rintro ⟨o, ho, he⟩
      obtain ⟨hc, hlive, rfl, rfl, rfl, rfl⟩ := clientEntry_eq_some.mp he
      exact ⟨hc, o, ho, rfl, rfl, rfl, hlive⟩
    · rintro ⟨hc, o, ho, rfl, rfl, rfl, hlive⟩
      obtain rfl : o.orderIndex = i := Table.key_of_get ho
      exact ⟨o, ho, clientEntry_eq_some.mpr ⟨hc, hlive, rfl, rfl, rfl, rfl⟩⟩
  oneOrder i i' o o' ho ho' hlive hlive' hc hkey := by
    obtain rfl : o.orderIndex = i := Table.key_of_get ho
    obtain rfl : o'.orderIndex = i' := Table.key_of_get ho'
    have hc' : o'.clientOrderIndex ≠ 0 := by
      have hclient := congrArg (fun k => (ofLex (ofLex k).2).2) hkey
      exact (show o.clientOrderIndex = o'.clientOrderIndex from hclient) ▸ hc
    have he : clientEntry o = some (o.clientKey, o.orderIndex) := if_pos ⟨hlive, hc⟩
    have he' : clientEntry o' = some (o.clientKey, o'.orderIndex) := by
      rw [hkey]
      exact if_pos ⟨hlive', hc'⟩
    exact h.clients.unique o o' o.clientKey _ _ ho ho' he he'
  triggers m p i := by
    refine (h.triggers.exact _ ()).trans ⟨?_, ?_⟩
    · rintro ⟨o, ho, he⟩
      obtain ⟨hst, rfl, rfl, rfl⟩ := triggerEntry_eq_some.mp he
      exact ⟨o, ho, rfl, rfl, hst⟩
    · rintro ⟨o, ho, rfl, rfl, hst⟩
      obtain rfl : o.orderIndex = i := Table.key_of_get ho
      exact ⟨o, ho, triggerEntry_eq_some.mpr ⟨hst, rfl, rfl, rfl⟩⟩
  expiries ms i := by
    refine (h.expiries.exact _ ()).trans ⟨?_, ?_⟩
    · rintro ⟨o, ho, he⟩
      obtain ⟨hlive, htif, hpos, rfl, rfl⟩ := expiryEntry_eq_some.mp he
      exact ⟨o, ho, hlive, htif, hpos, rfl⟩
    · rintro ⟨o, ho, hlive, htif, hpos, rfl⟩
      obtain rfl : o.orderIndex = i := Table.key_of_get ho
      exact ⟨o, ho, expiryEntry_eq_some.mpr ⟨hlive, htif, hpos, rfl, rfl⟩⟩

end PerpDex
