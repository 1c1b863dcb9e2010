/-
The order book keeper keeps its stores consistent, operation by operation.

* `BookRep` — entries, pointers and sums per price are the image of the stored orders, and every order on
  the book can be taken off it.

Main result: `book_represents_orders`.

The keeper checks its own consistency while it works.  That the checks never fail is part of the same
induction.
-/
import PerpDex.BookFrame
import PerpDex.BookPages
import PerpDex.ExactIndexes

namespace PerpDex

open Txn

/-! ### The invariant -/

namespace Order

/-- The fields are values of their machine types. -/
structure Typed (o : Order) : Prop where
  price : o.price ≤ maxUint32
  nonce : minInt64 ≤ o.nonce ∧ o.nonce ≤ maxInt64
  remaining : o.remainingBaseAmount ≤ maxUint64

/-- Something is left of the order, it has a value, and its market exists. -/
structure Backed (o : Order) (s : State) : Prop where
  remaining : 0 < o.remainingBaseAmount
  quote : checkedQuote o.remainingBaseAmount o.price = .ok (o.remainingBaseAmount * o.price)
  market : ∃ market, s.market.markets.get o.marketIndex = some market

end Order

/-- Entries, pointers and sums are the image of the stored orders, and every order on the book can
be taken off it. -/
structure BookRep (s : State) (held : Option ℕ) : Prop where
  pages : (pagesOf s).Shows s.book.orders held
  reckoned : (indexesOf s).Reckoned
  typed : ∀ o : Order, s.book.orders.get o.orderIndex = some o → o.Typed
  unrivaled : ∀ o o' : Order, s.book.orders.get o.orderIndex = some o →
    s.book.orders.get o'.orderIndex = some o' → o.Rivals o' → o.orderIndex = o'.orderIndex
  backed : ∀ o : Order, s.book.orders.get o.orderIndex = some o → o.shown held = true → o.Backed s

def MarketsStay (s t : State) : Prop :=
  ∀ m mk, s.market.markets.get m = some mk → ∃ mk', t.market.markets.get m = some mk'

variable {s t : State} {held held' : Option ℕ} {o o' r : Order} {i : ℕ} {st : OrderStatus}
  {e : Err} {u : Unit}

theorem OrderFrame.marketsStay (h : OrderFrame s t) : MarketsStay s t := by
  intro m mk hmk
  rw [h]
  exact ⟨mk, hmk⟩

theorem Order.Backed.mono (h : o.Backed s) (hst : MarketsStay s t) : o.Backed t where
  remaining := h.remaining
  quote := h.quote
  market := by
    obtain ⟨market, hmarket⟩ := h.market
    exact hst _ market hmarket

theorem computeSpotLock_nonneg (o : Order) (market : Market) :
    0 ≤ (computeSpotLock o market).2 := by
  unfold computeSpotLock
  split
  · exact Int.natCast_nonneg _
  · exact Int.mul_nonneg (Int.natCast_nonneg _) (Int.natCast_nonneg _)

namespace BookRep

theorem write (h : BookRep s held) (r : Order) (horders : t.book.orders = s.book.orders.put r)
    (hpages : (pagesOf t).Shows (s.book.orders.put r) held') (hreckoned : (indexesOf t).Reckoned)
    (htyped : r.Typed)
    (hrivals : ∀ o : Order, s.book.orders.get o.orderIndex = some o → o.Rivals r →
      o.orderIndex = r.orderIndex)
    (hbacked : r.shown held' = true → r.Backed t) (hheld : SameHand r.orderIndex held held')
    (hmarkets : MarketsStay s t) : BookRep t held' where
  pages := horders ▸ hpages
  reckoned := hreckoned
  typed o ho := by
    rw [horders, Table.get_put] at ho
    split at ho
    · cases ho
      exact htyped
    · exact h.typed o ho
  unrivaled o o' ho ho' hriv := by
    rw [horders, Table.get_put] at ho ho'
    split at ho
    · cases ho
      split at ho'
      · cases ho'
        rfl
      · exact (hrivals o' ho' ⟨hriv.1.symm, hriv.2.1.symm, hriv.2.2.symm⟩).symm
    · split at ho'
      · cases ho'
        exact hrivals o ho hriv
      · exact h.unrivaled o o' ho ho' hriv
  backed o ho hshown := by
    rw [horders, Table.get_put] at ho
    split at ho
    · cases ho
      exact hbacked hshown
    · rename_i hne
      exact (h.backed o ho (hheld.shown hne ▸ hshown)).mono hmarkets

theorem congr (h : BookRep s held) (hpages : pagesOf t = pagesOf s)
    (horders : t.book.orders = s.book.orders) (hreckoned : (indexesOf t).Reckoned)
    (hmarkets : MarketsStay s t) : BookRep t held where
  pages := by
    rw [hpages, horders]
    exact h.pages
  reckoned := hreckoned
  typed o ho := h.typed o (horders ▸ ho)
  unrivaled o o' ho ho' := h.unrivaled o o' (horders ▸ ho) (horders ▸ ho')
  backed o ho hshown := (h.backed o (horders ▸ ho) hshown).mono hmarkets

theorem outside (h : BookRep s held) (hbook : t.book = s.book) (hmarkets : MarketsStay s t) :
    BookRep t held :=
  h.congr (by rw [pagesOf, pagesOf, hbook]) (by rw [hbook])
    (h.reckoned.congr (congrArg BookStore.accountOpenOrders hbook)
      (congrArg BookStore.accountOpenOrderCount hbook)) hmarkets

/-! ### Closing an order -/

theorem close (h : BookRep s held) (ho : s.book.orders.get o.orderIndex = some o)
    (hhidden : o.shown held = false) (hend : st.isResting = false)
    (hheld : SameHand o.orderIndex held held') :
    ∃ t, (closeOrder o st).run s = .ok { o with status := st } t ∧ BookRep t held' := by
  obtain ⟨t, hrun, hindexes⟩ := closeOrder_run h.reckoned.counted o st
  have hpages : pagesOf t = pagesOf s := (closeOrder_pages o st).ok hrun
  have hframe : OrderFrame s t := (closeOrder_frame o st).ok hrun
  have hnew : Order.shown held' { o with status := st } = false := by simp [Order.shown, hend]
  refine ⟨t, hrun, h.write { o with status := st } (congrArg Indexes.orders hindexes) ?_ ?_ ?_ ?_
    (fun hs => absurd hs (by rw [hnew]; decide)) hheld hframe.marketsStay⟩
  · rw [hpages]
    refine h.pages.aside _ hheld (fun o₁ ho₁ => ?_) hnew
    cases ho.symm.trans ho₁
    exact hhidden
  · rw [hindexes]
    exact (h.reckoned.delist o).congr rfl rfl
  · exact ⟨(h.typed o ho).price, (h.typed o ho).nonce, (h.typed o ho).remaining⟩
  · exact fun o₁ ho₁ hriv => h.unrivaled o₁ o ho₁ ho hriv

theorem release_run {market : Market} (hmarket : s.market.markets.get o.marketIndex = some market) :
    ∃ t, (releaseSpotLockOnClose o).run s = .ok () t := by
  have hnonneg : ¬ (computeSpotLock o market).2 < 0 := not_lt.mpr (computeSpotLock_nonneg o market)
  rw [releaseSpotLockOnClose, withSpotLock, run_bind_read, getMarket_eq_ok.mpr hmarket]
  show ∃ t, (Txn.when _ _).run s = .ok () t
  rw [run_when]
  split
  · by_cases hzero : (computeSpotLock o market).2 = 0
    · exact ⟨s, by rw [decreaseLockedBalance, if_pos hzero]; rfl⟩
    · rw [decreaseLockedBalance, if_neg hzero, if_neg hnonneg]
      exact ⟨_, rfl⟩
  · exact ⟨s, rfl⟩

theorem takeOff (h : BookRep s held) (ho : s.book.orders.get o.orderIndex = some o)
    (hshown : o.shown held = true) (hend : st.isResting = false) :
    ∃ s₁ s₂ t, (removeEntry o.marketIndex o.isAsk o.orderIndex).run s = .ok () s₁ ∧
      (releaseSpotLockOnClose o).run s₁ = .ok () s₂ ∧
      (closeOrder o st).run s₂ = .ok { o with status := st } t ∧ BookRep t held := by
  have hback := h.backed o ho hshown
  obtain ⟨pl, hadj, hshows⟩ := h.pages.leave ho hshown (h.typed o ho).remaining hback.quote
    (checkedQuote_word hback.quote)
  obtain ⟨s₁, hremove, hpages₁⟩ := removeEntry_run (h.pages.find_shown ho hshown) hback.quote hadj
  have hframe₁ : OrderFrame s s₁ := (removeEntry_frame _ _ _).ok hremove
  have hindexes₁ : indexesOf s₁ = indexesOf s := (removeEntry_indexes _ _ _).ok hremove
  obtain ⟨market, hmarket⟩ := hback.market
  obtain ⟨market₁, hmarket₁⟩ := hframe₁.marketsStay _ market hmarket
  obtain ⟨s₂, hrelease⟩ := release_run hmarket₁
  have hbook : s₂.book = s₁.book := ((releaseSpotLockOnClose_book o).ok hrelease).book
  have hframe₂ : OrderFrame s₁ s₂ := (releaseSpotLockOnClose_frame o).ok hrelease
  have hindexes₂ : indexesOf s₂ = indexesOf s := by
    rw [← hindexes₁, indexesOf, hbook]
    rfl
  have hcounted : (indexesOf s₂).Counted := by
    rw [hindexes₂]
    exact h.reckoned.counted
  obtain ⟨t, hclose, hindexes⟩ := closeOrder_run hcounted o st
  rw [hindexes₂] at hindexes
  have hpages : pagesOf t = ((pagesOf s).drop o.marketIndex o.orderIndex o.sortKey).write pl := by
    have hsame : pagesOf t = pagesOf s₂ := (closeOrder_pages o st).ok hclose
    rw [hsame, ← hpages₁, pagesOf, hbook]
    rfl
  have hframe₃ : OrderFrame s₂ t := (closeOrder_frame o st).ok hclose
  have hnew : Order.shown held { o with status := st } = false := by simp [Order.shown, hend]
  refine ⟨s₁, s₂, t, hremove, hrelease, hclose, h.write { o with status := st }
    (congrArg Indexes.orders hindexes) ?_ ?_ ?_ ?_ (fun hs => absurd hs (by rw [hnew]; decide))
    (fun _ _ => Iff.rfl) (trans_of OrderFrame hframe₁ (trans_of OrderFrame hframe₂ hframe₃)).marketsStay⟩
  · rw [hpages]
    exact hshows _ rfl hnew
  · rw [hindexes]
    exact (h.reckoned.delist o).congr rfl rfl
  · exact ⟨(h.typed o ho).price, (h.typed o ho).nonce, (h.typed o ho).remaining⟩
  · exact fun o₁ ho₁ hriv => h.unrivaled o₁ o ho₁ ho hriv

end BookRep

/-! ### Operations on a stored order -/

/-- The operation went through and left the book consistent, or failed for another reason than an
inconsistency and left the book as it was. -/
inductive Attempted {α : Type} (s : State) (held held' : Option ℕ) : EStateM.Result Err State α →
    Prop
  | done {a : α} {t : State} (h : BookRep t held') : Attempted s held held' (.ok a t)
  | refused {e : Err} {t : State} (he : e.sentinel ≠ .orderbookInvariantViolated)
      (hbook : t.book = s.book) (h : BookRep t held) : Attempted s held held' (.error e t)

theorem Attempted.after {α : Type} {x : Tx α} (h : Attempted s held held (x.run s)) :
    BookRep (after x s) held := by
  rcases hrun : x.run s with ⟨a, t⟩ | ⟨e, t⟩
  · rw [hrun] at h
    cases h with
    | done h => rwa [after_of_ok hrun]
  · rw [hrun] at h
    cases h with
    | refused _ _ h => rwa [after_of_error hrun]

theorem Attempted.no_violation {α : Type} {x : Tx α} (h : Attempted s held held' (x.run s))
    (hrun : x.run s = .error e t) : e.sentinel ≠ .orderbookInvariantViolated := by
  rw [hrun] at h
  cases h with
  | refused he _ _ => exact he

theorem releaseSpotLockOnClose_cases (o : Order) (s : State) :
    (∃ t, (releaseSpotLockOnClose o).run s = .ok () t) ∨
      ∃ text, (releaseSpotLockOnClose o).run s = .error ⟨.marketNotFound, text⟩ s := by
  rcases hmarket : s.market.markets.get o.marketIndex with _ | market
  · right
    rw [releaseSpotLockOnClose, withSpotLock, run_bind_read, getMarket, hmarket]
    exact ⟨_, rfl⟩
  · exact .inl (BookRep.release_run hmarket)

theorem BookRep.close_attempt (h : BookRep s held) (ho : s.book.orders.get o.orderIndex = some o)
    (hhidden : o.shown held = false) (hend : st.isResting = false)
    (hheld : SameHand o.orderIndex held held') : Attempted s held held' ((do
      removeEntry o.marketIndex o.isAsk o.orderIndex
      releaseSpotLockOnClose o
      closeOrder o st : Tx Order).run s) := by
  have hnone : (pagesOf s).find o.marketIndex o.orderIndex = none :=
    h.pages.find_hidden (fun o₁ ho₁ => by cases ho.symm.trans ho₁; exact hhidden) _
  have hremove : (removeEntry o.marketIndex o.isAsk o.orderIndex).run s = .ok () s :=
    removeEntry_absent hnone
  rcases releaseSpotLockOnClose_cases o s with ⟨s₁, hrelease⟩ | ⟨text, hrelease⟩
  · have hbook : s₁.book = s.book := ((releaseSpotLockOnClose_book o).ok hrelease).book
    have hframe : OrderFrame s s₁ := (releaseSpotLockOnClose_frame o).ok hrelease
    obtain ⟨t, hclose, hrep⟩ := (h.outside hbook hframe.marketsStay).close (hbook ▸ ho) hhidden hend
      hheld
    rw [run_bind_ok.mpr ⟨_, _, hremove, run_bind_ok.mpr ⟨_, _, hrelease, hclose⟩⟩]
    exact .done hrep
  · rw [run_bind_error.mpr (.inr ⟨_, _, hremove, run_bind_error.mpr (.inl hrelease)⟩)]
    exact .refused (by simp) rfl h

theorem BookRep.takeOff_run (h : BookRep s held) (ho : s.book.orders.get o.orderIndex = some o)
    (hshown : o.shown held = true) (hend : st.isResting = false) :
    ∃ t, (do
      removeEntry o.marketIndex o.isAsk o.orderIndex
      releaseSpotLockOnClose o
      closeOrder o st : Tx Order).run s = .ok { o with status := st } t ∧ BookRep t held := by
  obtain ⟨s₁, s₂, t, hremove, hrelease, hclose, hrep⟩ := h.takeOff ho hshown hend
  exact ⟨t, run_bind_ok.mpr ⟨_, _, hremove, run_bind_ok.mpr ⟨_, _, hrelease, hclose⟩⟩, hrep⟩

theorem run_getOrder {α : Type} {f : Order → Tx α} (ho : s.book.orders.get i = some o) :
    (Txn.read (getOrder i) >>= f).run s = (f o).run s := by
  rw [run_bind_read, getOrder, ho]

theorem run_getOrder_none {α : Type} {f : Order → Tx α} (ho : s.book.orders.get i = none) :
    ∃ text, (Txn.read (getOrder i) >>= f).run s = .error ⟨.orderNotFound, text⟩ s := by
  rw [run_bind_read, getOrder, ho]
  exact ⟨_, rfl⟩

theorem evictMakerOrder_eq (ho : s.book.orders.get o.orderIndex = some o) :
    (evictMakerOrder o.orderIndex st).run s = (do
      removeEntry o.marketIndex o.isAsk o.orderIndex
      releaseSpotLockOnClose o
      closeOrder o st : Tx Order).run s := run_getOrder ho

theorem evictMakerOrder_run (h : BookRep s held) (ho : s.book.orders.get i = some o)
    (hshown : o.shown held = true) (hend : st.isResting = false) :
    ∃ t, (evictMakerOrder i st).run s = .ok { o with status := st } t ∧ BookRep t held := by
  obtain rfl := Table.key_of_get ho
  rw [evictMakerOrder_eq ho]
  exact h.takeOff_run ho hshown hend

theorem evictMakerOrder_rep (h : BookRep s held) (i : ℕ) (hend : st.isResting = false) :
    Attempted s held held ((evictMakerOrder i st).run s) := by
  rcases ho : s.book.orders.get i with _ | o
  · have hrun : ∃ text, (evictMakerOrder i st).run s = .error ⟨.orderNotFound, text⟩ s :=
      run_getOrder_none ho
    obtain ⟨text, hrun⟩ := hrun
    rw [hrun]
    exact .refused (by simp) rfl h
  · cases hshown : o.shown held with
    | true =>
      obtain ⟨t, hrun, hrep⟩ := evictMakerOrder_run h ho hshown hend
      rw [hrun]
      exact .done hrep
    | false =>
      obtain rfl := Table.key_of_get ho
      rw [evictMakerOrder_eq ho]
      exact h.close_attempt ho hshown hend fun _ _ => Iff.rfl

theorem cancelOrder_eq (ho : s.book.orders.get o.orderIndex = some o)
    (hst : o.status.isResting = true) (hrem : o.remainingBaseAmount ≠ 0) :
    (cancelOrder o.orderIndex).run s = (do
      removeEntry o.marketIndex o.isAsk o.orderIndex
      releaseSpotLockOnClose o
      closeOrder o .cancelled : Tx Order).run s := by
  rw [cancelOrder, run_getOrder ho, detachOrder, if_pos hst, Txn.require, if_pos hrem]
  simp only [pure_bind, bind_assoc]

theorem cancelOrder_run (h : BookRep s held) (ho : s.book.orders.get i = some o)
    (hshown : o.shown held = true) :
    ∃ t, (cancelOrder i).run s = .ok { o with status := .cancelled } t ∧ BookRep t held := by
  obtain rfl := Table.key_of_get ho
  rw [cancelOrder_eq ho (Order.shown_eq_true.mp hshown).1 (h.backed o ho hshown).remaining.ne']
  exact h.takeOff_run ho hshown rfl

theorem BookRep.cancel_pending (h : BookRep s held) (ho : s.book.orders.get o.orderIndex = some o)
    (hpending : o.status = .triggeredPending) (hsame : SameHand o.orderIndex held held') :
    ∃ t, (cancelOrder o.orderIndex).run s = .ok { o with status := .cancelled } t ∧
      BookRep t held' := by
  have hst : ¬ o.status.isResting = true := by
    rw [hpending]
    decide
  have hhidden : o.shown held = false := Bool.eq_false_iff.mpr fun hshown =>
    hst (Order.shown_eq_true.mp hshown).1
  -- the trigger index does not matter here
  let s₁ := after (removeTrigger o.marketIndex o.triggerPrice o.orderIndex) s
  have hrep₁ : BookRep s₁ held := h.congr rfl rfl (h.reckoned.congr rfl rfl) fun _ mk hmk =>
    ⟨mk, hmk⟩
  have hremove : (removeTrigger o.marketIndex o.triggerPrice o.orderIndex).run s = .ok () s₁ := rfl
  have hclosed : ∃ t, (closeOrder o .cancelled).run s₁ = .ok { o with status := .cancelled } t ∧
      BookRep t held' := hrep₁.close ho hhidden rfl hsame
  obtain ⟨t, hclose, hrep⟩ := hclosed
  refine ⟨t, ?_, hrep⟩
  rw [cancelOrder, run_getOrder ho, detachOrder, if_neg hst, if_pos hpending]
  exact run_bind_ok.mpr ⟨_, _, hremove, hclose⟩

theorem cancelOrder_rep (h : BookRep s held) (i : ℕ)
    (hheld : held' = held ∨ held = some i ∧ held' = none) :
    Attempted s held held' ((cancelOrder i).run s) := by
  rcases ho : s.book.orders.get i with _ | o
  · have hrun : ∃ text, (cancelOrder i).run s = .error ⟨.orderNotFound, text⟩ s :=
      run_getOrder_none ho
    obtain ⟨text, hrun⟩ := hrun
    rw [hrun]
    exact .refused (by simp) rfl h
  obtain rfl := Table.key_of_get ho
  have hsame : SameHand o.orderIndex held held' := by
    rcases hheld with rfl | ⟨rfl, rfl⟩
    · exact fun _ _ => Iff.rfl
    · intro j hj
      simp [Ne.symm hj]
  cases hshown : o.shown held with
  | true =>
    obtain ⟨t, hrun, hrep⟩ := cancelOrder_run h ho hshown
    have heq : held' = held := hheld.resolve_right fun hc => (Order.shown_eq_true.mp hshown).2 hc.1
    rw [hrun, heq]
    exact .done hrep
  | false =>
    by_cases hst : o.status.isResting = true
    · by_cases hrem : o.remainingBaseAmount = 0
      · rw [cancelOrder, run_getOrder ho, detachOrder, if_pos hst, Txn.require,
          if_neg (not_not.mpr hrem)]
        exact .refused (by simp) rfl h
      · rw [cancelOrder_eq ho hst hrem]
        exact h.close_attempt ho hshown rfl hsame
    · by_cases hpending : o.status = .triggeredPending
      · obtain ⟨t, hrun, hrep⟩ := h.cancel_pending ho hpending hsame
        rw [hrun]
        exact .done hrep
      · rw [cancelOrder, run_getOrder ho, detachOrder, if_neg hst, if_neg hpending]
        exact .refused (by simp) rfl h

theorem orderbookEndBlocker_rep (h : BookRep s none) : BookRep (after orderbookEndBlocker s) none := by
  have := isPreorder_invariant fun v : State => BookRep v none
  have hcancel : ∀ i, Keeps (fun v w => BookRep v none → BookRep w none) (cancelOrder i) :=
    fun i v hv => (cancelOrder_rep hv i (.inl rfl)).after
  have hkeeps : Keeps (fun v w => BookRep v none → BookRep w none) orderbookEndBlocker :=
    Keeps.bind Keeps.read fun _ => Keeps.forM fun i _ =>
      Keeps.bind (Keeps.attempt (hcancel i)) fun _ => Keeps.pure
  exact hkeeps s h

/-- How a fill takes an order of which nothing is left off the lists. -/
def unlistFilled (o : Order) : Tx Unit := do
  unindexClientOrder o
  unindexAccountOpenOrder o
  removeExpiryIndex o

theorem unlistFilled_run (hx : (indexesOf s).Counted) (o : Order) :
    ∃ t, (unlistFilled o).run s = .ok () t ∧ pagesOf t = pagesOf s := by
  obtain ⟨s₁, h₁, hclient⟩ := unindexClientOrder_run s o
  have hx₁ : (indexesOf s₁).Counted := by
    rw [hclient]
    exact hx.congr rfl rfl
  obtain ⟨s₂, h₂, -⟩ := unindexAccountOpenOrder_run (o := o) hx₁
  obtain ⟨t, h₃, -⟩ := removeExpiryIndex_run s₂ o
  have hkeeps : Keeps SamePages (unlistFilled o) :=
    Keeps.bind (Keeps.when fun _ => Keeps.write fun _ => rfl) fun _ =>
      Keeps.bind (unindexAccountOpenOrder_pages o) fun _ =>
        Keeps.when fun _ => Keeps.write fun _ => rfl
  have hrun : (unlistFilled o).run s = .ok () t :=
    run_bind_ok.mpr ⟨_, _, h₁, run_bind_ok.mpr ⟨_, _, h₂, h₃⟩⟩
  exact ⟨t, hrun, hkeeps.ok hrun⟩

theorem fillMakerOrder_of_shrink {base delta : ℕ} {removed : Bool} {s₁ : State}
    (hx : (indexesOf s).Counted) (ho : s.book.orders.get i = some o)
    (hdelta : min base o.remainingBaseAmount = delta)
    (hshrink : (shrinkEntryResidue o.marketIndex o.isAsk i delta).run s = .ok removed s₁)
    (heq : removed = decide (o.remainingBaseAmount ≤ base)) :
    ∃ t, (fillMakerOrder i base).run s = .ok (applyOrderResidue o base) t ∧
      pagesOf t = pagesOf s₁ := by
  subst hdelta
  have hmin : applyOrderResidue o (min base o.remainingBaseAmount) = applyOrderResidue o base := by
    simp only [applyOrderResidue, min_assoc, min_self]
  have hdrained : (applyOrderResidue o base).remainingBaseAmount = 0 ↔
      o.remainingBaseAmount ≤ base := by
    simp only [applyOrderResidue]
    omega
  have hindexes : indexesOf s₁ = indexesOf s := (shrinkEntryResidue_indexes _ _ _ _).ok hshrink
  rw [← hindexes] at hx
  have hunlist : ∃ s₂, (Txn.when (decide ((applyOrderResidue o base).remainingBaseAmount = 0) = true)
      (unlistFilled (applyOrderResidue o base)) : Tx Unit).run s₁ = .ok () s₂ ∧
      pagesOf s₂ = pagesOf s₁ := by
    rw [run_when]
    split
    · exact unlistFilled_run hx _
    · exact ⟨s₁, rfl, rfl⟩
  obtain ⟨s₂, hunlist, hpages⟩ := hunlist
  refine ⟨after (setOrder (applyOrderResidue o base)) s₂, ?_, hpages⟩
  have hcheck : removed = decide ((applyOrderResidue o base).remainingBaseAmount = 0) := by
    rw [heq, decide_eq_decide.mpr hdrained]
  rw [fillMakerOrder, run_getOrder ho]
  dsimp only
  rw [hmin]
  exact run_bind_ok.mpr ⟨_, _, hshrink, run_bind_ok.mpr ⟨(), _, run_require_ok.mpr ⟨hcheck, rfl⟩,
    run_bind_ok.mpr ⟨_, _, hunlist, rfl⟩⟩⟩

namespace BookRep

variable {base : ℕ}

theorem fill_all (h : BookRep s held) (ho : s.book.orders.get o.orderIndex = some o)
    (hshown : o.shown held = true) (hall : o.remainingBaseAmount ≤ base) :
    ∃ t, (fillMakerOrder o.orderIndex base).run s = .ok (applyOrderResidue o base) t ∧
      BookRep t held := by
  have hx := h.reckoned.counted
  have hback := h.backed o ho hshown
  have htyped := h.typed o ho
  obtain ⟨pl, pl', hadj, hadj', hshows⟩ := h.pages.drain ho hshown htyped.remaining
    (checkedQuote_word hback.quote)
  obtain ⟨s₁, hshrink, hpages₁⟩ := shrinkEntryResidue_all (h.pages.find_shown ho hshown) le_rfl
    hback.quote hadj hadj'
  obtain ⟨t, hrun, hpages⟩ := fillMakerOrder_of_shrink hx ho (Nat.min_eq_right hall) hshrink
    (by simp [hall])
  obtain ⟨o₁, ho₁, -, hindexes⟩ := fillMakerOrder_indexes hx hrun
  cases ho.symm.trans ho₁
  have hrem : (applyOrderResidue o base).remainingBaseAmount = 0 := by
    simp only [applyOrderResidue]
    omega
  have hnew : (applyOrderResidue o base).shown held = false := by
    have hst : (applyOrderResidue o base).status = .filled := if_pos hrem
    simp [Order.shown, hst, OrderStatus.isResting]
  rw [if_pos hrem] at hindexes
  refine ⟨t, hrun, h.write (applyOrderResidue o base) (congrArg Indexes.orders hindexes) ?_ ?_
    ⟨htyped.price, htyped.nonce, (Nat.sub_le _ _).trans htyped.remaining⟩
    (fun o₁ ho₁ hriv => h.unrivaled o₁ o ho₁ ho hriv)
    (fun hs => absurd hs (by rw [hnew]; decide)) (fun _ _ => Iff.rfl)
    ((fillMakerOrder_bookOnly _ _).ok hrun).orderFrame.marketsStay⟩
  · rw [hpages, hpages₁]
    exact hshows _ rfl hnew
  · rw [hindexes]
    exact (h.reckoned.delist o).congr rfl rfl

theorem fill_part (h : BookRep s held) (ho : s.book.orders.get o.orderIndex = some o)
    (hshown : o.shown held = true) (hlt : base < o.remainingBaseAmount) :
    ∃ t, (fillMakerOrder o.orderIndex base).run s = .ok (applyOrderResidue o base) t ∧
      BookRep t held := by
  have hx := h.reckoned.counted
  have hback := h.backed o ho hshown
  have htyped := h.typed o ho
  have hquote := checkedQuote_part hback.quote hlt.le
  obtain ⟨pl, hadj⟩ := h.pages.sums_part ho hshown hlt.le
  obtain ⟨s₁, hshrink, hpages₁⟩ := shrinkEntryResidue_part (h.pages.find_shown ho hshown) hlt hquote
    hadj
  obtain ⟨t, hrun, hpages⟩ := fillMakerOrder_of_shrink hx ho (Nat.min_eq_left hlt.le) hshrink
    (by simp [hlt])
  obtain ⟨o₁, ho₁, -, hindexes⟩ := fillMakerOrder_indexes hx hrun
  cases ho.symm.trans ho₁
  have hres : applyOrderResidue o base = { o with
      remainingBaseAmount := o.remainingBaseAmount - base, status := .partiallyFilled } := by
    simp only [applyOrderResidue, Nat.min_eq_left hlt.le]
    rw [if_neg (by omega)]
  have hrem : (applyOrderResidue o base).remainingBaseAmount ≠ 0 := by
    rw [hres]
    exact (Nat.sub_pos_of_lt hlt).ne'
  have hmarkets : MarketsStay s t :=
    ((fillMakerOrder_bookOnly _ _).ok hrun).orderFrame.marketsStay
  rw [if_neg hrem] at hindexes
  refine ⟨t, hrun, h.write (applyOrderResidue o base) (congrArg Indexes.orders hindexes) ?_ ?_
    ⟨htyped.price, htyped.nonce, (Nat.sub_le _ _).trans htyped.remaining⟩
    (fun o₁ ho₁ hriv => h.unrivaled o₁ o ho₁ ho hriv) (fun _ => ?_) (fun _ _ => Iff.rfl) hmarkets⟩
  · rw [hpages, hpages₁, hres]
    exact h.pages.shrink ho hshown hlt.le (hlt.le.trans htyped.remaining) (checkedQuote_word hquote)
      hadj rfl
  · rw [hindexes]
    exact h.reckoned.congr rfl rfl
  · rw [hres]
    exact ⟨Nat.sub_pos_of_lt hlt, checkedQuote_part hback.quote (Nat.sub_le _ _),
      (hback.mono hmarkets).market⟩

end BookRep

theorem fillMakerOrder_run (h : BookRep s held) (ho : s.book.orders.get i = some o)
    (hshown : o.shown held = true) (base : ℕ) :
    ∃ t, (fillMakerOrder i base).run s = .ok (applyOrderResidue o base) t ∧ BookRep t held := by
  obtain rfl := Table.key_of_get ho
  rcases le_or_gt o.remainingBaseAmount base with hall | hlt
  · exact h.fill_all ho hshown hall
  · exact h.fill_part ho hshown hlt

theorem fillMakerOrder_rep (h : BookRep s held) (i base : ℕ) :
    Attempted s held held ((fillMakerOrder i base).run s) := by
  rcases ho : s.book.orders.get i with _ | o
  · have hrun : ∃ text, (fillMakerOrder i base).run s = .error ⟨.orderNotFound, text⟩ s :=
      run_getOrder_none ho
    obtain ⟨text, hrun⟩ := hrun
    rw [hrun]
    exact .refused (by simp) rfl h
  · cases hshown : o.shown held with
    | true =>
      obtain ⟨t, hrun, hrep⟩ := fillMakerOrder_run h ho hshown base
      rw [hrun]
      exact .done hrep
    | false =>
      have hnone : (pagesOf s).find o.marketIndex i = none :=
        h.pages.find_hidden (fun o₁ ho₁ => by cases ho.symm.trans ho₁; exact hshown) _
      rw [fillMakerOrder, run_getOrder ho]
      dsimp only
      rw [run_bind_error.mpr (.inl (shrinkEntryResidue_absent hnone))]
      exact .refused (by simp) rfl h

/-! ### Storing an order -/

/-- What is asked of an order that is stored: machine words, on the book only with something left, and
a nonce that no other order of its side has. -/
structure Order.Storable (o : Order) (s : State) : Prop where
  typed : o.Typed
  remaining : o.status.isResting = true → 0 < o.remainingBaseAmount
  unrivaled : ∀ o' : Order, s.book.orders.get o'.orderIndex = some o' → o'.Rivals o →
    o'.orderIndex = o.orderIndex

theorem BookRep.unclaimed (h : BookRep s held) (ho : o.Storable s) :
    Unclaimed s.book.orders held o := by
  intro o' ho' _ hmarket hsk
  have htyped := h.typed o' ho'
  obtain ⟨hside, -, hnonce⟩ := sortableKey_inj htyped.price ho.typed.price htyped.nonce ho.typed.nonce
    hsk
  exact ho.unrivaled o' ho' ⟨hmarket, hside, hnonce⟩

theorem openOrder_rep (h : BookRep s held) (ho : o.Storable s)
    (hold : ∀ o₀, s.book.orders.get o.orderIndex = some o₀ → o₀.shown held = false)
    (hheld : SameHand o.orderIndex held held') (hhand : held' ≠ some o.orderIndex)
    (hrun : (openOrder o).run s = .ok u t) : BookRep t held' := by
  have hmarkets : MarketsStay s t := ((openOrder_frame o).ok hrun).marketsStay
  have hindexes := openOrder_indexes h.reckoned.counted hrun
  cases hst : o.status.isResting with
  | true =>
    have hnew : o.shown held' = true := Order.shown_eq_true.mpr ⟨hst, hhand⟩
    obtain ⟨market, quote, pl, hmarket, hquote, hadj, hpages⟩ := openOrder_pages hst hrun
    rw [if_pos hst] at hindexes
    obtain ⟨hindexes, hword⟩ := hindexes
    refine h.write o (congrArg Indexes.orders hindexes) ?_ ?_ ho.typed ho.unrivaled (fun _ => ?_)
      hheld hmarkets
    · rw [hpages]
      exact h.pages.enter hheld hold hnew (h.unclaimed ho) ho.typed.remaining hquote
        (checkedQuote_word hquote) hadj
    · rw [hindexes]
      exact (h.reckoned.enlist o hword).congr rfl rfl
    · exact ⟨ho.remaining hst, checkedQuote_ok hquote ▸ hquote,
        hmarkets _ market (getMarket_eq_ok.mp hmarket)⟩
  | false =>
    have hnew : o.shown held' = false := by simp [Order.shown, hst]
    rw [if_neg (by rw [hst]; decide)] at hindexes
    refine h.write o (congrArg Indexes.orders hindexes) ?_ ?_ ho.typed ho.unrivaled
      (fun hs => absurd hs (by rw [hnew]; decide)) hheld hmarkets
    · rw [openOrder_closed_pages hst hrun]
      exact h.pages.aside o hheld hold hnew
    · rw [hindexes]
      exact (h.reckoned.delist o).congr rfl rfl

theorem openTriggerOrder_rep (h : BookRep s held) (ho : o.Storable s)
    (hst : o.status = .triggeredPending)
    (hold : ∀ o₀, s.book.orders.get o.orderIndex = some o₀ → o₀.shown held = false)
    (hrun : (openTriggerOrder o).run s = .ok u t) : BookRep t held := by
  have hnew : o.shown held = false := by simp [Order.shown, hst, OrderStatus.isResting]
  have hpages : pagesOf t = pagesOf s := (openTriggerOrder_pages o).ok hrun
  obtain ⟨hindexes, hword⟩ := openTriggerOrder_indexes hrun
  refine h.write o (congrArg Indexes.orders hindexes) ?_ ?_ ho.typed ho.unrivaled
    (fun hs => absurd hs (by rw [hnew]; decide)) (fun _ _ => Iff.rfl)
    ((openTriggerOrder_frame o).ok hrun).marketsStay
  · rw [hpages]
    exact h.pages.aside o (fun _ _ => Iff.rfl) hold hnew
  · rw [hindexes]
    exact (h.reckoned.enlist o hword).congr rfl rfl

theorem activateTrigger_rep (h : BookRep s none) (ho : s.book.orders.get i = some o)
    (hst : o.status = .triggeredPending) (hrun : (activateTrigger i).run s = .ok o' t) :
    BookRep t (some i) := by
  obtain rfl := Table.key_of_get ho
  obtain ⟨o₁, ho₁, rfl, hindexes⟩ := activateTrigger_indexes hrun
  cases ho.symm.trans ho₁
  have hheld : SameHand o.orderIndex none (some o.orderIndex) := by
    intro j hj
    simp [Ne.symm hj]
  have hpages : pagesOf t = pagesOf s := (activateTrigger_pages _).ok hrun
  have hhidden : o.shown none = false := by simp [Order.shown, hst, OrderStatus.isResting]
  have hnew : Order.shown (some o.orderIndex) { o with status := .opened } = false := by
    simp [Order.shown]
  have htyped := h.typed o ho
  refine h.write { o with status := .opened } (congrArg Indexes.orders hindexes) ?_ ?_
    ⟨htyped.price, htyped.nonce, htyped.remaining⟩
    (fun o₁ ho₁ hriv => h.unrivaled o₁ o ho₁ ho hriv) (fun hs => absurd hs (by rw [hnew]; decide))
    hheld ((activateTrigger_frame _).ok hrun).marketsStay
  · rw [hpages]
    refine h.pages.aside _ hheld (fun o₁ ho₁ => ?_) hnew
    cases ho.symm.trans ho₁
    exact hhidden
  · rw [hindexes]
    exact h.reckoned.congr rfl rfl

/-! ### Sequences of operations -/

/-- One operation of the keeper, and the trigger in hand before and after.  Storing an order is a step
if it succeeds; the other operations are steps whatever their outcome. -/
inductive BookOp : State × Option ℕ → State × Option ℕ → Prop
  | opened {s t : State} {o : Order} (hfresh : s.book.orders.get o.orderIndex = none)
      (ho : o.Storable s) (h : (openOrder o).run s = .ok () t) : BookOp (s, none) (t, none)
  | parked {s t : State} {o : Order} (hfresh : s.book.orders.get o.orderIndex = none)
      (ho : o.Storable s) (hst : o.status = .triggeredPending)
      (h : (openTriggerOrder o).run s = .ok () t) : BookOp (s, none) (t, none)
  | activated {s t : State} {i : ℕ} {o o' : Order} (ho : s.book.orders.get i = some o)
      (hst : o.status = .triggeredPending) (h : (activateTrigger i).run s = .ok o' t) :
      BookOp (s, none) (t, some i)
  | placed {s t : State} {o : Order} (ho : o.Storable s) (h : (openOrder o).run s = .ok () t) :
      BookOp (s, some o.orderIndex) (t, none)
  | dropped {s t : State} {i : ℕ} {o : Order} (h : (cancelOrder i).run s = .ok o t) :
      BookOp (s, some i) (t, none)
  | filled {s : State} {held : Option ℕ} (i base : ℕ) :
      BookOp (s, held) (after (fillMakerOrder i base) s, held)
  | evicted {s : State} {held : Option ℕ} (i : ℕ) {st : OrderStatus} (hst : st.isLive = false) :
      BookOp (s, held) (after (evictMakerOrder i st) s, held)
  | cancelled {s : State} {held : Option ℕ} (i : ℕ) :
      BookOp (s, held) (after (cancelOrder i) s, held)
  | expired {s : State} : BookOp (s, none) (after orderbookEndBlocker s, none)
  | outside {s t : State} {held : Option ℕ} (hbook : t.book = s.book) (hmarkets : MarketsStay s t) :
      BookOp (s, held) (t, held)

abbrev BookRun : State × Option ℕ → State × Option ℕ → Prop := Relation.ReflTransGen BookOp

theorem OrderStatus.not_isResting_of_not_isLive (h : st.isLive = false) : st.isResting = false := by
  cases st <;> simp_all [OrderStatus.isLive, OrderStatus.isResting]

theorem BookOp.rep {x y : State × Option ℕ} (h : BookOp x y) (hx : BookRep x.1 x.2) :
    BookRep y.1 y.2 := by
  cases h with
  | opened hfresh ho h =>
    exact openOrder_rep hx ho (fun o₀ ho₀ => by cases hfresh.symm.trans ho₀) (fun _ _ => Iff.rfl)
      (by simp) h
  | parked hfresh ho hst h =>
    exact openTriggerOrder_rep hx ho hst (fun o₀ ho₀ => by cases hfresh.symm.trans ho₀) h
  | activated ho hst h => exact activateTrigger_rep hx ho hst h
  | @placed s t o ho h =>
    refine openOrder_rep hx ho (fun o₀ ho₀ => ?_) (fun j hj => ?_) (by simp) h
    · have hidx : o₀.orderIndex = o.orderIndex := Table.key_of_get ho₀
      simp [Order.shown, hidx]
    · simp [Ne.symm hj]
  | @dropped s t i o h =>
    have hcancel : Attempted s (some i) none ((cancelOrder i).run s) :=
      cancelOrder_rep hx i (.inr ⟨rfl, rfl⟩)
    rw [h] at hcancel
    cases hcancel with
    | done hrep => exact hrep
  | filled i base => exact (fillMakerOrder_rep hx i base).after
  | evicted i hst =>
    exact (evictMakerOrder_rep hx i (OrderStatus.not_isResting_of_not_isLive hst)).after
  | cancelled i => exact (cancelOrder_rep hx i (.inl rfl)).after
  | expired => exact orderbookEndBlocker_rep hx
  | outside hbook hmarkets => exact BookRep.outside hx hbook hmarkets

theorem BookRep.of_empty (h : s.book = {}) : BookRep s none where
  pages := by
    rw [pagesOf, h]
    exact .empty
  reckoned := by
    rw [indexesOf, h]
    exact ⟨⟨.empty, by simp⟩, by simp⟩
  typed o ho := by simp [h] at ho
  unrivaled o o' ho := by simp [h] at ho
  backed o ho := by simp [h] at ho

theorem BookRun.rep {x y : State × Option ℕ} (h : BookRun x y) (hx : BookRep x.1 x.2) :
    BookRep y.1 y.2 := by
  induction h with
  | refl => exact hx
  | tail _ hstep ih => exact hstep.rep ih

/-! ### What the stores say -/

/-- Pointers and entries are inverse to each other, the entries are those of the orders that rest,
apart from the trigger in hand, and the sums of a price are those of its entries. -/
structure BookConsistent (s : State) (held : Option ℕ) : Prop where
  pointers : ∀ m i sk, s.book.orderToSortKey.get (toLex (m, i)) = some sk ↔
    ∃ e, s.book.orderBookEntries.get (toLex (m, sk)) = some e ∧ e.orderIndex = i
  entries : ∀ m sk e, s.book.orderBookEntries.get (toLex (m, sk)) = some e ↔
    ∃ o, s.book.orders.get e.orderIndex = some o ∧ held ≠ some o.orderIndex ∧
      (o.status = .opened ∨ o.status = .partiallyFilled) ∧ o.marketIndex = m ∧
      sortableKey o.price o.nonce o.isAsk = sk ∧ o.toEntry = e
  positive : ∀ k e, s.book.orderBookEntries.get k = some e → 0 < e.remainingBaseAmount
  sums : ∀ m price isAsk, (priceLevelOf s m price).totals isAsk
    = bookTotals s.book.orderBookEntries m price isAsk
  absent : ∀ m price, s.book.priceLevels.get (toLex (m, price)) = none ↔
    ∀ isAsk, bookTotals s.book.orderBookEntries m price isAsk = 0

theorem OrderStatus.isResting_eq_true : st.isResting = true ↔ st = .opened ∨ st = .partiallyFilled := by
  simp [OrderStatus.isResting]

theorem BookRep.shown_of_get (h : BookRep s held) {k : ℕ ×ₗ SortKey} {entry : OrderBookEntry}
    (hget : s.book.orderBookEntries.get k = some entry) :
    ∃ o : Order, s.book.orders.get o.orderIndex = some o ∧ o.shown held = true ∧
      toLex (o.marketIndex, o.sortKey) = k ∧ o.toEntry = entry := by
  obtain ⟨o, ho, hentry⟩ := (h.pages.entries.exact _ _).mp hget
  exact ⟨o, ho, restingEntry_eq_some.mp hentry⟩

theorem BookRep.consistent (h : BookRep s held) : BookConsistent s held where
  pointers m i sk := by
    constructor
    · intro hget
      obtain ⟨o, ho, hpointer⟩ := (h.pages.pointers.exact _ _).mp hget
      obtain ⟨hshown, hkey, rfl⟩ := restingPointer_eq_some.mp hpointer
      obtain ⟨rfl, rfl⟩ := Prod.mk.inj (toLex.injective hkey)
      exact ⟨o.toEntry, h.pages.get_shown ho hshown, rfl⟩
    · rintro ⟨entry, hget, rfl⟩
      obtain ⟨o, ho, hshown, hkey, rfl⟩ := h.shown_of_get hget
      obtain ⟨rfl, rfl⟩ := Prod.mk.inj (toLex.injective hkey)
      exact h.pages.pointers.get ho (restingPointer_eq_some.mpr ⟨hshown, rfl, rfl⟩)
  entries m sk entry := by
    constructor
    · intro hget
      obtain ⟨o, ho, hshown, hkey, rfl⟩ := h.shown_of_get hget
      obtain ⟨rfl, rfl⟩ := Prod.mk.inj (toLex.injective hkey)
      obtain ⟨hst, hhand⟩ := Order.shown_eq_true.mp hshown
      exact ⟨o, ho, hhand, OrderStatus.isResting_eq_true.mp hst, rfl, rfl, rfl⟩
    · rintro ⟨o, ho, hhand, hst, rfl, rfl, rfl⟩
      exact h.pages.get_shown ho
        (Order.shown_eq_true.mpr ⟨OrderStatus.isResting_eq_true.mpr hst, hhand⟩)
  positive k entry hget := by
    obtain ⟨o, ho, hshown, -, rfl⟩ := h.shown_of_get hget
    exact (h.backed o ho hshown).remaining
  sums m price isAsk := h.pages.sums.totals m price isAsk
  absent _ _ := h.pages.sums.get_eq_none

/-- **The book represents the orders.**  After every sequence of operations from an empty book the
stores are consistent, and filling, evicting or cancelling does not end in a check of consistency. -/
theorem book_represents_orders {s₀ : State} (hempty : s₀.book = {})
    (hrun : BookRun (s₀, none) (s, held)) :
    BookConsistent s held ∧
      (∀ i base e t, (fillMakerOrder i base).run s = .error e t →
        e.sentinel ≠ .orderbookInvariantViolated) ∧
      (∀ i st e t, st.isLive = false → (evictMakerOrder i st).run s = .error e t →
        e.sentinel ≠ .orderbookInvariantViolated) ∧
      ∀ i e t, (cancelOrder i).run s = .error e t →
        e.sentinel ≠ .orderbookInvariantViolated := by
  have hrep : BookRep s held := hrun.rep (BookRep.of_empty hempty)
  refine ⟨hrep.consistent, fun i base e t h => ?_, fun i st e t hst h => ?_, fun i e t h => ?_⟩
  · exact (fillMakerOrder_rep hrep i base).no_violation h
  · exact (evictMakerOrder_rep hrep i (OrderStatus.not_isResting_of_not_isLive hst)).no_violation h
  · exact (cancelOrder_rep hrep i (.inl rfl)).no_violation h

def restingAsk : Order where
  orderIndex := 1
  ownerAccountIndex := 2
  marketIndex := 0
  isAsk := true
  price := 100
  nonce := 1
  initialBaseAmount := 10
  remainingBaseAmount := 10

def emptyMarket : State where
  market := { markets := Table.ofRows [{ marketIndex := 0 }] }

theorem restingAsk_opened :
    BookRun (emptyMarket, none) (after (openOrder restingAsk) emptyMarket, none) := by
  have hopen : (openOrder restingAsk).run emptyMarket
      = .ok () (after (openOrder restingAsk) emptyMarket) := run_of_succeeds (by decide +kernel)
  have hstorable : restingAsk.Storable emptyMarket :=
    ⟨⟨by decide, by decide, by decide⟩, fun _ => by decide, fun o ho => by cases ho⟩
  exact .single (.opened rfl hstorable hopen)

/-- The ask is stored and loses 4 of its 10. -/
theorem book_represents_filled_ask :
    let s := after (fillMakerOrder 1 4) (after (openOrder restingAsk) emptyMarket)
    s.book.orders.get 1 = some { restingAsk with
        remainingBaseAmount := 6, status := .partiallyFilled } ∧
      bookTotals s.book.orderBookEntries 0 100 true = (6, 600, 1) ∧ BookConsistent s none := by
  intro s
  have hrun : BookRun (emptyMarket, none) (s, none) := .tail restingAsk_opened (.filled 1 4)
  exact ⟨by decide +kernel, by decide +kernel, (book_represents_orders rfl hrun).1⟩

end PerpDex
