/-
What operations on orders leave alone: positions, collateral and markets.

* `OrderFrame` — nothing but the book and the balances of assets differs;
* `LockRule` — what a relation has to allow to hold across the life of an order;
* `Harmless`, `Sidelined` — orders that do not show in the positions of a market when matched.
-/
import PerpDex.BookSystem
import PerpDex.Hooks

namespace PerpDex

open Txn

variable {s t : State}

/-! ### The life cycle of orders -/

/-- Nothing but the book and the balances of assets differs. -/
def OrderFrame (s t : State) : Prop :=
  t = { s with
    book := t.book
    account := { s.account with accountAssets := t.account.accountAssets } }

instance : IsPreorder State OrderFrame where
  refl _ := rfl
  trans _ _ _ h h' := by
    rw [OrderFrame, h', h]

theorem BookOnly.orderFrame (h : BookOnly s t) : OrderFrame s t := by
  rw [OrderFrame, h]

theorem modifyBook_frame (f : BookStore → BookStore) : Keeps OrderFrame (modifyBook f) :=
  Keeps.write fun _ => rfl

theorem setAccountAsset_frame (a : AccountAsset) : Keeps OrderFrame (setAccountAsset a) :=
  Keeps.write fun _ => rfl

/-- The relation allows changes of the book, locks and releases. -/
structure LockRule (R : State → State → Prop) : Prop where
  book : ∀ s t, BookOnly s t → R s t
  lock : ∀ acc asset amount, Keeps R (increaseLockedBalance acc asset amount)
  release : ∀ acc asset amount, Keeps R (decreaseLockedBalance acc asset amount)

namespace LockRule

variable {R : State → State → Prop} [IsPreorder State R] (hR : LockRule R)

include hR

omit [IsPreorder State R] in
theorem ofBook {α : Type} {x : Tx α} (h : Keeps BookOnly x) : Keeps R x := h.mono hR.book

theorem applySpotLockOnOpen (o : Order) : Keeps R (PerpDex.applySpotLockOnOpen o) :=
  Keeps.read.bind fun _ => Keeps.when fun _ => hR.lock _ _ _

theorem releaseSpotLockOnClose (o : Order) : Keeps R (PerpDex.releaseSpotLockOnClose o) :=
  Keeps.read.bind fun _ => Keeps.when fun _ => hR.release _ _ _

theorem openOrder (o : Order) : Keeps R (PerpDex.openOrder o) :=
  Keeps.ite
    (fun _ => (hR.applySpotLockOnOpen o).bind fun _ =>
      (hR.ofBook (insertEntry_bookOnly _ _ _)).bind fun _ =>
        (hR.ofBook (indexOpenOrder_bookOnly o)).bind fun _ => hR.ofBook (Keeps.write fun _ => rfl))
    fun _ => (hR.ofBook (unindexOpenOrder_bookOnly o)).bind fun _ =>
      hR.ofBook (Keeps.write fun _ => rfl)

theorem evictMakerOrder (i : ℕ) (st : OrderStatus) : Keeps R (PerpDex.evictMakerOrder i st) :=
  Keeps.read.bind fun _ => (hR.ofBook (removeEntry_bookOnly _ _ _)).bind fun _ =>
    (hR.releaseSpotLockOnClose _).bind fun _ => hR.ofBook (closeOrder_bookOnly _ _)

theorem cancelOrder (i : ℕ) : Keeps R (PerpDex.cancelOrder i) := by
  refine Keeps.read.bind fun o => Keeps.bind ?_ fun _ => hR.ofBook (closeOrder_bookOnly _ _)
  refine Keeps.ite (fun _ => ?_) fun _ => Keeps.ite
    (fun _ => hR.ofBook (Keeps.write fun _ => rfl)) fun _ => Keeps.throw
  exact Keeps.require.bind fun _ => (hR.ofBook (removeEntry_bookOnly _ _ _)).bind fun _ =>
    hR.releaseSpotLockOnClose _

end LockRule

theorem lockRule_orderFrame : LockRule OrderFrame where
  book _ _ h := h.orderFrame
  lock _ _ _ := Keeps.ite (fun _ => Keeps.pure) fun _ => Keeps.ite (fun _ => Keeps.throw) fun _ =>
    Keeps.read.bind fun _ => Keeps.require.bind fun _ => setAccountAsset_frame _
  release _ _ _ := Keeps.ite (fun _ => Keeps.pure) fun _ => Keeps.ite (fun _ => Keeps.throw) fun _ =>
    Keeps.read.bind fun _ => setAccountAsset_frame _

theorem releaseSpotLockOnClose_frame (o : Order) : Keeps OrderFrame (releaseSpotLockOnClose o) :=
  lockRule_orderFrame.releaseSpotLockOnClose o

theorem removeEntry_frame (m : ℕ) (isAsk : Bool) (i : ℕ) :
    Keeps OrderFrame (removeEntry m isAsk i) :=
  lockRule_orderFrame.ofBook (removeEntry_bookOnly m isAsk i)

theorem openOrder_frame (o : Order) : Keeps OrderFrame (openOrder o) :=
  lockRule_orderFrame.openOrder o

theorem openTriggerOrder_frame (o : Order) : Keeps OrderFrame (openTriggerOrder o) :=
  lockRule_orderFrame.ofBook (openTriggerOrder_bookOnly o)

theorem activateTrigger_frame (i : ℕ) : Keeps OrderFrame (activateTrigger i) :=
  lockRule_orderFrame.ofBook (activateTrigger_bookOnly i)

theorem closeOrder_frame (o : Order) (st : OrderStatus) : Keeps OrderFrame (closeOrder o st) :=
  lockRule_orderFrame.ofBook (closeOrder_bookOnly o st)

theorem evictMakerOrder_frame (i : ℕ) (st : OrderStatus) :
    Keeps OrderFrame (evictMakerOrder i st) :=
  lockRule_orderFrame.evictMakerOrder i st

theorem cancelOrder_frame (i : ℕ) : Keeps OrderFrame (cancelOrder i) :=
  lockRule_orderFrame.cancelOrder i

theorem applySpotMatching_frame (f : SpotFill) (base quote : ℕ) :
    Keeps OrderFrame (applySpotMatching f base quote) := by
  have hdebit : ∀ shortfall drain src dst asset amount,
      Keeps OrderFrame (spotDebit shortfall drain src dst asset amount) := by
    intro shortfall drain src dst asset amount
    refine Keeps.ite (fun _ => Keeps.throw) fun _ => Keeps.mapError ?_
    refine Keeps.ite (fun _ => Keeps.pure) fun _ => Keeps.ite (fun _ => Keeps.throw) fun _ => ?_
    exact Keeps.read.bind fun _ => Keeps.require.bind fun _ => Keeps.read.bind fun _ =>
      (setAccountAsset_frame _).bind fun _ => setAccountAsset_frame _
  refine Keeps.bind ?_ fun _ => Keeps.when fun _ =>
    (Keeps.when fun _ => hdebit _ _ _ _ _ _).bind fun _ => Keeps.when fun _ => hdebit _ _ _ _ _ _
  exact Keeps.ite (fun _ => (hdebit _ _ _ _ _ _).bind fun _ => hdebit _ _ _ _ _ _)
    fun _ => (hdebit _ _ _ _ _ _).bind fun _ => hdebit _ _ _ _ _ _

/-! ### Orders and fills -/

section Rules

variable {R : State → State → Prop} [IsPreorder State R]

theorem allocateNonce_keeps (hput : ∀ (s : State) (d : MarketDetails) (ask bid : ℤ),
      s.market.marketDetails.get d.marketIndex = some d →
      R s (s.putDetails { d with askNonce := ask, bidNonce := bid })) (m : ℕ) (isAsk : Bool) :
    Keeps R (allocateNonce m isAsk) := by
  refine FailsFirst.keeps (.read_bind fun d => .require_bind (.require_bind (.of_total fun s =>
    ⟨_, _, rfl⟩))) fun s n t h => ?_
  obtain ⟨d, hd, h⟩ := run_bind_read_ok.mp h
  obtain ⟨-, h⟩ := run_bind_require_ok.mp h
  obtain ⟨-, h⟩ := run_bind_require_ok.mp h
  cases h
  have hstored := getMarketDetails_eq_ok.mp hd
  rw [← Table.key_of_get hstored] at hstored
  cases isAsk with
  | true => exact hput s d _ _ hstored
  | false => exact hput s d _ _ hstored

theorem prepareOrder_keeps [AddressCodec]
    (hindex : ∀ s n, R s { s with book := { s.book with nextOrderIndex := n } })
    (hnonce : ∀ m isAsk, Keeps R (allocateNonce m isAsk)) (msg : MsgCreateOrder) :
    Keeps R (prepareOrder msg) := by
  refine (admitOrder_same msg).of_eq.bind fun market => Keeps.bind ?_ fun idx => ?_
  · exact Keeps.read.bind fun idx => Keeps.bind (Keeps.write fun s => hindex s _) fun _ => Keeps.pure
  · exact (hnonce _ _).bind fun n => Keeps.pure

variable (horder : ∀ s t, OrderFrame s t → R s t)

include horder

theorem applyFill_keeps {base : ℕ} {maker : OrderBookEntry} {trade : Tx Unit}
    (htrade : Keeps R trade) : Keeps R (applyFill maker base trade) := by
  intro s
  refine applyFill_rule ?_ fun u v o htraded hfilled => ?_
  · exact horder _ _ (evictMakerOrder_frame _ _ s)
  · exact trans_of R (htrade.ok htraded)
      (horder _ _ ((fillMakerOrder_bookOnly _ _).ok hfilled).orderFrame)

theorem runSweep_rule {isPerp : Bool} {attempt : Order → OrderBookEntry → ℕ → Tx FillOutcome}
    {goOn : Tx Bool} (hgoOn : Keeps R goOn) (taker : Order) (maxFills : ℕ)
    (hattempt : ∀ x u maker base,
      Relation.ReflTransGen (Pass isPerp attempt goOn) ⟨taker, maxFills, s⟩ x →
      Attempts isPerp x u maker base → R u (after (attempt x.taker maker base) u)) :
    R s (after (runSweep isPerp attempt goOn taker maxFills) s) := by
  rw [runSweep, after_bind_read]
  exact sweep_rule (fun s best _ => horder _ _ (evictMakerOrder_frame _ _ s)) hgoOn _ taker 0
    maxFills s rfl rfl hattempt

theorem matchLiquidationOrder_keeps {m : ℕ} (hfill : ∀ f : Fill, f.marketIndex = m → Keeps R (apply f))
    (victim zeroPrice base feeBps recipient : ℕ) :
    Keeps R (matchLiquidationOrder victim m zeroPrice base feeBps recipient) := by
  refine Keeps.require.bind fun _ => Keeps.require.bind fun _ => Keeps.read.bind fun pos => ?_
  refine Keeps.require.bind fun _ => (uint64Of_keeps _).bind fun abs => ?_
  refine Keeps.read.bind fun params => Keeps.read.bind fun market => Keeps.require.bind fun _ => ?_
  refine Keeps.bind (fun s => ?_) fun r => Keeps.pure
  refine runSweep_rule horder Keeps.read _ _ fun x u maker base' hreached _ => ?_
  obtain ⟨b, -, hx⟩ := shrunkTo_of_passes hreached
  refine applyFill_keeps horder (hfill _ ?_) u
  show x.taker.marketIndex = m
  rw [hx]
  rfl

end Rules

/-! ### Positions of other markets -/

/-- Sizes and open interest of market `m` are the same, and so are all markets. -/
structure Sidelined (m : ℕ) (s t : State) : Prop extends Elsewhere m s t where
  markets : t.market.markets = s.market.markets

instance (m : ℕ) : IsPreorder State (Sidelined m) where
  refl s := ⟨refl_of (Elsewhere m) s, rfl⟩
  trans _ _ _ h h' :=
    ⟨trans_of (Elsewhere m) h.toElsewhere h'.toElsewhere, h'.markets.trans h.markets⟩

theorem OrderFrame.sidelined (h : OrderFrame s t) (m : ℕ) : Sidelined m s t := by
  rw [h]
  exact ⟨⟨fun _ => rfl, rfl⟩, rfl⟩

theorem apply_sidelined {f : Fill} {m : ℕ} (hm : f.marketIndex ≠ m) :
    Keeps (Sidelined m) (apply f) := by
  intro s
  refine ⟨apply_elsewhere hm s, ?_⟩
  rw [(apply_keeps f s).frame]

/-- The book has no maker that the order would trade with. -/
def MeetsNoMaker (o : Order) (s : State) : Prop :=
  ∀ market maker u, getMarket o.marketIndex s = .ok market →
    (nextMaker o (decide (market.marketType = .perps)) (entryCount s + 1)).run s
      ≠ .ok (.found maker) u

/-- Matching the order cannot show in the positions of market `m`. -/
def Harmless (m : ℕ) (o : Order) (s : State) : Prop :=
  o.marketIndex ≠ m ∨ (∀ market, getMarket o.marketIndex s = .ok market →
    market.marketType ≠ .perps) ∨ MeetsNoMaker o s

theorem matchOrder_sidelined {m : ℕ} {taker : Order} (h : Harmless m taker s) (maxFills : ℕ) :
    Sidelined m s (after (matchOrder taker maxFills) s) := by
  rw [matchOrder, after_bind_read]
  cases hmarket : getMarket taker.marketIndex s with
  | error e => exact refl_of (Sidelined m) s
  | ok market =>
    refine runSweep_rule (fun _ _ h => h.sidelined m) Keeps.pure taker maxFills
      fun x u maker base hreached hatt => ?_
    have htrade : market.marketType ≠ .perps ∨ x.taker.marketIndex ≠ m := by
      obtain ⟨b, -, hx⟩ := shrunkTo_of_passes hreached
      rcases h with hother | hspot | hnone
      · exact Or.inr (by rw [hx]; exact hother)
      · exact Or.inl (hspot market hmarket)
      · -- the first pass would have to find a maker
        exfalso
        rcases Relation.ReflTransGen.cases_head hreached with rfl | ⟨y, hpass, -⟩
        · exact hnone market maker u hmarket hatt.search
        · cases hpass with
          | evicted ha _ => exact hnone market _ _ hmarket ha.search
          | committed ha _ _ => exact hnone market _ _ hmarket ha.search
    rw [applyUserFill_eq]
    refine applyFill_keeps (fun _ _ h => h.sidelined m) ?_ u
    refine Keeps.ite (fun hperps => apply_sidelined ?_) fun _ =>
      (applySpotMatching_frame _ _ _).mono (fun _ _ h => h.sidelined m)
    exact htrade.resolve_left fun hspot => hspot hperps

theorem placeOrder_sidelined {m : ℕ} {order : Order} (h : Harmless m order s) (market : Market) :
    Sidelined m s (after (placeOrder market order) s) := by
  rw [placeOrder, after_bind_read]
  refine after_bind_keeps (matchOrder_sidelined h _) fun r => Keeps.read.bind fun o => ?_
  exact ((openOrder_frame o).mono (fun _ _ h => h.sidelined m)).bind fun _ => Keeps.pure

theorem fireOrder_sidelined {m : ℕ} {o : Order} (h : Harmless m o s) :
    Sidelined m s (after (fireOrder o) s) := by
  rw [fireOrder, after_bind_read]
  exact after_bind_keeps (matchOrder_sidelined h _) fun r =>
    (openOrder_frame _).mono (fun _ _ h => h.sidelined m)

theorem fireTrigger_sidelined {m i : ℕ} {u : Unit}
    (h : ∀ o s₁, (activateTrigger i).run s = .ok o s₁ → Harmless m (executableTwin o) s₁)
    (hrun : (fireTrigger i).run s = .ok u t) : Sidelined m s t := by
  rcases fireTrigger_ok hrun with ⟨e, hfail⟩ | ⟨o, s₁, hact, hfired⟩
  · exact ((activateTrigger_frame i).error hfail).sidelined m
  · refine trans_of (Sidelined m) (((activateTrigger_frame i).ok hact).sidelined m) ?_
    have hsidelined := fireOrder_sidelined (h o s₁ hact)
    rcases hfired with hok | ⟨e, s₂, herror, rfl⟩
    · rwa [after_of_ok hok] at hsidelined
    · rw [after_of_error herror] at hsidelined
      exact trans_of (Sidelined m) hsidelined ((cancelOrder_frame _ s₂).sidelined m)

theorem matchLiquidationOrder_sidelined {m m' : ℕ} (hm : m' ≠ m)
    (victim zeroPrice base feeBps recipient : ℕ) :
    Keeps (Sidelined m) (matchLiquidationOrder victim m' zeroPrice base feeBps recipient) :=
  matchLiquidationOrder_keeps (fun _ _ h => h.sidelined m)
    (fun _ hf => apply_sidelined (hf ▸ hm)) _ _ _ _ _

theorem putDetails_sidelined (m : ℕ) (s : State) (d : MarketDetails) (ask bid : ℤ)
    (hd : s.market.marketDetails.get d.marketIndex = some d) :
    Sidelined m s (s.putDetails { d with askNonce := ask, bidNonce := bid }) := by
  refine ⟨⟨fun _ => rfl, ?_⟩, rfl⟩
  simp only [detailsOf, State.putDetails, Table.get_put]
  split
  · rename_i hm
    rw [hm, hd]
    rfl
  · rfl

section Handlers

variable [AddressCodec]

theorem prepareOrder_sidelined (m : ℕ) (msg : MsgCreateOrder) :
    Keeps (Sidelined m) (prepareOrder msg) :=
  prepareOrder_keeps (fun _ _ => ⟨⟨fun _ => rfl, rfl⟩, rfl⟩)
    (allocateNonce_keeps (putDetails_sidelined m)) msg

theorem prepareOrder_markets {msg : MsgCreateOrder} {prepared : Market × Order}
    (h : (prepareOrder msg).run s = .ok prepared t) : t.market.markets = s.market.markets :=
  ((prepareOrder_sidelined 0 msg).ok h).markets

theorem prepareOrder_market {msg : MsgCreateOrder} {prepared : Market × Order}
    (h : (prepareOrder msg).run s = .ok prepared t) :
    getMarket prepared.2.marketIndex t = .ok prepared.1 := by
  obtain ⟨hadm, next, -, -, horder, -⟩ := prepareOrder_ok h
  rw [getMarket_eq_ok, prepareOrder_markets h, horder]
  exact getMarket_eq_ok.mp hadm.stored

theorem createOrder_sidelined {m : ℕ} {msg : MsgCreateOrder} {resp : MsgCreateOrderResponse}
    (h : ∀ prepared s₁, (prepareOrder msg).run s = .ok prepared s₁ → Harmless m prepared.2 s₁)
    (hrun : (createOrder msg).run s = .ok resp t) : Sidelined m s t := by
  obtain ⟨prepared, s₁, hprepare, hrun⟩ := run_bind_ok.mp hrun
  refine trans_of (Sidelined m) ((prepareOrder_sidelined m msg).ok hprepare) ?_
  split_ifs at hrun
  · have hpark : Keeps OrderFrame (parkOrder prepared.2) :=
      (openTriggerOrder_frame _).bind fun _ => Keeps.pure
    exact (hpark.ok hrun).sidelined m
  · rw [← after_of_ok hrun]
    exact placeOrder_sidelined (h prepared s₁ hprepare) prepared.1

end Handlers

end PerpDex
