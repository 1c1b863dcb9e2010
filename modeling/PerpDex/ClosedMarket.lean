/-
Markets after their expiry.

Main results: `ExchangeStep.closed`, `trigger_trades_in_expired_market`.

New orders are refused because the market is not active, liquidations because nobody holds a position.
The hook that activates triggers looks at neither.
-/
import PerpDex.BookFrame
import PerpDex.BookRun

namespace PerpDex

open Txn

variable {s t : State} {m : ℕ}

/-- The market has expired and nobody holds a position in it. -/
structure Closed (m : ℕ) (s : State) : Prop extends Flat m s where
  expired : ∃ mk, s.market.markets.get m = some mk ∧ mk.status = .expired

theorem Sidelined.closed (h : Sidelined m s t) (hs : Closed m s) : Closed m t where
  toFlat := h.toElsewhere.staysFlat hs.toFlat
  expired := by
    rw [h.markets]
    exact hs.expired

theorem ForcedHook.closed (h : ForcedHook s t) (hs : Closed m s) : Closed m t where
  toFlat := h.flat hs.toFlat
  expired := by
    obtain ⟨mk, hmk, hst⟩ := hs.expired
    exact ⟨mk, h.forced.expired m mk hmk hst, hst⟩

theorem Outside.closed (h : Outside s t) (hs : Closed m s) : Closed m t where
  toFlat := (h.positions m).staysFlat hs.toFlat
  expired := by
    obtain ⟨mk, hmk, hst⟩ := hs.expired
    obtain ⟨mk', hmk', -, -, -, hst'⟩ := h.markets m mk hmk
    exact ⟨mk', hmk', hst' hst⟩

theorem Closed.not_active (hs : Closed m s) {market : Market} (h : getMarket m s = .ok market) :
    market.status ≠ .active := by
  obtain ⟨mk, hmk, hst⟩ := hs.expired
  simp only [getMarket, hmk, Except.ok.injEq] at h
  rw [← h, hst]
  decide

theorem Closed.of_rows {mk : Market}
    (hpos : ∀ p ∈ s.account.accountPositions.toList, p.marketIndex = m → p.baseSize = 0)
    (hoi : (detailsOf s m).openInterest = 0) (hmk : s.market.markets.get m = some mk)
    (hst : mk.status = .expired) : Closed m s where
  sizes a := by
    rw [getPosition]
    cases hget : s.account.accountPositions.get (toLex (a, m)) with
    | none => rfl
    | some p =>
      have hkey : p.key = toLex (a, m) := Table.key_of_get hget
      exact hpos p (Table.mem_toList hget) (Prod.mk.inj (toLex.injective hkey)).2
  openInterest := hoi
  expired := ⟨mk, hmk, hst⟩

theorem Closed.no_liquidation (hs : Closed m s)
    {victim zeroPrice base feeBps recipient n : ℕ} :
    (matchLiquidationOrder victim m zeroPrice base feeBps recipient).run s ≠ .ok n t := by
  intro h
  simp only [matchLiquidationOrder, run_bind_require_ok, run_bind_read_ok, Except.ok.injEq] at h
  obtain ⟨-, -, pos, rfl, hpos, -⟩ := h
  exact hpos (hs.sizes victim)

section Steps

variable [AddressCodec]

theorem Closed.not_prepared (hs : Closed m s) {msg : MsgCreateOrder} (hm : msg.marketIndex = m)
    {prepared : Market × Order} : (prepareOrder msg).run s ≠ .ok prepared t := by
  intro h
  obtain ⟨hadm, -⟩ := prepareOrder_ok h
  have hstored := hadm.stored
  rw [hm] at hstored
  exact hs.not_active hstored hadm.active

/-- Triggers of market `m` are activated only if they meet no maker. -/
def TriggersIdle (m : ℕ) (o : Order) (s : State) : Prop := o.marketIndex = m → MeetsNoMaker o s

theorem ExchangeStep.closed (hc : (coreOf s).Inv)
    (h : ExchangeStep (fun _ _ => True) (TriggersIdle m) s t) (hs : Closed m s) :
    (coreOf t).Inv ∧ Closed m t := by
  refine ExchangeStep.preserves ?_ ?_ ?_ ?_ ?_ ?_ hc h hs
  · intro i v _ hclosed
    exact ((cancelOrder_frame i v).sidelined m).closed hclosed
  · intro msg resp v w _ hclosed _ hcreate
    refine (createOrder_sidelined (fun prepared s₁ hprepare => ?_) hcreate).closed hclosed
    refine Or.inl fun hm => ?_
    obtain ⟨-, next, -, -, horder, -⟩ := prepareOrder_ok hprepare
    rw [horder] at hm
    exact hclosed.not_prepared hm hprepare
  · intro victim m' zeroPrice base feeBps recipient n v w _ hclosed hmatch
    by_cases hm : m' = m
    · subst hm
      exact absurd hmatch hclosed.no_liquidation
    · exact ((matchLiquidationOrder_sidelined hm _ _ _ _ _).ok hmatch).closed hclosed
  · intro i o v w _ hclosed _ _ _ hfires hrun
    refine (fireTrigger_sidelined (fun o' s₁ hact => ?_) hrun).closed hclosed
    by_cases hm : (executableTwin o').marketIndex = m
    · exact Or.inr (Or.inr (hfires o' s₁ hact hm))
    · exact Or.inl hm
  · exact fun v w hclosed hhook => hhook.closed hclosed
  · exact fun v w hclosed hout => hout.closed hclosed

/-- **A closed market stays closed.**  Once a market has expired and its positions are closed, nobody
holds a position in it again, whatever messages and hooks follow, as long as no trigger of it is
activated that meets a maker; orders and liquidations in it are refused. -/
theorem closed_market_stays_closed {s₀ : State} (hfresh : FreshBook s₀)
    (hreach : ExchangeRun (fun _ _ => True) (fun _ _ => True) s₀ s) (hclosed : Closed m s)
    (hrun : ExchangeRun (fun _ _ => True) (TriggersIdle m) s t) :
    Closed m t ∧
      (∀ msg resp u, msg.marketIndex = m → (createOrder msg).run t ≠ .ok resp u) ∧
      (∀ msg u, msg.marketIndex = m → (liquidate msg).run t ≠ .ok () u) := by
  have hinv : (coreOf s).Inv := hreach.inv hfresh.inv
  have hend : (coreOf t).Inv ∧ Closed m t := by
    induction hrun with
    | refl => exact ⟨hinv, hclosed⟩
    | tail _ hstep ih => exact ExchangeStep.closed ih.1 hstep ih.2
  refine ⟨hend.2, fun msg resp u hm h => ?_, fun msg u hm h => ?_⟩
  · obtain ⟨prepared, s₁, hprepare, -⟩ := run_bind_ok.mp h
    exact hend.2.not_prepared hm hprepare
  · simp only [liquidate, liquidatePosition, run_bind_lift_ok, run_bind_read_ok,
      run_bind_require_ok] at h
    obtain ⟨_, -, snap, hsnap, hpos, -⟩ := h
    rw [getZeroPriceSnapshot_position hsnap, hm] at hpos
    exact hpos (hend.2.sizes _)

end Steps

/-- A market that expires in the current block, and two users with collateral. -/
def expiring : State where
  now := 1000
  account := {
    accounts := Table.ofRows [{ accountIndex := 0 },
      { accountIndex := 1, accountType := .insuranceFund, publicPoolInfo := some {} },
      { accountIndex := 2, ownerAddress := "alice", collateral := 5000 },
      { accountIndex := 3, ownerAddress := "bob", collateral := 5000 }] }
  market := {
    markets := Table.ofRows [{ marketIndex := 0, expiryTimestamp := 1000 }]
    marketDetails := Table.ofRows [{
      marketIndex := 0, markPrice := 100, defaultInitialMarginFraction := 1000,
      minInitialMarginFraction := 500, maintenanceMarginFraction := 400,
      closeOutMarginFraction := 200 }]
    expiryIndex := KVStore.empty.set (toLex (1000, 0)) ()
    params := { maxMarketsExpiredPerBlock := 1 } }

theorem expiring_fresh : FreshBook expiring := .of_rows rfl (by decide +kernel)

def aliceAsks : MsgCreateOrder where
  sender := "alice"
  accountIndex := 2
  marketIndex := 0
  isAsk := true
  baseAmount := 50
  price := 100
  expiry := 2000

/-- The second user wants to buy 50 units once the mark price has reached 100. -/
def bobStops : MsgCreateOrder where
  sender := "bob"
  accountIndex := 3
  marketIndex := 0
  isAsk := false
  orderType := .stopLossLimitOrder
  baseAmount := 50
  price := 100
  triggerPrice := 100
  expiry := 2000

/-- The offer rests when the market expires. -/
theorem closed_market_stays_closed_over_resting_ask :
    let _ := AddressCodec.acceptAll
    let s := after marketEndBlocker (after (createOrder aliceAsks) expiring)
    let t := after matchingEndBlocker s
    (peekBest 0 true s).isSome = true ∧ Closed 0 s ∧ Closed 0 t := by
  intro _ s t
  have hask : (createOrder aliceAsks).run expiring = .ok ⟨1, .opened, 0⟩ _ :=
    run_of_value (by decide +kernel)
  have hexpire : marketEndBlocker.run (after (createOrder aliceAsks) expiring) = .ok () s :=
    run_of_succeeds (by decide +kernel)
  have hreach : ExchangeRun (fun _ _ => True) (fun _ _ => True) expiring s :=
    .tail (.single (.createOrder aliceAsks hask fun _ _ _ _ => trivial)) (.forced (.expiry hexpire))
  have hclosed : Closed 0 s :=
    .of_rows (by decide +kernel) (by decide +kernel) (show s.market.markets.get 0
      = some { marketIndex := 0, expiryTimestamp := 1000, status := .expired } by decide +kernel) rfl
  have hnone : dueTriggers s = [] := by decide +kernel
  have hstep : ExchangeStep (fun _ _ => True) (TriggersIdle 0) s t := by
    refine .trigger (run_of_succeeds (by decide +kernel)) fun i u hvisit => ?_
    rw [hnone] at hvisit
    cases hvisit
  exact ⟨by decide +kernel, hclosed,
    (closed_market_stays_closed expiring_fresh hreach hclosed (.single hstep)).1⟩

/-- **A trigger trades after the expiry.**  A sell order rests and a stop order waits when the market
expires.  The hook that runs next activates the stop, which buys 50 units in the expired market. -/
theorem trigger_trades_in_expired_market :
    let _ := AddressCodec.acceptAll
    let s := after marketEndBlocker (after (createOrder bobStops)
      (after (createOrder aliceAsks) expiring))
    let t := after matchingEndBlocker s
    FreshBook expiring ∧ ExchangeRun (fun _ _ => True) (fun _ _ => True) expiring s ∧
      Closed 0 s ∧ matchingEndBlocker.run s = .ok () t ∧
      (getPosition t 2 0).baseSize = -50 ∧ (getPosition t 3 0).baseSize = 50 ∧
      (detailsOf t 0).openInterest = 50 := by
  intro _ s t
  have hask : (createOrder aliceAsks).run expiring = .ok ⟨1, .opened, 0⟩ _ :=
    run_of_value (by decide +kernel)
  have hstop : (createOrder bobStops).run (after (createOrder aliceAsks) expiring)
      = .ok ⟨2, .triggeredPending, 0⟩ _ := run_of_value (by decide +kernel)
  have hexpire : marketEndBlocker.run _ = .ok () s := run_of_succeeds (by decide +kernel)
  refine ⟨expiring_fresh, .tail (.tail (.single (.createOrder aliceAsks hask fun _ _ _ _ => trivial))
    (.createOrder bobStops hstop fun _ _ _ _ => trivial)) (.forced (.expiry hexpire)), ?_,
    run_of_succeeds (by decide +kernel), by decide +kernel, by decide +kernel, by decide +kernel⟩
  exact .of_rows (by decide +kernel) (by decide +kernel) (show s.market.markets.get 0
    = some { marketIndex := 0, expiryTimestamp := 1000, status := .expired } by decide +kernel) rfl

end PerpDex
