/-
Makers whose own account makes a fill fail.

Main results: `maker_fault_isolated`, `stale_mark_blocks_taker`.

The engine wraps some of its errors for the side they belong to, and the loop looks at the wrapped ones
only.  The snapshots that are taken before a fill are not wrapped.
-/
import PerpDex.ForcedFills
import PerpDex.LoopProgress

namespace PerpDex

open Txn

/-! ### Errors of a snapshot -/

/-- An error that the matching loop passes on: no panic, and of neither side. -/
def Err.StopsLoop (e : Err) : Prop :=
  e.isValue = true ∧ isRecoverableMakerError e = false ∧ isRecoverableTakerError e = false

section Snapshots

variable {s : State} {acc m : ℕ} {e : Err}

theorem Err.StopsLoop.wrap (h : e.StopsLoop) (text : String) : (e.wrap text).StopsLoop := h

theorem getMarkPriceAndDetails_stopsLoop (h : getMarkPriceAndDetails m s = .error e) :
    e.StopsLoop := by
  unfold getMarkPriceAndDetails at h
  cases hd : getMarketDetails m s with
  | error e' =>
    rw [hd] at h
    obtain rfl := Except.error.inj h
    exact ⟨rfl, rfl, rfl⟩
  | ok d =>
    rw [hd] at h
    dsimp only at h
    unfold gateMarkPrice at h
    dsimp only at h
    split_ifs at h
    · obtain rfl := Except.error.inj h
      exact ⟨rfl, rfl, rfl⟩
    · obtain rfl := Except.error.inj h
      exact ⟨rfl, rfl, rfl⟩

theorem addCrossPosition_stopsLoop {rp : RiskParameters} {pos : AccountPosition}
    (h : addCrossPosition acc s rp pos = .error e) : e.StopsLoop := by
  unfold addCrossPosition at h
  split_ifs at h
  cases hmark : getMarkPriceAndDetails pos.marketIndex s with
  | error e' =>
    rw [hmark] at h
    obtain rfl := Except.error.inj h
    exact (getMarkPriceAndDetails_stopsLoop hmark).wrap _
  | ok r =>
    rw [hmark] at h
    cases h

theorem computeCrossRisk_stopsLoop (h : computeCrossRisk acc s = .error e) : e.StopsLoop := by
  unfold computeCrossRisk at h
  rcases except_bind_error.mp h with haccount | ⟨a, -, hfold⟩
  · unfold getAccount at haccount
    split at haccount
    · cases haccount
    · obtain rfl := Except.error.inj haccount
      exact ⟨rfl, rfl, rfl⟩
  · obtain ⟨rp, pos, -, hstep⟩ := foldlM_error hfold
    exact addCrossPosition_stopsLoop hstep

theorem computeIsolatedRisk_stopsLoop (h : computeIsolatedRisk acc m s = .error e) :
    e.StopsLoop := by
  unfold computeIsolatedRisk at h
  dsimp only at h
  split_ifs at h
  · obtain rfl := Except.error.inj h
    exact ⟨rfl, rfl, rfl⟩
  · rcases except_bind_error.mp h with hmark | ⟨r, -, hpure⟩
    · exact getMarkPriceAndDetails_stopsLoop hmark
    · cases hpure

/-- **A snapshot that cannot be taken stops the loop.** -/
theorem snapshotRisk_stopsLoop (h : snapshotRisk acc s = .error e) : e.StopsLoop := by
  unfold snapshotRisk at h
  rcases except_bind_error.mp h with hcross | ⟨cross, -, h⟩
  · exact computeCrossRisk_stopsLoop hcross
  rcases except_bind_error.mp h with hfold | ⟨isolated, -, hpure⟩
  · obtain ⟨rps, pos, -, hstep⟩ := foldlM_error hfold
    unfold addIsolatedRisk at hstep
    split_ifs at hstep
    rcases except_bind_error.mp hstep with hrisk | ⟨rp, -, hpure⟩
    · exact computeIsolatedRisk_stopsLoop hrisk
    · cases hpure
  · cases hpure

end Snapshots

/-! ### Faults of the maker -/

section Faults

variable {f : Fill} {s : State}

/-- The fill fails at a step of the maker's side: the settlement of its funding, the snapshot of its
risk, the bounds on its position, the margin of its isolated position, or the check of its risk after
the fill. -/
inductive MakerFault (f : Fill) (s : State) : Prop
  | funding {e : Err} {t : State} (hd : (s.market.marketDetails.get f.marketIndex).isSome)
      (h : (settlePositionFunding f.makerAccountIndex f.marketIndex).run s = .error e t)
  | snapshot {m : ℕ} (hd : (s.market.marketDetails.get f.marketIndex).isSome)
      (hother : m ≠ f.marketIndex) (hopen : (getPosition s f.makerAccountIndex m).baseSize ≠ 0)
      (hmark : ∀ r, getMarkPriceAndDetails m s ≠ .ok r)
  | bounds {pre : PreRiskSnapshot × PreRiskSnapshot} {u : State}
      (hprep : (prepareFill f).run s = .ok pre u)
      (h : ¬ ((getPosition u f.makerAccountIndex f.marketIndex).applyFill
        (f.baseAmount * f.makerSign) f.price).InBounds)
  | margin {pre : PreRiskSnapshot × PreRiskSnapshot} {mr tr r₁ r₂ : PositionChangeResult}
      {u u₁ u₂ w w₁ w₂ : State} {delta avail : ℤ} (hprep : (prepareFill f).run s = .ok pre u)
      (hmaker : (makerPositionChange f).run u = .ok mr u₁)
      (htaker : (takerPositionChange f).run u₁ = .ok tr u₂)
      (hrouted : (applyAccount tr f.takerFeeAmount false 0 f).run u₂ = .ok () w)
      (hmode : mr.old.marginMode = .isolated)
      (hpnl : (isolatedAddAllocatedMargin mr (mr.realizedPnL - f.makerFeeAmount)).run w = .ok r₁ w₁)
      (hfee : (isolatedDebit r₁ (liqFeeOf true f.liqFee)).run w₁ = .ok r₂ w₂)
      (hdelta : calculateIsolatedMarginDelta r₂ f.makerFeeAmount w₂ = .ok delta) (hpos : 0 < delta)
      (havail : getAvailableUsdcCollateral r₂.accountIdx w₂ = .ok avail) (hshort : avail < delta)
  | regression {pre : PreRiskSnapshot × PreRiskSnapshot} {mr tr : PositionChangeResult}
      {u u₁ u₂ w w₁ : State} (hprep : (prepareFill f).run s = .ok pre u)
      (hmaker : (makerPositionChange f).run u = .ok mr u₁)
      (htaker : (takerPositionChange f).run u₁ = .ok tr u₂)
      (hrouted : (routeMargin f mr tr).run u₂ = .ok () w)
      (hinterest : (updateOpenInterest f.marketIndex (oiDeltaOf mr tr)).run w = .ok () w₁)
      (hothers : isValidRiskChangeFrom f.takerAccountIndex pre.2 w₁ = .ok true)
      (h : isValidRiskChangeFrom f.makerAccountIndex pre.1 w₁ = .ok false)

structure Fill.Compares (f : Fill) : Prop where
  risk : f.noRiskCheck = false
  maker : f.skipMakerRiskCheck = false
  taker : f.skipTakerRiskCheck = false

theorem apply_of_prepare {e : Err} {t : State} (h : (prepareFill f).run s = .error e t) :
    (apply f).run s = .error e t := run_bind_error.mpr (Or.inl h)

theorem prepareFill_of_unreadable (hcmp : f.Compares)
    (hd : (s.market.marketDetails.get f.marketIndex).isSome)
    (hread : ¬ SnapshotReadable s f.makerAccountIndex) :
    ∃ e t, (prepareFill f).run s = .error e t ∧ e.StopsLoop := by
  obtain ⟨d, hd⟩ := Option.isSome_iff_exists.mp hd
  have hsettle : (settleSides f).run s = .ok () (f.settledState s d) := by
    rw [settleSides_run, hd]
  have hread' : ¬ SnapshotReadable (f.settledState s d) f.makerAccountIndex :=
    ((settled_settledState hd).snapshotReadable_iff _).not.mpr hread
  cases hsnap : snapshotRisk f.makerAccountIndex (f.settledState s d) with
  | ok pre => exact absurd (snapshotRisk_ok_iff.mp ⟨pre, hsnap⟩) hread'
  | error e =>
    refine ⟨e, f.settledState s d, ?_, snapshotRisk_stopsLoop hsnap⟩
    refine run_bind_error.mpr (Or.inr ⟨(), _, hsettle, run_bind_error.mpr (Or.inl ?_)⟩)
    rw [snapshotSide, hcmp.risk, hcmp.maker]
    exact run_read_error.mpr ⟨hsnap, rfl⟩

theorem makerPositionChange_of_bounds
    (h : ¬ ((getPosition s f.makerAccountIndex f.marketIndex).applyFill
      (f.baseAmount * f.makerSign) f.price).InBounds) :
    ∃ text t, (makerPositionChange f).run s = .error ⟨.makerInvalidPosition, text⟩ t := by
  have hchange := applyPositionChange_run f.makerAccountIndex f.marketIndex f.price f.baseAmount
    f.makerSign s
  dsimp only at hchange
  rw [if_neg h] at hchange
  exact ⟨_, s, run_mapError_error.mpr ⟨_, hchange, rfl⟩⟩

theorem applyAccount_of_short {mr r₁ r₂ : PositionChangeResult} {w w₁ w₂ : State} {delta avail : ℤ}
    (hcmp : f.Compares) (hmode : mr.old.marginMode = .isolated)
    (hpnl : (isolatedAddAllocatedMargin mr (mr.realizedPnL - f.makerFeeAmount)).run w = .ok r₁ w₁)
    (hfee : (isolatedDebit r₁ (liqFeeOf true f.liqFee)).run w₁ = .ok r₂ w₂)
    (hdelta : calculateIsolatedMarginDelta r₂ f.makerFeeAmount w₂ = .ok delta) (hpos : 0 < delta)
    (havail : getAvailableUsdcCollateral r₂.accountIdx w₂ = .ok avail) (hshort : avail < delta) :
    ∃ text t, (applyAccount mr f.makerFeeAmount true f.liqFee f).run w
      = .error ⟨.makerInsufficientCollateral, text⟩ t := by
  obtain ⟨text, hrequire⟩ : ∃ text, (requireAvailableUsdc r₂.accountIdx delta true).run w₂
      = .error ⟨.makerInsufficientCollateral, text⟩ w₂ := by
    rw [requireAvailableUsdc, run_bind_read, havail]
    dsimp only
    rw [run_require, if_neg (not_not.mpr hshort)]
    exact ⟨_, rfl⟩
  have hrebalance : (rebalanceIsolatedMargin r₂ f.makerFeeAmount true f).run w₂
      = .error ⟨.makerInsufficientCollateral, text⟩ w₂ := by
    rw [rebalanceIsolatedMargin, run_bind_read, hdelta]
    dsimp only
    rw [Txn.when, if_pos hpos.ne', hcmp.risk, hcmp.maker]
    refine run_bind_error.mpr (Or.inl ?_)
    rw [Txn.when, if_pos ⟨hpos, rfl⟩]
    exact hrequire
  refine ⟨text, w₂, ?_⟩
  rw [applyAccount, hmode]
  exact run_bind_error.mpr (Or.inr ⟨r₁, w₁, hpnl, run_bind_error.mpr (Or.inr ⟨r₂, w₂, hfee, hrebalance⟩)⟩)

theorem checkSideRisk_run {idx : ℕ} {pre : PreRiskSnapshot} {ok : Bool} (hcmp : f.Compares)
    (h : isValidRiskChangeFrom idx pre s = .ok ok) :
    (checkSideRisk f idx pre).run s = if ok = true then .ok () s else .error
      (if idx = f.makerAccountIndex then ⟨.makerRiskRegression, s!"account {idx}"⟩
        else ⟨.takerRiskRegression, s!"account {idx}"⟩) s := by
  rw [checkSideRisk, hcmp.maker, hcmp.taker, if_neg (by simp), if_neg (by simp), run_bind_read, h]
  exact run_require

/-- **How a fault of the maker is reported**: as one of the maker if its risk can be read, and
otherwise with an error that stops the loop. -/
theorem MakerFault.apply_error (hcmp : f.Compares) (h : MakerFault f s) :
    ∃ e t, (apply f).run s = .error e t ∧
      (SnapshotReadable s f.makerAccountIndex → isRecoverableMakerError e = true) ∧
      (¬ SnapshotReadable s f.makerAccountIndex → e.StopsLoop) := by
  -- once the snapshots are taken, the maker's risk was readable
  have hreadable : ∀ {pre u}, (prepareFill f).run s = .ok pre u →
      SnapshotReadable s f.makerAccountIndex := by
    intro pre u hprep
    obtain ⟨d, -, -, hread, -⟩ := prepareFill_ok hprep
    exact hread ⟨hcmp.risk, hcmp.maker⟩
  cases h with
  | funding hd h =>
    obtain ⟨d, hd⟩ := Option.isSome_iff_exists.mp hd
    rw [settlePositionFunding_run, hd] at h
    cases h
  | snapshot hd hother hopen hmark =>
    have hread : ¬ SnapshotReadable s f.makerAccountIndex := by
      intro hread
      obtain ⟨r, hr⟩ := hread.marks _ hopen
      exact hmark r hr
    obtain ⟨e, t, hprep, hstops⟩ := prepareFill_of_unreadable hcmp hd hread
    exact ⟨e, t, apply_of_prepare hprep, fun h => absurd h hread, fun _ => hstops⟩
  | bounds hprep h =>
    obtain ⟨text, t, hmaker⟩ := makerPositionChange_of_bounds h
    refine ⟨_, t, run_bind_error.mpr (Or.inr ⟨_, _, hprep, run_bind_error.mpr (Or.inl hmaker)⟩),
      fun _ => rfl, fun h => absurd (hreadable hprep) h⟩
  | margin hprep hmaker htaker hrouted hmode hpnl hfee hdelta hpos havail hshort =>
    obtain ⟨text, t, haccount⟩ :=
      applyAccount_of_short hcmp hmode hpnl hfee hdelta hpos havail hshort
    refine ⟨⟨.makerInsufficientCollateral, text⟩, t, ?_, fun _ => rfl,
      fun h => absurd (hreadable hprep) h⟩
    refine run_bind_error.mpr (Or.inr ⟨_, _, hprep, run_bind_error.mpr (Or.inr ⟨_, _, hmaker,
      run_bind_error.mpr (Or.inr ⟨_, _, htaker, ?_⟩)⟩)⟩)
    exact run_bind_error.mpr (Or.inl (run_bind_error.mpr (Or.inr ⟨(), _, hrouted,
      run_bind_error.mpr (Or.inl haccount)⟩)))
  | @regression pre mr tr u u₁ u₂ w w₁ hprep hmaker htaker hrouted hinterest hothers h =>
    have htakerOk : (checkSideRisk f f.takerAccountIndex pre.2).run w₁ = .ok () w₁ :=
      checkSideRisk_run hcmp hothers
    have hmakerBad : (checkSideRisk f f.makerAccountIndex pre.1).run w₁
        = .error ⟨.makerRiskRegression, s!"account {f.makerAccountIndex}"⟩ w₁ := by
      rw [checkSideRisk_run hcmp h, if_neg (by simp), if_pos rfl]
    have hfinish : (finishFill f pre.1 pre.2 mr tr).run u₂
        = .error ⟨.makerRiskRegression, s!"account {f.makerAccountIndex}"⟩ w₁ := by
      refine run_bind_error.mpr (Or.inr ⟨(), w, hrouted, run_bind_error.mpr
        (Or.inr ⟨(), w₁, hinterest, ?_⟩)⟩)
      rw [Txn.when, if_pos hcmp.risk]
      exact run_bind_error.mpr (Or.inr ⟨(), w₁, htakerOk, hmakerBad⟩)
    refine ⟨⟨.makerRiskRegression, s!"account {f.makerAccountIndex}"⟩, w₁, ?_, fun _ => rfl,
      fun h => absurd (hreadable hprep) h⟩
    exact run_bind_error.mpr (Or.inr ⟨_, _, hprep, run_bind_error.mpr (Or.inr ⟨_, _, hmaker,
      run_bind_error.mpr (Or.inr ⟨_, _, htaker, hfinish⟩)⟩)⟩)

end Faults

/-! ### What the loop does -/

section Isolation

variable {market : Market} {taker : Order} {maxFills base : ℕ} {s u : State} {x : SweepState}
  {maker : OrderBookEntry}

/-- The loop evicts the maker and goes on with the same taker. -/
def EvictsAndGoesOn (market : Market) (x : SweepState) (u : State) (maker : OrderBookEntry) : Prop :=
  ∃ o v, (evictMakerOrder maker.orderIndex .cancelled).run u = .ok o v ∧ ∀ fuel total,
    (sweep true (applyUserFill market) (pure true) (fuel + 1) x.taker total x.fillsLeft).run x.state
      = (sweep true (applyUserFill market) (pure true) fuel x.taker total x.fillsLeft).run v

/-- **Faults of a maker.**  Whenever matching an order in a perp market comes to a fill that fails at a
step of the maker's side, the loop evicts the maker and goes on if and only if the risk of the maker
can be read and its order can be evicted, as it can on a consistent book.  If the risk cannot be read,
the error goes through to the message of the taker. -/
theorem maker_fault_isolated (hperp : market.marketType = .perps)
    (hreached : Relation.ReflTransGen (Pass true (applyUserFill market) (pure true))
      ⟨taker, maxFills, s⟩ x) (ha : Attempts true x u maker base)
    (hfault : MakerFault (userPerpFill market x.taker maker base) u) :
    (EvictsAndGoesOn market x u maker ↔ SnapshotReadable u maker.ownerAccountIndex ∧
      ∃ o v, (evictMakerOrder maker.orderIndex .cancelled).run u = .ok o v) ∧
    (¬ SnapshotReadable u maker.ownerAccountIndex → ∃ e, ∀ fuel total,
      (sweep true (applyUserFill market) (pure true) (fuel + 1) x.taker total x.fillsLeft).run x.state
        = .error e u) ∧
    (∀ held, BookRep x.state held →
      ∃ o v, (evictMakerOrder maker.orderIndex .cancelled).run u = .ok o v) := by
  obtain ⟨e, t, hrun, hreadable, hunreadable⟩ :=
    hfault.apply_error ⟨rfl, rfl, rfl⟩
  have htrade : (userTrade market x.taker maker base).run u = .error e t := by
    rw [userTrade, if_pos hperp]
    exact hrun
  have hwrites : (fillWrites maker base (userTrade market x.taker maker base)).run u = .error e t :=
    run_bind_error.mpr (Or.inl htrade)
  have hloop := ((userLoop market).failsCleanly _ x u maker base e t hreached ha hwrites).2
  have hstops : ¬ SnapshotReadable u maker.ownerAccountIndex → ∀ fuel total,
      (sweep true (applyUserFill market) (pure true) (fuel + 1) x.taker total x.fillsLeft).run x.state
        = .error e u := by
    intro hread fuel total
    obtain ⟨-, hmaker, htaker⟩ := hunreadable hread
    rw [hloop, hmaker, htaker]
    rfl
  refine ⟨⟨?_, ?_⟩, fun hread => ⟨e, hstops hread⟩, fun held hrep => ?_⟩
  · rintro ⟨o, v, hevict, hgoes⟩
    refine ⟨?_, o, v, hevict⟩
    by_contra hread
    -- with no passes left, going on ends at the bound, which is no error of a snapshot
    have hbound := (hgoes 0 0).symm.trans (hstops hread 0 0)
    obtain ⟨rfl, -⟩ := EStateM.Result.error.inj hbound
    exact absurd (hunreadable hread).1 (by decide)
  · rintro ⟨hread, o, v, hevict⟩
    refine ⟨o, v, hevict, fun fuel total => ?_⟩
    rw [hloop, hreadable hread, if_pos rfl, EStateM.run_bind, hevict]
  · obtain ⟨hrep', -, -, hbest, -⟩ := ha.rep hrep
    obtain ⟨o, v, hevict, -⟩ := hrep'.evict_best hbest
    exact ⟨o, v, hevict⟩

end Isolation

/-- Two markets with a mark price of 100.  The first user is long in the second one. -/
def twoPriced : State where
  now := 100
  account := {
    accounts := Table.ofRows [{ accountIndex := 0 },
      { accountIndex := 1, accountType := .insuranceFund, publicPoolInfo := some {} },
      { accountIndex := 2, ownerAddress := "alice", collateral := 5000 },
      { accountIndex := 3, ownerAddress := "bob", collateral := 5000 }]
    accountPositions := Table.ofRows [
      { accountIndex := 1, marketIndex := 1, baseSize := -10, entryQuote := -1000 },
      { accountIndex := 2, marketIndex := 1, baseSize := 10, entryQuote := 1000 }] }
  market := {
    markets := Table.ofRows [{ marketIndex := 0 }, { marketIndex := 1 }]
    marketDetails := Table.ofRows [
      { marketIndex := 0, markPrice := 100, lastMarkPriceRefreshTimestamp := 100,
        defaultInitialMarginFraction := 1000, minInitialMarginFraction := 500,
        maintenanceMarginFraction := 400, closeOutMarginFraction := 200 },
      { marketIndex := 1, markPrice := 100, lastMarkPriceRefreshTimestamp := 100, openInterest := 10,
        defaultInitialMarginFraction := 1000, minInitialMarginFraction := 500,
        maintenanceMarginFraction := 400, closeOutMarginFraction := 200 }]
    params := { maxMarkPriceStalenessMs := 500 } }

def aliceAsk : MsgCreateOrder where
  sender := "alice"
  accountIndex := 2
  marketIndex := 0
  isAsk := true
  baseAmount := 5
  price := 100
  expiry := 10000
  price_le := hundred_le_maxUint32

/-- The offer rests, and then the mark price of the second market is not refreshed any more. -/
def staleElsewhere : State :=
  let _ := AddressCodec.acceptAll
  let s := Txn.after (createOrder aliceAsk) twoPriced
  { s.putDetails { detailsOf s 0 with lastMarkPriceRefreshTimestamp := 2000 } with now := 2000 }

def bobBuys : MsgCreateOrder where
  sender := "bob"
  accountIndex := 3
  marketIndex := 0
  isAsk := false
  baseAmount := 5
  price := 100
  expiry := 10000
  price_le := hundred_le_maxUint32

def bobTaker : Order where
  orderIndex := 2
  ownerAccountIndex := 3
  marketIndex := 0
  isAsk := false
  price := 100
  nonce := firstBidNonce
  initialBaseAmount := 5
  remainingBaseAmount := 5
  expiry := 10000

def aliceEntry : OrderBookEntry where
  orderIndex := 1
  ownerAccountIndex := 2
  price := 100
  nonce := firstAskNonce
  remainingBaseAmount := 5
  expiry := 10000
  reduceOnly := false
  orderType := .limitOrder

/-- The state in which the order comes to the offer. -/
def atOffer : State :=
  Txn.after (nextMaker bobTaker true (entryCount staleElsewhere + 1)) staleElsewhere

theorem bobTaker_attempts :
    Attempts true ⟨bobTaker, 100, staleElsewhere⟩ atOffer aliceEntry 5 :=
  .of_values staleElsewhere (by decide) (by decide) (by decide +kernel) (by decide +kernel)

theorem aliceEntry_fault : MakerFault (userPerpFill { marketIndex := 0 } bobTaker aliceEntry 5) atOffer := by
  have hmark : (getMarkPriceAndDetails 1 atOffer).toOption = none := by decide +kernel
  refine .snapshot (m := 1) (by decide +kernel) (by decide) (by decide +kernel) fun r hr => ?_
  rw [hr] at hmark
  cases hmark

/-- The risk of the first user cannot be read, and the order of the second user fails. -/
theorem maker_fault_stops_loop :
    ¬ SnapshotReadable atOffer 2 ∧
      ¬ EvictsAndGoesOn { marketIndex := 0 } ⟨bobTaker, 100, staleElsewhere⟩ atOffer aliceEntry := by
  have hread : ¬ SnapshotReadable atOffer 2 := by
    intro hread
    obtain ⟨r, hr⟩ := hread.marks 1 (by decide +kernel)
    have hmark : (getMarkPriceAndDetails 1 atOffer).toOption = none := by decide +kernel
    rw [hr] at hmark
    cases hmark
  refine ⟨hread, fun hgoes => hread ?_⟩
  exact ((maker_fault_isolated rfl .refl bobTaker_attempts aliceEntry_fault).1.mp hgoes).1

/-- **A resting order blocks its side of the book.**  The owner of the best offer holds a position in
another market, whose mark price is stale; so the order of the second user fails with an error, while
before it would have been filled. -/
theorem stale_mark_blocks_taker :
    let _ := AddressCodec.acceptAll
    succeeds (createOrder bobBuys) (after (createOrder aliceAsk) twoPriced) = true ∧
      (peekBest 0 true staleElsewhere) = some aliceEntry ∧
      Attempts true ⟨bobTaker, 100, staleElsewhere⟩ atOffer aliceEntry 5 ∧
      MakerFault (userPerpFill { marketIndex := 0 } bobTaker aliceEntry 5) atOffer ∧
      succeeds (matchOrder bobTaker 100) staleElsewhere = false ∧
      succeeds (createOrder bobBuys) staleElsewhere = false := by
  intro _
  exact ⟨by decide +kernel, by decide +kernel, bobTaker_attempts, aliceEntry_fault,
    by decide +kernel, by decide +kernel⟩

end PerpDex
