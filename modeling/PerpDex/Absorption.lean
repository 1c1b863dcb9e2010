/-
The insurance fund's preview of a takeover against the takeover itself.

Main result: `takeover_preview_exact`.

The preview drops the realized PnL, and `tryLLPAbsorb` previews the size with the opposite sign of what
the fill gives to the fund.
-/
import PerpDex.Liquidation

namespace PerpDex

variable {s t : State}

/-! ### The fill behind an absorption -/

theorem deleverage_ok {victim m base : ℕ} {u : Unit}
    (h : (deleverage victim m insuranceFundOperatorAccountIdx base).run s = .ok u t) :
    ∃ zsnap, getZeroPriceSnapshot victim m s = .ok zsnap ∧
      victim ≠ insuranceFundOperatorAccountIdx ∧ base ≠ 0 ∧
      (apply (deleverageFill victim insuranceFundOperatorAccountIdx m zsnap.zeroPrice base
        zsnap.position.openingIsAsk)).run s = .ok () t := by
  have hfund : ∀ b : Bool, ¬ (insuranceFundOperatorAccountIdx ≠ insuranceFundOperatorAccountIdx ∧
      b = false) := fun b hb => hb.1 rfl
  simp only [deleverage, Txn.run_bind_ok, Txn.run_read_ok, Txn.run_require_ok, Txn.run_when,
    hfund, if_false, applyPerpsMatching] at h
  obtain ⟨zsnap, _, ⟨hsnap, rfl⟩, _, _, ⟨-, rfl⟩, status, _, ⟨-, rfl⟩, _, _, ⟨-, rfl⟩, _, _,
    ⟨hne, rfl⟩, _, _, ⟨hbase, rfl⟩, _, _, ⟨-, rfl⟩, dAcc, s₀, ⟨-, rfl⟩, _, s₁, hpool, _, s₂,
    hskip, _, s₃, hrun, hend⟩ := h
  have hs₁ : s₁ = s₀ := by
    split at hpool
    · exact (Txn.run_lift_ok.mp hpool).2
    · exact (EStateM.Result.ok.inj hpool).2.symm
  obtain rfl : s₂ = s₀ := (EStateM.Result.ok.inj hskip).2.symm.trans hs₁
  obtain rfl : t = s₃ := (EStateM.Result.ok.inj hend).2.symm
  exact ⟨zsnap, hsnap, hne.symm, hbase, hrun⟩

theorem tryLLPAbsorb_ok {victim m attempts : ℕ}
    (h : (tryLLPAbsorb victim m attempts).run s = .ok true t) :
    ∃ snap sim, getLiquidationRiskSnapshot victim m s = .ok snap ∧ snap.position.baseSize ≠ 0 ∧
      simulateRiskAfterTakeover insuranceFundOperatorAccountIdx m (-snap.position.baseSize)
        snap.zeroPrice s = .ok sim ∧
      (deleverage victim m insuranceFundOperatorAccountIdx
        |snap.position.baseSize|.toNat).run s = .ok () t := by
  rw [tryLLPAbsorb] at h
  split at h
  · simp [EStateM.run_pure] at h
  rw [Txn.run_bind_ok] at h
  obtain ⟨llp, s₁, hread, h⟩ := h
  obtain ⟨-, rfl⟩ := Txn.run_read_ok.mp hread
  rcases llp with e | llp
  · simp [EStateM.run_pure] at h
  dsimp only at h
  split at h
  · simp [EStateM.run_pure] at h
  rw [Txn.run_bind_ok] at h
  obtain ⟨snap, s₂, hsnap, h⟩ := h
  obtain ⟨hsnap, rfl⟩ := Txn.run_read_ok.mp hsnap
  split at h
  · simp [EStateM.run_pure] at h
  rename_i hsize
  rw [Txn.run_bind_ok] at h
  obtain ⟨sim, s₃, hsim, h⟩ := h
  obtain ⟨hsim, rfl⟩ := Txn.run_read_ok.mp hsim
  split at h
  · simp [EStateM.run_pure] at h
  simp only [uint64Of, Txn.run_bind_ok, Txn.run_require_ok, Txn.run_pure_ok] at h
  obtain ⟨size, s₄, ⟨_, s₅, ⟨-, rfl⟩, rfl, rfl⟩, _, s₆, hdel, -, rfl⟩ := h
  exact ⟨snap, sim, hsnap, hsize, hsim, hdel⟩

theorem deleverageFill_delta (victim m price : ℕ) (p : AccountPosition) :
    let f := deleverageFill victim insuranceFundOperatorAccountIdx m price |p.baseSize|.toNat
      p.openingIsAsk
    (f.baseAmount : ℤ) * f.takerSign = p.baseSize := by
  simp only [deleverageFill, Fill.takerSign, Fill.makerSign, AccountPosition.openingIsAsk,
    AccountPosition.isShort, decide_eq_true_eq]
  rcases lt_or_ge p.baseSize 0 with h | h
  · rw [if_pos h, abs_of_neg h]
    omega
  · rw [if_neg (not_lt.mpr h), abs_of_nonneg h]
    omega

/-! ### When the preview is right -/

/-- A fee-free fill that succeeds, whose taker is cross-margined without pending funding, and
the preview of it. -/
structure PreviewedFill (f : Fill) (s t : State) (sim : RiskParameters) : Prop where
  ne : f.makerAccountIndex ≠ f.takerAccountIndex
  noFee : f.noFee = true
  delta_ne : (f.baseAmount : ℤ) * f.takerSign ≠ 0
  funded : (getPosition s f.takerAccountIndex f.marketIndex).lastFundingRatePrefixSum
    = (detailsOf s f.marketIndex).fundingRatePrefixSum
  simulated : simulateRiskAfterTakeover f.takerAccountIndex f.marketIndex
    (f.baseAmount * f.takerSign) f.price s = .ok sim
  applied : (apply f).run s = .ok () t

/-- The fill does not reduce the taker's position, or reduces it at its entry price. -/
def Fill.RealizesNothing (f : Fill) (s : State) : Prop :=
  let p := getPosition s f.takerAccountIndex f.marketIndex
  let delta : ℤ := f.baseAmount * f.takerSign
  (p.IsFullClose delta ∨ p.IsFlip delta → p.baseSize * f.price = p.entryQuote) ∧
    (p.IsPartialDecrease delta →
      delta * f.price + (p.entryQuote * delta).tdiv (-p.baseSize) = 0)

/-- With the size added to what it holds, the fund's initial requirement is at most its value plus what
the size is worth at the mark beyond the zero price, corrected by what the accounting of a closed part
is off. -/
def TakeoverCovered (victim m : ℕ) (s : State) : Prop :=
  ∃ zsnap rp mark md, getZeroPriceSnapshot victim m s = .ok zsnap ∧
    computeCrossRisk insuranceFundOperatorAccountIdx s = .ok rp ∧
    getMarkPriceAndDetails m s = .ok (mark, md) ∧
    (let p := getPosition s insuranceFundOperatorAccountIdx m
    let size := (getPosition s victim m).baseSize
    rp.initialMarginRequirement
        + (md.initialMargin |p.baseSize + size| mark - md.initialMargin |p.baseSize| mark)
      ≤ rp.totalAccountValue + size * ((mark : ℤ) - zsnap.zeroPrice)
        + p.closingGap size zsnap.zeroPrice)

theorem PreviewedFill.agree_iff {f : Fill} {sim : RiskParameters} (h : PreviewedFill f s t sim) :
    (∃ rp, computeCrossRisk f.takerAccountIndex t = .ok rp ∧ rp.Agree sim) ↔
      f.RealizesNothing s := by
  obtain ⟨rp, hrp, hagree⟩ :=
    computeCrossRisk_of_simulated h.ne h.noFee h.delta_ne h.funded h.simulated h.applied
  rw [Fill.RealizesNothing, ← AccountPosition.realizedPnL_eq_zero_iff]
  simp only [RiskParameters.Agree, RiskParameters.plus, add_zero] at hagree ⊢
  obtain ⟨hvalue, hrest⟩ := hagree
  constructor
  · rintro ⟨rp', hrp', hvalue', -⟩
    cases hrp.symm.trans hrp'
    omega
  · intro hzero
    exact ⟨rp, hrp, by omega, hrest⟩

theorem computeCrossRisk_of_absorbed {victim m attempts : ℕ}
    (h : (tryLLPAbsorb victim m attempts).run s = .ok true t)
    (hfund : (getPosition s insuranceFundOperatorAccountIdx m).lastFundingRatePrefixSum
      = (detailsOf s m).fundingRatePrefixSum) :
    ∃ zsnap rp mark md rp', getZeroPriceSnapshot victim m s = .ok zsnap ∧
      computeCrossRisk insuranceFundOperatorAccountIdx s = .ok rp ∧
      getMarkPriceAndDetails m s = .ok (mark, md) ∧
      computeCrossRisk insuranceFundOperatorAccountIdx t = .ok rp' ∧
      (let p := getPosition s insuranceFundOperatorAccountIdx m
      let size := (getPosition s victim m).baseSize
      rp'.initialMarginRequirement = rp.initialMarginRequirement
        + (md.initialMargin |p.baseSize + size| mark - md.initialMargin |p.baseSize| mark) ∧
      rp'.totalAccountValue = rp.totalAccountValue + size * ((mark : ℤ) - zsnap.zeroPrice)
        + p.closingGap size zsnap.zeroPrice) := by
  obtain ⟨snap, sim, hsnap, hsize, hsim, hdel⟩ := tryLLPAbsorb_ok h
  rw [getLiquidationRiskSnapshot_position hsnap] at hsize hsim hdel
  obtain ⟨zsnap, hz, hne, -, hrun⟩ := deleverage_ok hdel
  rw [getZeroPriceSnapshot_position hz] at hrun
  obtain ⟨cur, mark, md, hcur, hcross, hmark, -⟩ :=
    (simulateRiskAfterTakeover_eq_ok (neg_ne_zero.mpr hsize)).mp hsim
  have hmark0 : mark ≠ 0 := by
    obtain ⟨-, hprice, hgate⟩ := getMarkPriceAndDetails_eq_ok.mp hmark
    rw [show mark = md.markPrice from hprice]
    exact gateMarkPrice_pos hgate
  -- the preview of the size the fund really gets
  have hdelta := deleverageFill_delta victim m zsnap.zeroPrice (getPosition s victim m)
  set v := (getPosition s victim m).baseSize with hv
  set p := getPosition s insuranceFundOperatorAccountIdx m with hp
  set f := deleverageFill victim insuranceFundOperatorAccountIdx m zsnap.zeroPrice |v|.toNat
    (getPosition s victim m).openingIsAsk with hf
  have hsimv : simulateRiskAfterTakeover f.takerAccountIndex f.marketIndex
      (f.baseAmount * f.takerSign) f.price s
      = .ok (pureApplySimulatedTakeover p cur mark md v zsnap.zeroPrice) := by
    rw [hdelta]
    exact (simulateRiskAfterTakeover_eq_ok hsize).mpr ⟨cur, mark, md, hcur, hcross, hmark, rfl⟩
  obtain ⟨rp', hrp', hvalue, hinitial, -⟩ := computeCrossRisk_of_simulated hne rfl
    (hdelta ▸ hsize) hfund hsimv hrun
  rw [hdelta, pureApplySimulatedTakeover_eq _ _ _ _ hsize] at hvalue hinitial
  refine ⟨zsnap, cur, mark, md, rp', hz, hcur, hmark, hrp', ?_, ?_⟩
  · rw [hinitial]
    exact add_zero _
  · rw [hvalue, ← AccountPosition.fillGap_eq_closingGap _ hmark0]
    simp only [RiskParameters.plus, AccountPosition.fillGap]
    show cur.totalAccountValue + ((p.applyFill v zsnap.zeroPrice).position.unrealizedPnL mark
      - p.unrealizedPnL mark) + (p.applyFill v zsnap.zeroPrice).realizedPnL = _
    ring

/-- **Preview and takeover.**  The preview of a fee-free fill is right exactly when the fill realizes
nothing, and an absorption leaves the requirement of the fund covered exactly when it can carry the
victim's size, with the victim's sign, at the zero price. -/
theorem takeover_preview_exact (s t : State) :
    (∀ f sim, PreviewedFill f s t sim →
      ((∃ rp, computeCrossRisk f.takerAccountIndex t = .ok rp ∧ rp.Agree sim) ↔
        f.RealizesNothing s)) ∧
    (∀ victim m attempts, (tryLLPAbsorb victim m attempts).run s = .ok true t →
      (getPosition s insuranceFundOperatorAccountIdx m).lastFundingRatePrefixSum
        = (detailsOf s m).fundingRatePrefixSum →
      ((∃ rp, computeCrossRisk insuranceFundOperatorAccountIdx t = .ok rp ∧
          rp.initialMarginRequirement ≤ rp.totalAccountValue) ↔
        TakeoverCovered victim m s)) := by
  refine ⟨fun f sim h => h.agree_iff, fun victim m attempts h hfund => ?_⟩
  obtain ⟨zsnap, rp, mark, md, rp', hz, hrp, hmark, hrp', hinitial, hvalue⟩ :=
    computeCrossRisk_of_absorbed h hfund
  constructor
  · rintro ⟨rp'', hrp'', hle⟩
    cases hrp'.symm.trans hrp''
    rw [hinitial, hvalue] at hle
    exact ⟨zsnap, rp, mark, md, hz, hrp, hmark, hle⟩
  · rintro ⟨zsnap', rp'', mark', md', hz', hrp'', hmark', hle⟩
    cases hz.symm.trans hz'
    cases hrp.symm.trans hrp''
    obtain ⟨rfl, rfl⟩ : mark = mark' ∧ md = md' :=
      Prod.mk.inj (Except.ok.inj (hmark.symm.trans hmark'))
    refine ⟨rp', hrp', ?_⟩
    rw [hinitial, hvalue]
    exact hle

/-- At a mark of 100 account 2 is long 100 units, entered at 120, with collateral 500, and account 3
holds the other side; collateral and position of the fund are given. -/
def underwater (collateral size entryQuote : ℤ) : State where
  account := {
    accounts := Table.ofRows [{ accountIndex := 0 },
      { accountIndex := 1, accountType := .insuranceFund, collateral := collateral,
        publicPoolInfo := some {} },
      { accountIndex := 2, collateral := 500 }, { accountIndex := 3, collateral := 100000 }]
    accountPositions := Table.ofRows [
      { accountIndex := 1, marketIndex := 0, baseSize := size, entryQuote := entryQuote },
      { accountIndex := 2, marketIndex := 0, baseSize := 100, entryQuote := 12000 },
      { accountIndex := 3, marketIndex := 0, baseSize := -100 - size,
        entryQuote := -12000 - entryQuote }] }
  market := {
    markets := Table.ofRows [{ marketIndex := 0 }]
    marketDetails := Table.ofRows [{
      marketIndex := 0, markPrice := 100, defaultInitialMarginFraction := 1000,
      minInitialMarginFraction := 500, maintenanceMarginFraction := 400,
      closeOutMarginFraction := 200, openInterest := 100 }] }

theorem takeover_preview_exact_solvent_fund :
    let s := underwater 10000 0 0
    let f := deleverageFill 2 insuranceFundOperatorAccountIdx 0 115 100 false
    (∃ sim, PreviewedFill f s (Txn.after (apply f) s) sim ∧
      ∃ rp, computeCrossRisk insuranceFundOperatorAccountIdx (Txn.after (apply f) s) = .ok rp ∧
        rp.Agree sim) ∧
    ∃ rp, computeCrossRisk insuranceFundOperatorAccountIdx
        (Txn.after (tryLLPAbsorb 2 0 8) s) = .ok rp ∧
      rp.initialMarginRequirement ≤ rp.totalAccountValue := by
  intro s f
  have hfill : PreviewedFill f s (Txn.after (apply f) s)
      ⟨10000, 10000, 8500, 1000, 400, 200⟩ :=
    ⟨by decide, rfl, by decide, rfl, by decide +kernel, Txn.run_of_succeeds (by decide +kernel)⟩
  refine ⟨⟨_, hfill, ((takeover_preview_exact _ _).1 _ _ hfill).mpr ⟨by decide, by decide⟩⟩, ?_⟩
  refine ((takeover_preview_exact s _).2 2 0 8 (Txn.run_of_value (by decide +kernel)) rfl).mpr ?_
  refine ⟨⟨getPosition s 2 0, 115⟩, ⟨10000, 10000, 10000, 0, 0, 0⟩, 100, detailsOf s 0,
    ?_, ?_, ?_, ?_⟩
  all_goals decide +kernel

/-- The fund is short 100 units entered at 120 and has collateral 100.  The preview has it sell the
victim's units once more and finds 3600 against a requirement of 2000; the fill closes the fund's own
position, books the gain of 500 as a loss, and leaves it bankrupt. -/
theorem absorption_bankrupts_fund :
    let s := underwater 100 (-100) (-12000)
    let f := deleverageFill 2 insuranceFundOperatorAccountIdx 0 115 100 false
    (∃ sim, PreviewedFill f s (Txn.after (apply f) s) sim ∧ sim.totalAccountValue = 100) ∧
    (∃ rp, computeCrossRisk insuranceFundOperatorAccountIdx (Txn.after (apply f) s) = .ok rp ∧
      rp.totalAccountValue = -400) ∧
    Txn.value (tryLLPAbsorb 2 0 8) s = some true ∧
    ∃ rp, computeCrossRisk insuranceFundOperatorAccountIdx
        (Txn.after (tryLLPAbsorb 2 0 8) s) = .ok rp ∧
      rp.totalAccountValue < rp.initialMarginRequirement := by
  intro s f
  refine ⟨⟨⟨100, 100, 100, 0, 0, 0⟩, ⟨by decide, rfl, by decide, rfl, by decide +kernel,
    Txn.run_of_succeeds (by decide +kernel)⟩, rfl⟩, ⟨⟨-400, -400, -400, 0, 0, 0⟩, ?_, rfl⟩, ?_,
    ⟨-400, -400, -400, 0, 0, 0⟩, ?_, by decide⟩
  all_goals decide +kernel

end PerpDex
