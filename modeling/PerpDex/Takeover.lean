/-
Risk snapshots for liquidations and the preview of a takeover (`x/risk/keeper/liquidation.go`).

* `simulateRiskAfterTakeover` — risk of an account if it took over a size at a price;
* `computeCrossRisk_of_simulated` — by how much the preview is off.
-/
import PerpDex.EngineSpec

namespace PerpDex

variable {s t : State} {acc m : ℕ} {p : AccountPosition} {md : MarketDetails}

/-! ### Zero price -/

def quoTowardZero (num denom : ℤ) : ℤ := if denom = 0 then 0 else num.tdiv denom

def pureComputeZeroPrice (pos : AccountPosition) (markPrice : ℕ) (md : MarketDetails)
    (tav mmr : ℤ) : ℕ :=
  if pos.baseSize = 0 ∨ markPrice = 0 then 0
  else if mmr = 0 then markPrice
  else
    let num := (markPrice : ℤ) * md.maintenanceMarginFraction * tav
    let denom := mmr * marginTick
    let adjustment := quoTowardZero num denom
    let zp : ℤ := if pos.isShort then markPrice + adjustment else markPrice - adjustment
    if zp ≤ 0 then 1
    else if zp > maxOrderPrice then maxOrderPrice
    else zp.toNat

structure LiquidationRiskSnapshot where
  position : AccountPosition
  markPrice : ℕ := 0
  risk : RiskParameters := {}
  crossRisk : RiskParameters := {}
  zeroPrice : ℕ := 0
deriving DecidableEq, Repr

def getLiquidationRiskSnapshot (accountIdx marketIdx : ℕ) : Query LiquidationRiskSnapshot :=
  fun s => do
    let pos := getPosition s accountIdx marketIdx
    if pos.baseSize = 0 then return { position := pos }
    else do
      let (markPrice, md) ← getMarkPriceAndDetails marketIdx s
      let crossRP ← computeCrossRisk accountIdx s
      let risk ← (if pos.marginMode = .isolated then computeIsolatedRisk accountIdx marketIdx s
        else .ok crossRP)
      return {
        position := pos
        markPrice := markPrice
        risk := risk
        crossRisk := crossRP
        zeroPrice := pureComputeZeroPrice pos markPrice md risk.totalAccountValue
          risk.maintenanceMarginRequirement }

structure ZeroPriceSnapshot where
  position : AccountPosition
  zeroPrice : ℕ := 0
deriving DecidableEq, Repr

def getZeroPriceSnapshot (accountIdx marketIdx : ℕ) : Query ZeroPriceSnapshot := fun s => do
  let pos := getPosition s accountIdx marketIdx
  if pos.baseSize = 0 then return { position := pos }
  else do
    let (markPrice, md) ← getMarkPriceAndDetails marketIdx s
    let risk ← (if pos.marginMode = .isolated then computeIsolatedRisk accountIdx marketIdx s
      else computeCrossRisk accountIdx s)
    return {
      position := pos
      zeroPrice := pureComputeZeroPrice pos markPrice md risk.totalAccountValue
        risk.maintenanceMarginRequirement }

theorem getLiquidationRiskSnapshot_position {victim : ℕ}
    {snap : LiquidationRiskSnapshot} (h : getLiquidationRiskSnapshot victim m s = .ok snap) :
    snap.position = getPosition s victim m := by
  rw [getLiquidationRiskSnapshot] at h
  by_cases hsize : (getPosition s victim m).baseSize = 0
  · rw [if_pos hsize] at h
    rw [← Except.ok.inj h]
  · rw [if_neg hsize, Txn.except_bind_ok] at h
    obtain ⟨r, -, h⟩ := h
    rw [Txn.except_bind_ok] at h
    obtain ⟨cross, -, h⟩ := h
    rw [Txn.except_bind_ok] at h
    obtain ⟨risk, -, h⟩ := h
    rw [← Except.ok.inj h]

theorem getZeroPriceSnapshot_position {victim : ℕ} {snap : ZeroPriceSnapshot}
    (h : getZeroPriceSnapshot victim m s = .ok snap) : snap.position = getPosition s victim m := by
  rw [getZeroPriceSnapshot] at h
  by_cases hsize : (getPosition s victim m).baseSize = 0
  · rw [if_pos hsize] at h
    rw [← Except.ok.inj h]
  · rw [if_neg hsize, Txn.except_bind_ok] at h
    obtain ⟨r, -, h⟩ := h
    rw [Txn.except_bind_ok] at h
    obtain ⟨risk, -, h⟩ := h
    rw [← Except.ok.inj h]

/-! ### The preview -/

def pureApplySimulatedTakeover (pos : AccountPosition) (current : RiskParameters)
    (markPrice : ℕ) (md : MarketDetails) (delta : ℤ) (entryPrice : ℕ) : RiskParameters :=
  if delta = 0 then current
  else
    let cur := if pos.baseSize = 0 then current
      else current.plus (-pos.unrealizedPnL markPrice) (-pos.initialMargin markPrice md)
        (-pos.maintenanceMargin markPrice md) (-pos.closeOutMargin markPrice md)
    let newPos := (pos.applyFill delta entryPrice).position
    if newPos.baseSize = 0 then cur
    else cur.plus (newPos.unrealizedPnL markPrice) (newPos.initialMargin markPrice md)
      (newPos.maintenanceMargin markPrice md) (newPos.closeOutMargin markPrice md)

def simulateRiskAfterTakeover (accountIdx marketIdx : ℕ) (delta : ℤ) (entryPrice : ℕ) :
    Query RiskParameters := fun s => do
  let cur ← computeCrossRisk accountIdx s
  if delta = 0 then return cur
  else do
    let pos := getPosition s accountIdx marketIdx
    if pos.marginMode = .isolated then
      throw ⟨.invalidMarginMode, s!"simulate_takeover requires cross margin: account {accountIdx} market {marketIdx} is isolated"⟩
    else do
      let (markPrice, md) ← getMarkPriceAndDetails marketIdx s
      return pureApplySimulatedTakeover pos cur markPrice md delta entryPrice

/-! ### Requirements of an empty position -/

theorem AccountPosition.marginRequirement_of_empty (h : p.baseSize = 0)
    (mark frac : ℕ) : p.marginRequirement mark frac = 0 := by
  simp [marginRequirement, notional, h]

theorem AccountPosition.initialMargin_of_empty (h : p.baseSize = 0)
    (mark : ℕ) (md : MarketDetails) : p.initialMargin mark md = 0 := by
  simp [initialMargin, MarketDetails.initialMargin, h]

/-- The preview without its case distinctions: an empty position has no value and no
requirement. -/
theorem pureApplySimulatedTakeover_eq (pos : AccountPosition) (rp : RiskParameters) (mark : ℕ)
    (md : MarketDetails) {delta : ℤ} (hdelta : delta ≠ 0) (price : ℕ) :
    let newPos := (pos.applyFill delta price).position
    pureApplySimulatedTakeover pos rp mark md delta price = rp.plus
      (newPos.unrealizedPnL mark - pos.unrealizedPnL mark)
      (newPos.initialMargin mark md - pos.initialMargin mark md)
      (newPos.maintenanceMargin mark md - pos.maintenanceMargin mark md)
      (newPos.closeOutMargin mark md - pos.closeOutMargin mark md) := by
  intro newPos
  have hempty : ∀ p : AccountPosition, p.baseSize = 0 → p.unrealizedPnL mark = 0 ∧
      p.initialMargin mark md = 0 ∧ p.maintenanceMargin mark md = 0 ∧
      p.closeOutMargin mark md = 0 := fun p hp =>
    ⟨p.unrealizedPnL_of_empty mark hp, AccountPosition.initialMargin_of_empty hp mark md,
      AccountPosition.marginRequirement_of_empty hp mark _,
      AccountPosition.marginRequirement_of_empty hp mark _⟩
  have hremove : (if pos.baseSize = 0 then rp else rp.plus (-pos.unrealizedPnL mark)
      (-pos.initialMargin mark md) (-pos.maintenanceMargin mark md) (-pos.closeOutMargin mark md))
      = rp.plus (-pos.unrealizedPnL mark) (-pos.initialMargin mark md)
        (-pos.maintenanceMargin mark md) (-pos.closeOutMargin mark md) := by
    split
    · rename_i hold
      obtain ⟨h₁, h₂, h₃, h₄⟩ := hempty pos hold
      rw [h₁, h₂, h₃, h₄, neg_zero, RiskParameters.plus_zero]
    · rfl
  have hadd : ∀ cur : RiskParameters, (if newPos.baseSize = 0 then cur
      else cur.plus (newPos.unrealizedPnL mark) (newPos.initialMargin mark md)
        (newPos.maintenanceMargin mark md) (newPos.closeOutMargin mark md))
      = cur.plus (newPos.unrealizedPnL mark) (newPos.initialMargin mark md)
        (newPos.maintenanceMargin mark md) (newPos.closeOutMargin mark md) := by
    intro cur
    split
    · rename_i hnew
      obtain ⟨h₁, h₂, h₃, h₄⟩ := hempty newPos hnew
      rw [h₁, h₂, h₃, h₄, RiskParameters.plus_zero]
    · rfl
  rw [pureApplySimulatedTakeover, if_neg hdelta, hremove, hadd, RiskParameters.plus_plus]
  simp only [neg_add_eq_sub]

/-! ### The aggregate after a fill -/

theorem crossTerm_of_cross {g : MarketDetails → AccountPosition → ℤ} (hacc : p.accountIndex = acc)
    (hcross : p.marginMode ≠ .isolated)
    (hg : p.baseSize = 0 → g (detailsOf s p.marketIndex).static p = 0) :
    crossTerm s acc g p = g (detailsOf s p.marketIndex).static p := by
  by_cases hsize : p.baseSize = 0
  · rw [hg hsize]
    exact if_neg fun h => h.2.1 hsize
  · exact if_pos ⟨hacc, hsize, hcross⟩

/-- A sum over the cross positions of an account moves by the terms of the one that is replaced. -/
theorem crossSum_replace {g : MarketDetails → AccountPosition → ℤ} (hsame : SameMarks s t)
    (hoff : ∀ m', m' ≠ m → getPosition t acc m' = getPosition s acc m')
    (hcross : (getPosition s acc m).marginMode ≠ .isolated)
    (hcross' : (getPosition t acc m).marginMode ≠ .isolated) (hmd : detailsOf s m = md)
    (hg : ∀ D r, r.baseSize = 0 → g D r = 0) :
    crossSum t acc g = crossSum s acc g
      + (g md.static (getPosition t acc m) - g md.static (getPosition s acc m)) := by
  have hterms : ∀ m', m' ≠ m → crossTerm t acc g (getPosition t acc m')
      = crossTerm s acc g (getPosition s acc m') := by
    intro m' hm'
    rw [crossTerm_congr hsame, hoff m' hm']
  have hdiff := crossSum_sub_crossSum hterms
  rw [crossTerm_congr hsame, crossTerm_of_cross (by simp) hcross' (hg _ _),
    crossTerm_of_cross (by simp) hcross (hg _ _), getPosition_marketIndex, getPosition_marketIndex,
    hmd] at hdiff
  exact sub_eq_iff_eq_add'.mp hdiff

/-- **The aggregate of an account one of whose cross positions is replaced**, with `x` put to its
collateral: value and requirements move by those of the position. -/
theorem computeCrossRisk_replace {x : ℤ} {rp : RiskParameters} {mark : ℕ} (hsame : SameMarks s t)
    (haccount : ∀ a, s.account.accounts.get acc = some a →
      ∃ a', t.account.accounts.get acc = some a' ∧ a'.collateral = a.collateral + x)
    (hoff : ∀ m', m' ≠ m → getPosition t acc m' = getPosition s acc m')
    (hcross : (getPosition s acc m).marginMode ≠ .isolated)
    (hcross' : (getPosition t acc m).marginMode ≠ .isolated)
    (hmark : getMarkPriceAndDetails m s = .ok (mark, md)) (hrp : computeCrossRisk acc s = .ok rp) :
    let p := getPosition s acc m
    let q := getPosition t acc m
    computeCrossRisk acc t = .ok ({ rp with
        collateral := rp.collateral + x
        collateralWithFunding := rp.collateralWithFunding + x }.plus
      (x + (q.unrealizedPnL mark - p.unrealizedPnL mark))
      (q.initialMargin mark md - p.initialMargin mark md)
      (q.maintenanceMargin mark md - p.maintenanceMargin mark md)
      (q.closeOutMargin mark md - p.closeOutMargin mark md)) := by
  intro p q
  obtain ⟨hmd, hmarkEq⟩ : detailsOf s m = md ∧ mark = md.markPrice := by
    have hr := getMarkPriceAndDetails_detailsOf hmark
    simp only [Prod.mk.injEq] at hr
    exact ⟨hr.2.symm, hr.2 ▸ hr.1⟩
  have hterm : ∀ g : MarketDetails → AccountPosition → ℤ, (∀ D r, r.baseSize = 0 → g D r = 0) →
      crossSum t acc g = crossSum s acc g + (g md.static q - g md.static p) :=
    fun g hg => crossSum_replace hsame hoff hcross hcross' hmd hg
  obtain ⟨a, ha, hok, rfl⟩ := computeCrossRisk_eq_ok.mp hrp
  obtain ⟨a', ha', hcollateral⟩ := haccount a ha
  refine computeCrossRisk_eq_ok.mpr ⟨a', ha', ?_, ?_⟩
  · intro m' hopen
    by_cases hm' : m' = m
    · rw [hm']
      exact hsame.symm.exists_markPrice ⟨_, hmark⟩
    · rw [hoff m' hm'] at hopen
      exact hsame.symm.exists_markPrice (hok m' hopen)
  · have h₁ := hterm uPnLAt fun D r hr => r.unrealizedPnL_of_empty _ hr
    have h₂ := hterm initialAt fun D r hr => AccountPosition.initialMargin_of_empty hr _ D
    have h₃ := hterm maintenanceAt fun D r hr => AccountPosition.marginRequirement_of_empty hr _ _
    have h₄ := hterm closeOutAt fun D r hr => AccountPosition.marginRequirement_of_empty hr _ _
    have hvalue : a.collateral + x + crossSum t acc uPnLAt
        = a.collateral + crossSum s acc uPnLAt
          + (x + (uPnLAt md.static q - uPnLAt md.static p)) := by
      rw [h₁]
      ring
    simp only [RiskParameters.plus, crossRiskOf, hcollateral, hvalue, h₂, h₃, h₄, hmarkEq]
    rfl

namespace FillEffect

variable {f : Fill} {d : MarketDetails} {c al : ℕ → ℤ} {s t : State}

theorem sameMarks (h : FillEffect f d c al s t) : SameMarks s t := by
  have hd : s.market.marketDetails.get d.marketIndex = some d := by
    rw [Table.key_of_get h.details]
    exact h.details
  have hput := @sameMarks_putDetails d s
    (d.openInterest + oiDeltaOf (f.makerChange s d) (f.takerChange s d)) hd
  have hmarket := h.market
  refine ⟨?_, ?_, fun m => ?_⟩
  · rw [h.frame]
  · rw [hmarket]
    rfl
  · rw [hmarket]
    exact hput.details m

theorem position_of_ne (h : FillEffect f d c al s t) (hm : m ≠ f.marketIndex) (a : ℕ) :
    getPosition t a m = getPosition s a m := by
  rw [h.position, Fill.nextPosition, if_neg hm, if_neg hm, AccountPosition.allocate_zero]

theorem position_taker (h : FillEffect f d c al s t)
    (hne : f.makerAccountIndex ≠ f.takerAccountIndex) :
    getPosition t f.takerAccountIndex f.marketIndex =
      (f.takerFill s d).position.allocate (al f.takerAccountIndex) := by
  rw [h.position, Fill.nextPosition, if_pos rfl, if_pos rfl, if_neg hne.symm, if_pos rfl]

/-- **The taker's cross aggregate after a fill**, if its position is cross-margined: collateral
moves by what was routed there, value and requirements by those of the position. -/
theorem computeCrossRisk_taker (h : FillEffect f d c al s t)
    (hne : f.makerAccountIndex ≠ f.takerAccountIndex) {rp : RiskParameters} {mark : ℕ}
    (hrp : computeCrossRisk f.takerAccountIndex s = .ok rp)
    (hcross : (getPosition s f.takerAccountIndex f.marketIndex).marginMode ≠ .isolated)
    (hal : al f.takerAccountIndex = 0)
    (hmark : getMarkPriceAndDetails f.marketIndex s = .ok (mark, md)) :
    let p := getPosition s f.takerAccountIndex f.marketIndex
    let q := (f.takerFill s d).position
    let x := c f.takerAccountIndex
    computeCrossRisk f.takerAccountIndex t = .ok ({ rp with
        collateral := rp.collateral + x
        collateralWithFunding := rp.collateralWithFunding + x }.plus
      (x + (q.unrealizedPnL mark - p.unrealizedPnL mark))
      (q.initialMargin mark md - p.initialMargin mark md)
      (q.maintenanceMargin mark md - p.maintenanceMargin mark md)
      (q.closeOutMargin mark md - p.closeOutMargin mark md)) := by
  intro p q x
  have hpos : getPosition t f.takerAccountIndex f.marketIndex = q := by
    rw [h.position_taker hne, hal, AccountPosition.allocate_zero]
  have hq : q.marginMode ≠ .isolated := by
    obtain ⟨e, he⟩ := (getPosition s f.takerAccountIndex f.marketIndex).settleFunding_eq d
    show (f.takerOld s d).marginMode ≠ .isolated
    rw [Fill.takerOld, he]
    exact hcross
  have haccount : ∀ a, s.account.accounts.get f.takerAccountIndex = some a →
      ∃ a', t.account.accounts.get f.takerAccountIndex = some a' ∧
        a'.collateral = a.collateral + x := by
    intro a ha
    refine ⟨a.credit x, ?_, rfl⟩
    rw [h.account, ha]
    rfl
  have hreplace := computeCrossRisk_replace h.sameMarks haccount
    (fun m' hm' => h.position_of_ne hm' f.takerAccountIndex) hcross (hpos ▸ hq) hmark hrp
  rw [hpos] at hreplace
  exact hreplace

end FillEffect

/-! ### The preview compared with the fill -/

theorem simulateRiskAfterTakeover_eq_ok {delta : ℤ} {price : ℕ}
    {sim : RiskParameters} (hdelta : delta ≠ 0) :
    simulateRiskAfterTakeover acc m delta price s = .ok sim ↔
      ∃ cur mark md, computeCrossRisk acc s = .ok cur ∧
        (getPosition s acc m).marginMode ≠ .isolated ∧
        getMarkPriceAndDetails m s = .ok (mark, md) ∧
        pureApplySimulatedTakeover (getPosition s acc m) cur mark md delta price = sim := by
  rw [simulateRiskAfterTakeover, Txn.except_bind_ok]
  refine exists_congr fun cur => ?_
  rw [if_neg hdelta]
  by_cases hcross : (getPosition s acc m).marginMode = .isolated
  · simp [hcross, throw, throwThe, MonadExceptOf.throw]
  · dsimp only
    rw [if_neg hcross, Txn.except_bind_ok]
    constructor
    · rintro ⟨hcur, ⟨mark, md⟩, hmark, hsim⟩
      exact ⟨mark, md, hcur, hcross, hmark, Except.ok.inj hsim⟩
    · rintro ⟨mark, md, hcur, -, hmark, rfl⟩
      exact ⟨hcur, ⟨mark, md⟩, hmark, rfl⟩

/-- Two aggregates with the same value and requirements. -/
def RiskParameters.Agree (rp rp' : RiskParameters) : Prop :=
  rp.totalAccountValue = rp'.totalAccountValue ∧
    rp.initialMarginRequirement = rp'.initialMarginRequirement ∧
    rp.maintenanceMarginRequirement = rp'.maintenanceMarginRequirement ∧
    rp.closeOutMarginRequirement = rp'.closeOutMarginRequirement

instance (rp rp' : RiskParameters) : Decidable (rp.Agree rp') := by
  unfold RiskParameters.Agree
  infer_instance

theorem computeCrossRisk_of_simulated {f : Fill} {u : Unit} {sim : RiskParameters}
    (hne : f.makerAccountIndex ≠ f.takerAccountIndex) (hfee : f.noFee = true)
    (hdelta : (f.baseAmount : ℤ) * f.takerSign ≠ 0)
    (hfund : (getPosition s f.takerAccountIndex f.marketIndex).lastFundingRatePrefixSum
      = (detailsOf s f.marketIndex).fundingRatePrefixSum)
    (hsim : simulateRiskAfterTakeover f.takerAccountIndex f.marketIndex
      (f.baseAmount * f.takerSign) f.price s = .ok sim) (h : (apply f).run s = .ok u t) :
    ∃ rp, computeCrossRisk f.takerAccountIndex t = .ok rp ∧
      rp.Agree (sim.plus ((getPosition s f.takerAccountIndex f.marketIndex).applyFill
        (f.baseAmount * f.takerSign) f.price).realizedPnL 0 0 0) := by
  obtain ⟨cur, mark, md, hcur, hcross, hmark, rfl⟩ :=
    (simulateRiskAfterTakeover_eq_ok hdelta).mp hsim
  obtain ⟨d, ct, alt, cm, alm, heffect, hct, -, halt, -⟩ := apply_ok hne h
  have hd : detailsOf s f.marketIndex = d := by
    rw [detailsOf, heffect.details]
    rfl
  have hold : f.takerOld s d = getPosition s f.takerAccountIndex f.marketIndex := by
    rw [Fill.takerOld, AccountPosition.settleFunding_eq_self_iff, hfund, hd]
  have halt0 : alt = 0 := by
    by_contra hne0
    exact hcross (hold ▸ halt hne0)
  have hc : (Pi.single f.takerAccountIndex ct + Pi.single f.makerAccountIndex cm
      + f.feeCredits : ℕ → ℤ) f.takerAccountIndex = (f.takerFill s d).realizedPnL := by
    have hfee0 : f.takerFeeAmount = 0 := by simp [Fill.takerFeeAmount, hfee]
    simp only [Pi.add_apply, Pi.single_eq_same, Pi.single_eq_of_ne hne.symm,
      feeCredits_of_noFee hfee, Pi.zero_apply]
    omega
  have hal : (Pi.single f.takerAccountIndex alt + Pi.single f.makerAccountIndex alm : ℕ → ℤ)
      f.takerAccountIndex = 0 := by
    simp only [Pi.add_apply, Pi.single_eq_same, Pi.single_eq_of_ne hne.symm, halt0, add_zero]
  have hrisk := heffect.computeCrossRisk_taker hne hcur hcross hal hmark
  have hfill : f.takerFill s d = (getPosition s f.takerAccountIndex f.marketIndex).applyFill
      (f.baseAmount * f.takerSign) f.price := by
    rw [Fill.takerFill, hold]
  rw [hc, hfill] at hrisk
  refine ⟨_, hrisk, ?_⟩
  rw [pureApplySimulatedTakeover_eq _ _ _ _ hdelta]
  simp only [RiskParameters.Agree, RiskParameters.plus, add_zero, and_true]
  ring

end PerpDex
