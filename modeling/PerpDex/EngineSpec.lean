/-
What a fill does to the state, stated once for every caller of the engine.

* `FillEffect`, `apply_ok` — everything a successful fill changes;
* `Traded`, `apply_keeps` — what no fill changes, successful or not.

Positions and collateral are described as the keepers' reads see them, so a row that is created with the
value a missing row stands for is no change.
-/
import Mathlib.Algebra.Group.Pi.Lemmas
import PerpDex.Engine

namespace PerpDex

variable {s t : State} {f : Fill}
variable {mr res tr : PositionChangeResult} {u : Unit} {d : MarketDetails}

/-! ### One side's position write -/

def positionChangeOf (accountIdx marketIdx : ℕ) (old : AccountPosition) (fill : FillResult) :
    PositionChangeResult where
  accountIdx := accountIdx
  marketIdx := marketIdx
  old := old
  new := fill.position
  oiDelta := |fill.position.baseSize| - |old.baseSize|
  sideFlipped := fill.sideFlipped
  realizedPnL := fill.realizedPnL

/-- The position that results from a fill can be stored. -/
def FillResult.InBounds (r : FillResult) : Prop :=
  isWithinPositionBounds r.position.baseSize r.position.entryQuote = true

instance (r : FillResult) : Decidable r.InBounds := by
  unfold FillResult.InBounds
  infer_instance

theorem FillResult.InBounds.baseSize_le {r : FillResult} (h : r.InBounds) :
    |r.position.baseSize| ≤ maxPositionSize := by
  by_contra hgt
  rw [InBounds, isWithinPositionBounds, if_pos (not_le.mp hgt)] at h
  simp at h

theorem boundedFill_eq (delta : ℤ) (price : ℕ) (p : AccountPosition) :
    boundedFill delta price p =
      if (p.applyFill delta price).InBounds then .ok (p.applyFill delta price).position
      else .error ⟨.positionOutOfBounds, "trade: post-trade position out of bounds"⟩ := rfl

theorem applyPositionChange_run (acc m price base : ℕ) (sign : ℤ) (s : State) :
    (applyPositionChange acc m price base sign).run s =
      let old := getPosition s acc m
      let fill := old.applyFill (base * sign) price
      let res := positionChangeOf acc m old fill
      if fill.InBounds then
        if minInt64 ≤ res.oiDelta ∧ res.oiDelta ≤ maxInt64 then
          .ok res (s.putPosition fill.position)
        else .error ⟨.goPanic, "Int64() out of bound"⟩ (s.putPosition fill.position)
      else .error ⟨.positionOutOfBounds, "trade: post-trade position out of bounds"⟩ s := by
  rw [applyPositionChange, Txn.run_bind_read]
  show ((updatePosition acc m _ >>= _)).run s = _
  rw [EStateM.run_bind, updatePosition_run, boundedFill_eq]
  dsimp only
  generalize (getPosition s acc m).applyFill (base * sign) price = fill
  generalize getPosition s acc m = old
  by_cases hin : fill.InBounds
  · simp only [hin, if_true, EStateM.run_bind, Txn.run_require]
    by_cases hrange : minInt64 ≤ (positionChangeOf acc m old fill).oiDelta ∧
        (positionChangeOf acc m old fill).oiDelta ≤ maxInt64
    · have hrange' : minInt64 ≤ |fill.position.baseSize| - |old.baseSize| ∧
        |fill.position.baseSize| - |old.baseSize| ≤ maxInt64 := hrange
      rw [if_pos hrange, if_pos hrange']
      rfl
    · have hrange' : ¬ (minInt64 ≤ |fill.position.baseSize| - |old.baseSize| ∧
        |fill.position.baseSize| - |old.baseSize| ≤ maxInt64) := hrange
      rw [if_neg hrange, if_neg hrange']
  · simp only [hin, if_false]

theorem applyPositionChange_ok {acc m price base : ℕ} {sign : ℤ}
    (h : (applyPositionChange acc m price base sign).run s = .ok res t) :
    let fill := (getPosition s acc m).applyFill (base * sign) price
    fill.InBounds ∧ res = positionChangeOf acc m (getPosition s acc m) fill ∧
      (minInt64 ≤ res.oiDelta ∧ res.oiDelta ≤ maxInt64) ∧ t = s.putPosition fill.position := by
  rw [applyPositionChange_run] at h
  intro fill
  dsimp only at h
  split at h
  · rename_i hin
    split at h
    · rename_i hrange
      cases h
      exact ⟨hin, rfl, hrange, rfl⟩
    · simp at h
  · simp at h

/-! ### Where PnL and fees go -/

namespace MarginMove

variable {m acc : ℕ} {u : Unit}

theorem of_crossAddCollateral {delta : ℤ} (m : ℕ)
    (h : (crossAddCollateral acc delta).run s = .ok u t) :
    MarginMove m (Pi.single acc delta) 0 s t := by
  rw [crossAddCollateral, Txn.run_when] at h
  split at h
  · exact (of_addCollateral m h).1
  · rename_i hzero
    push Not at hzero
    cases h
    rw [hzero, Pi.single_zero]
    exact refl m s

theorem of_isolatedAdd {delta : ℤ} {res' : PositionChangeResult}
    (h : (isolatedAddAllocatedMargin res delta).run s = .ok res' t) :
    MarginMove res.marketIdx 0 (Pi.single res.accountIdx delta) s t ∧
      ∃ p, res' = { res with new := p } ∧
        (getPosition s res.accountIdx res.marketIdx = res.new → p = res.new.allocate delta) := by
  rw [isolatedAddAllocatedMargin] at h
  split at h
  · rename_i hzero
    cases h
    rw [hzero, Pi.single_zero]
    exact ⟨refl _ s, _, rfl, fun _ => (AccountPosition.allocate_zero _).symm⟩
  · rw [Txn.run_bind_ok] at h
    obtain ⟨p, s₁, hrun, hret⟩ := h
    cases hret
    refine ⟨of_updatePosition hrun, p, rfl, fun hstands => ?_⟩
    rw [updatePosition_run, hstands] at hrun
    exact (EStateM.Result.ok.inj hrun).1.symm

theorem of_rebalance {fee : ℤ} {isMaker : Bool}
    (h : (rebalanceIsolatedMargin res fee isMaker f).run s = .ok u t) :
    ∃ x, calculateIsolatedMarginDelta res fee s = .ok x ∧
      MarginMove res.marketIdx (Pi.single res.accountIdx (-x)) (Pi.single res.accountIdx x) s t := by
  rw [rebalanceIsolatedMargin, Txn.run_bind_ok] at h
  obtain ⟨x, s₁, hread, h⟩ := h
  obtain ⟨hx, rfl⟩ := Txn.run_read_ok.mp hread
  rw [Txn.run_when] at h
  split at h
  · simp only [Txn.run_bind_ok] at h
    obtain ⟨v, s₂, hcheck, p, s₃, hpos, hcol⟩ := h
    have hkeep : s₂ = s₁ := by
      rw [Txn.run_when] at hcheck
      split at hcheck
      · simp only [requireAvailableUsdc, Txn.run_bind_ok, Txn.run_read_ok,
          Txn.run_require_ok] at hcheck
        obtain ⟨avail, s₄, ⟨-, rfl⟩, -, rfl⟩ := hcheck
        rfl
      · exact (EStateM.Result.ok.inj hcheck).2.symm
    subst hkeep
    have hmove := (of_updatePosition hpos).trans (of_addCollateral res.marketIdx hcol).1
    rw [zero_add, add_zero] at hmove
    exact ⟨x, hx, hmove⟩
  · rename_i hzero
    push Not at hzero
    obtain ⟨-, rfl⟩ := EStateM.Result.ok.inj h
    refine ⟨x, hx, ?_⟩
    rw [hzero, neg_zero, Pi.single_zero]
    exact refl _ s₁

end MarginMove

/-- A side pays its fees out of its realized PnL; margin of the position moves only if the position was
isolated. -/
theorem applyAccount_ok {fee liqFee : ℤ} {isMaker : Bool}
    (h : (applyAccount res fee isMaker liqFee f).run s = .ok u t) :
    ∃ c al, MarginMove res.marketIdx (Pi.single res.accountIdx c) (Pi.single res.accountIdx al) s t ∧
      c + al = res.realizedPnL - fee - liqFeeOf isMaker liqFee ∧
      (al ≠ 0 → res.old.marginMode = .isolated) := by
  rw [applyAccount] at h
  split at h
  · rename_i hmode
    simp only [applyIsolatedAccount, isolatedDebit, Txn.run_bind_ok] at h
    obtain ⟨res₁, s₁, hpnl, res₂, s₂, hfee, hbal⟩ := h
    obtain ⟨hmove₁, p₁, rfl, -⟩ := MarginMove.of_isolatedAdd hpnl
    obtain ⟨hmove₂, p₂, rfl, -⟩ := MarginMove.of_isolatedAdd hfee
    obtain ⟨x, -, hmove₃⟩ := MarginMove.of_rebalance hbal
    refine ⟨-x, res.realizedPnL - fee + -liqFeeOf isMaker liqFee + x, ?_, by ring, fun _ => hmode⟩
    have hmove := (hmove₁.trans hmove₂).trans hmove₃
    simp only [zero_add, ← Pi.single_add] at hmove
    exact hmove
  · simp only [applyCrossAccount, crossDebit, Txn.run_bind_ok] at h
    obtain ⟨v, s₁, hpnl, hfee⟩ := h
    have hmove := (MarginMove.of_crossAddCollateral res.marketIdx hpnl).trans
      (MarginMove.of_crossAddCollateral res.marketIdx hfee)
    refine ⟨res.realizedPnL - fee + -liqFeeOf isMaker liqFee, 0, ?_, by ring, fun h => absurd rfl h⟩
    simpa only [← Pi.single_add, Pi.single_zero, add_zero] using hmove

/-- Collateral that fees add to the treasury and to the fee recipient. -/
def Fill.feeCredits (f : Fill) : ℕ → ℤ :=
  Pi.single treasuryAccountIndex (f.takerFeeAmount + f.makerFeeAmount)
    + Pi.single f.recipient (liqFeeOf true f.liqFee)

theorem liqFeeOf_maker (x : ℤ) : liqFeeOf true x = if 0 < x then x else 0 := by
  simp [liqFeeOf]

theorem feeCredits_of_noFee (h : f.noFee = true) : f.feeCredits = 0 := by
  simp [Fill.feeCredits, Fill.takerFeeAmount, Fill.makerFeeAmount, Fill.liqFee, h, liqFeeOf]

theorem creditFees_ok (h : (creditFees f).run s = .ok u t) (m : ℕ) :
    MarginMove m f.feeCredits 0 s t := by
  rw [creditFees, Txn.run_when] at h
  split at h
  · rename_i hfee
    rw [Txn.run_bind_ok] at h
    obtain ⟨v, s₁, htreasury, hliq⟩ := h
    have hmove₁ := MarginMove.of_crossAddCollateral m htreasury
    have hmove₂ : MarginMove m (Pi.single f.recipient (liqFeeOf true f.liqFee)) 0 s₁ t := by
      rw [Txn.run_when] at hliq
      rw [liqFeeOf_maker]
      split at hliq
      · rename_i hpos
        rw [if_pos hpos]
        exact (MarginMove.of_addCollateral m hliq).1
      · rename_i hpos
        obtain ⟨-, rfl⟩ := EStateM.Result.ok.inj hliq
        rw [if_neg hpos, Pi.single_zero]
        exact MarginMove.refl m s₁
    have hmove := hmove₁.trans hmove₂
    rw [add_zero] at hmove
    exact hmove
  · rename_i hfee
    have hno : f.noFee = true := by simpa using hfee
    cases h
    rw [feeCredits_of_noFee hno]
    exact MarginMove.refl m s

/-! ### The whole fill -/

namespace Fill

variable (f : Fill) (s : State) (d : MarketDetails)

def makerOld : AccountPosition :=
  (getPosition s f.makerAccountIndex f.marketIndex).settleFunding d

def takerOld : AccountPosition :=
  (getPosition s f.takerAccountIndex f.marketIndex).settleFunding d

def makerFill : FillResult := (f.makerOld s d).applyFill (f.baseAmount * f.makerSign) f.price

def takerFill : FillResult := (f.takerOld s d).applyFill (f.baseAmount * f.takerSign) f.price

def settledState : State := (s.putPosition (f.makerOld s d)).putPosition (f.takerOld s d)

def filledState : State :=
  ((f.settledState s d).putPosition (f.makerFill s d).position).putPosition
    (f.takerFill s d).position

def makerChange : PositionChangeResult :=
  positionChangeOf f.makerAccountIndex f.marketIndex (f.makerOld s d) (f.makerFill s d)

def takerChange : PositionChangeResult :=
  positionChangeOf f.takerAccountIndex f.marketIndex (f.takerOld s d) (f.takerFill s d)

def nextPosition (a m : ℕ) : AccountPosition :=
  if m = f.marketIndex then
    if a = f.makerAccountIndex then (f.makerFill s d).position
    else if a = f.takerAccountIndex then (f.takerFill s d).position
    else getPosition s a m
  else getPosition s a m

theorem makerFill_baseSize : (f.makerFill s d).position.baseSize =
    (getPosition s f.makerAccountIndex f.marketIndex).baseSize + f.baseAmount * f.makerSign := by
  simp [makerFill, makerOld]

theorem takerFill_baseSize : (f.takerFill s d).position.baseSize =
    (getPosition s f.takerAccountIndex f.marketIndex).baseSize - f.baseAmount * f.makerSign := by
  simp [takerFill, takerOld, takerSign, sub_eq_add_neg]

theorem makerChange_oiDelta : (f.makerChange s d).oiDelta =
    |(f.makerFill s d).position.baseSize|
      - |(getPosition s f.makerAccountIndex f.marketIndex).baseSize| := by
  simp [makerChange, positionChangeOf, makerOld]

theorem takerChange_oiDelta : (f.takerChange s d).oiDelta =
    |(f.takerFill s d).position.baseSize|
      - |(getPosition s f.takerAccountIndex f.marketIndex).baseSize| := by
  simp [takerChange, positionChangeOf, takerOld]

variable {f s d}

theorem getPosition_settledState (a m : ℕ) :
    getPosition (f.settledState s d) a m =
      if m = f.marketIndex then
        if a = f.makerAccountIndex then f.makerOld s d
        else if a = f.takerAccountIndex then f.takerOld s d
        else getPosition s a m
      else getPosition s a m := by
  simp only [settledState, getPosition_putPosition, makerOld, takerOld,
    AccountPosition.settleFunding_accountIndex, AccountPosition.settleFunding_marketIndex,
    getPosition_accountIndex, getPosition_marketIndex]
  by_cases hm : m = f.marketIndex
  · by_cases ha : a = f.makerAccountIndex
    · -- a fill of an account with itself settles the same position twice
      by_cases hself : f.makerAccountIndex = f.takerAccountIndex
      · simp [hm, ha, hself]
      · simp [hm, ha, hself]
    · simp [hm, ha]
  · simp [hm]

theorem getPosition_filledState (hne : f.makerAccountIndex ≠ f.takerAccountIndex) (a m : ℕ) :
    getPosition (f.filledState s d) a m = f.nextPosition s d a m := by
  simp only [filledState, getPosition_putPosition, getPosition_settledState, makerFill,
    takerFill, nextPosition, AccountPosition.applyFill_accountIndex,
    AccountPosition.applyFill_marketIndex, makerOld, takerOld,
    AccountPosition.settleFunding_accountIndex, AccountPosition.settleFunding_marketIndex,
    getPosition_accountIndex, getPosition_marketIndex]
  by_cases hm : m = f.marketIndex
  · by_cases ha : a = f.makerAccountIndex
    · subst ha
      simp [hm, hne]
    · by_cases ha' : a = f.takerAccountIndex
      · simp [hm, ha', hne.symm]
      · simp [hm, ha', ha]
  · simp [hm]

end Fill

theorem settleSides_run (f : Fill) (s : State) :
    (settleSides f).run s =
      match s.market.marketDetails.get f.marketIndex with
      | some d => .ok () (f.settledState s d)
      | none => .error ⟨.marketNotFound, s!"market_details_index={f.marketIndex}"⟩ s := by
  rw [settleSides, EStateM.run_bind, settlePositionFunding_run]
  rcases hd : s.market.marketDetails.get f.marketIndex with _ | d
  · rfl
  · dsimp only
    rw [settlePositionFunding_run]
    have hd' : (s.putPosition (f.makerOld s d)).market.marketDetails.get f.marketIndex = some d := hd
    have htaker : (getPosition (s.putPosition (f.makerOld s d)) f.takerAccountIndex
        f.marketIndex).settleFunding d = f.takerOld s d := by
      rw [getPosition_putPosition]
      by_cases hself : f.takerAccountIndex = f.makerAccountIndex
      · rw [if_pos (by simp [Fill.makerOld, hself]), Fill.makerOld,
          AccountPosition.settleFunding_settleFunding, Fill.takerOld, hself]
      · rw [if_neg (by simp [Fill.makerOld, hself])]
        rfl
    show (match (s.putPosition (f.makerOld s d)).market.marketDetails.get f.marketIndex with
      | some d' => _
      | none => _) = _
    rw [hd']
    show EStateM.Result.ok () ((s.putPosition (f.makerOld s d)).putPosition
      ((getPosition (s.putPosition (f.makerOld s d)) f.takerAccountIndex f.marketIndex).settleFunding
        d)) = _
    rw [htaker]
    rfl

theorem makerPositionChange_ok (h : (makerPositionChange f).run (f.settledState s d) = .ok res t) :
    (f.makerFill s d).InBounds ∧ res = f.makerChange s d ∧
      (minInt64 ≤ res.oiDelta ∧ res.oiDelta ≤ maxInt64) ∧
      t = (f.settledState s d).putPosition (f.makerFill s d).position := by
  have h := applyPositionChange_ok (Txn.run_mapError_ok.mp h)
  rw [Fill.getPosition_settledState, if_pos rfl, if_pos rfl] at h
  exact h

theorem takerPositionChange_ok (hne : f.makerAccountIndex ≠ f.takerAccountIndex)
    (h : (takerPositionChange f).run
      ((f.settledState s d).putPosition (f.makerFill s d).position) = .ok res t) :
    (f.takerFill s d).InBounds ∧ res = f.takerChange s d ∧
      (minInt64 ≤ res.oiDelta ∧ res.oiDelta ≤ maxInt64) ∧ t = f.filledState s d := by
  have h := applyPositionChange_ok (Txn.run_mapError_ok.mp h)
  have hpos : getPosition ((f.settledState s d).putPosition (f.makerFill s d).position)
      f.takerAccountIndex f.marketIndex = f.takerOld s d := by
    rw [getPosition_putPosition, if_neg, Fill.getPosition_settledState, if_pos rfl,
      if_neg hne.symm, if_pos rfl]
    simp [Fill.makerFill, Fill.makerOld, hne.symm]
  rw [hpos] at h
  exact h

/-- What a fill changes: the two positions, collateral by `c`, allocated margin in the market by `al`,
and the open interest. -/
structure FillEffect (f : Fill) (d : MarketDetails) (c al : ℕ → ℤ) (s t : State) : Prop where
  details : s.market.marketDetails.get f.marketIndex = some d
  makerInBounds : (f.makerFill s d).InBounds
  takerInBounds : (f.takerFill s d).InBounds
  makerRange : minInt64 ≤ (f.makerChange s d).oiDelta
  takerRange : minInt64 ≤ (f.takerChange s d).oiDelta
  position : ∀ a m, getPosition t a m =
    (f.nextPosition s d a m).allocate (if m = f.marketIndex then al a else 0)
  account : ∀ a, t.account.accounts.get a = (s.account.accounts.get a).map (·.credit (c a))
  exist : ∀ a, c a ≠ 0 → (s.account.accounts.get a).isSome
  openInterest : FitsOpenInterest d (oiDeltaOf (f.makerChange s d) (f.takerChange s d))
  market : t.market = (s.putDetails { d with
    openInterest := d.openInterest + oiDeltaOf (f.makerChange s d) (f.takerChange s d) }).market
  frame : t = { s with
    account := { s.account with
      accounts := t.account.accounts, accountPositions := t.account.accountPositions }
    market := t.market }

theorem snapshotSide_ok {skip : Bool} {acc : ℕ} {pre : PreRiskSnapshot}
    (h : (snapshotSide skip acc).run s = .ok pre t) : t = s := by
  rw [snapshotSide] at h
  split at h
  · exact (EStateM.Result.ok.inj h).2.symm
  · exact (Txn.run_read_ok.mp h).2

theorem checkSideRisk_ok {idx : ℕ} {pre : PreRiskSnapshot}
    (h : (checkSideRisk f idx pre).run s = .ok u t) : t = s := by
  rw [checkSideRisk] at h
  split at h
  · exact (EStateM.Result.ok.inj h).2.symm
  · split at h
    · exact (EStateM.Result.ok.inj h).2.symm
    · simp only [Txn.run_bind_ok, Txn.run_read_ok, Txn.run_require_ok] at h
      obtain ⟨ok, s₁, ⟨-, rfl⟩, -, rfl⟩ := h
      rfl

theorem routeMargin_ok (hmr : mr.marketIdx = f.marketIndex) (htr : tr.marketIdx = f.marketIndex)
    (h : (routeMargin f mr tr).run s = .ok u t) :
    ∃ ct alt cm alm, MarginMove f.marketIndex
        (Pi.single tr.accountIdx ct + Pi.single mr.accountIdx cm + f.feeCredits)
        (Pi.single tr.accountIdx alt + Pi.single mr.accountIdx alm) s t ∧
      ct + alt = tr.realizedPnL - f.takerFeeAmount ∧
      cm + alm = mr.realizedPnL - f.makerFeeAmount - liqFeeOf true f.liqFee ∧
      (alt ≠ 0 → tr.old.marginMode = .isolated) ∧ (alm ≠ 0 → mr.old.marginMode = .isolated) := by
  simp only [routeMargin, Txn.run_bind_ok] at h
  obtain ⟨_, s₁, htaker, _, s₂, hmaker, hfees⟩ := h
  obtain ⟨ct, alt, hmove₁, hct, halt⟩ := applyAccount_ok htaker
  obtain ⟨cm, alm, hmove₂, hcm, halm⟩ := applyAccount_ok hmaker
  have hmove₃ := creditFees_ok hfees f.marketIndex
  rw [htr] at hmove₁
  rw [hmr] at hmove₂
  have hmove := (hmove₁.trans hmove₂).trans hmove₃
  rw [add_zero] at hmove
  refine ⟨ct, alt, cm, alm, hmove, ?_, hcm, halt, halm⟩
  rw [hct]
  simp [liqFeeOf]

theorem finishFill_ok {makerPre takerPre : PreRiskSnapshot} (hmr : mr.marketIdx = f.marketIndex)
    (htr : tr.marketIdx = f.marketIndex)
    (h : (finishFill f makerPre takerPre mr tr).run s = .ok u t) :
    ∃ ct alt cm alm s', MarginMove f.marketIndex
        (Pi.single tr.accountIdx ct + Pi.single mr.accountIdx cm + f.feeCredits)
        (Pi.single tr.accountIdx alt + Pi.single mr.accountIdx alm) s s' ∧
      ct + alt = tr.realizedPnL - f.takerFeeAmount ∧
      cm + alm = mr.realizedPnL - f.makerFeeAmount - liqFeeOf true f.liqFee ∧
      (alt ≠ 0 → tr.old.marginMode = .isolated) ∧ (alm ≠ 0 → mr.old.marginMode = .isolated) ∧
      ∃ d, s'.market.marketDetails.get f.marketIndex = some d ∧
        FitsOpenInterest d (oiDeltaOf mr tr) ∧
        t = s'.putDetails { d with openInterest := d.openInterest + oiDeltaOf mr tr } := by
  simp only [finishFill, Txn.run_bind_ok] at h
  obtain ⟨v, s', hroute, w, s₃, hoi, hrisk⟩ := h
  obtain ⟨ct, alt, cm, alm, hmove, hct, hcm, halt, halm⟩ := routeMargin_ok hmr htr hroute
  obtain ⟨d, hd, hfits, hs₃⟩ := updateOpenInterest_ok hoi
  have hcheck : t = s₃ := by
    rw [Txn.run_when] at hrisk
    split at hrisk
    · simp only [Txn.run_bind_ok] at hrisk
      obtain ⟨_, s₄, htr', hmr'⟩ := hrisk
      rw [checkSideRisk_ok hmr', checkSideRisk_ok htr']
    · exact (EStateM.Result.ok.inj hrisk).2.symm
  exact ⟨ct, alt, cm, alm, s', hmove, hct, hcm, halt, halm, d, hd, hfits, hcheck.trans hs₃⟩

/-- **What a successful fill does.**  Each side's realized PnL less its fees goes into its
collateral or, if the position was isolated, is split between collateral and allocated
margin. -/
theorem apply_ok (hne : f.makerAccountIndex ≠ f.takerAccountIndex) (h : (apply f).run s = .ok u t) :
    ∃ d ct alt cm alm, FillEffect f d
        (Pi.single f.takerAccountIndex ct + Pi.single f.makerAccountIndex cm + f.feeCredits)
        (Pi.single f.takerAccountIndex alt + Pi.single f.makerAccountIndex alm) s t ∧
      ct + alt = (f.takerFill s d).realizedPnL - f.takerFeeAmount ∧
      cm + alm = (f.makerFill s d).realizedPnL - f.makerFeeAmount - liqFeeOf true f.liqFee ∧
      (alt ≠ 0 → (f.takerOld s d).marginMode = .isolated) ∧
      (alm ≠ 0 → (f.makerOld s d).marginMode = .isolated) := by
  simp only [apply, prepareFill, Txn.run_bind_ok] at h
  obtain ⟨pre, s₁, ⟨_, sa, hsettle, mpre, sb, hmpre, tpre, sc, htpre, hret⟩, mr, s₂, hmaker,
    tr, s₃, htaker, hfinish⟩ := h
  rw [settleSides_run] at hsettle
  rcases hd : s.market.marketDetails.get f.marketIndex with _ | d
  · rw [hd] at hsettle
    simp at hsettle
  rw [hd] at hsettle
  have hs₁ : s₁ = f.settledState s d := by
    have h₁ := (EStateM.Result.ok.inj hsettle).2
    have h₂ := snapshotSide_ok hmpre
    have h₃ := snapshotSide_ok htpre
    have h₄ := (EStateM.Result.ok.inj hret).2
    rw [← h₄, h₃, h₂, h₁]
  subst hs₁
  obtain ⟨hmb, rfl, hmrange, rfl⟩ := makerPositionChange_ok hmaker
  obtain ⟨htb, rfl, htrange, rfl⟩ := takerPositionChange_ok hne htaker
  obtain ⟨ct, alt, cm, alm, s₄, hmove, hct, hcm, halt, halm, d', hd', hfits, rfl⟩ :=
    finishFill_ok rfl rfl hfinish
  have hmarket : s₄.market = s.market := by
    rw [hmove.frame]
    rfl
  obtain rfl : d' = d := by
    rw [hmarket, hd] at hd'
    exact (Option.some.inj hd').symm
  refine ⟨d', ct, alt, cm, alm, ?_, hct, hcm, halt, halm⟩
  exact {
    details := hd
    makerInBounds := hmb
    takerInBounds := htb
    makerRange := hmrange.1
    takerRange := htrange.1
    position := fun a m => by
      rw [← Fill.getPosition_filledState hne]
      exact hmove.position a m
    account := hmove.account
    exist := hmove.exist
    openInterest := hfits
    market := by
      show (s₄.putDetails _).market = _
      simp only [State.putDetails, hmarket]
    frame := by
      rw [hmove.frame]
      rfl }

/-! ### What no fill changes -/

/-- Nothing but collateral, positions and open interest differs. -/
structure Traded (s t : State) : Prop where
  details : ∀ m, (t.market.marketDetails.get m).map ({ · with openInterest := 0 })
    = (s.market.marketDetails.get m).map ({ · with openInterest := 0 })
  frame : t = { s with
    account := { s.account with
      accounts := t.account.accounts, accountPositions := t.account.accountPositions }
    market := { s.market with marketDetails := t.market.marketDetails } }

instance : IsPreorder State Traded where
  refl s := ⟨fun _ => rfl, rfl⟩
  trans s t u h h' := by
    refine ⟨fun m => (h'.details m).trans (h.details m), ?_⟩
    rw [h'.frame, h.frame]

namespace Traded

theorem of_putAccount (s : State) (r : Account) : Traded s (s.putAccount r) := ⟨fun _ => rfl, rfl⟩

theorem of_putPosition (s : State) (p : AccountPosition) : Traded s (s.putPosition p) :=
  ⟨fun _ => rfl, rfl⟩

theorem of_putDetails {oi : ℤ} (hd : s.market.marketDetails.get d.marketIndex = some d) :
    Traded s (s.putDetails { d with openInterest := oi }) where
  details m := by
    simp only [State.putDetails, Table.get_put]
    split
    · rename_i hm
      rw [hm, hd]
      rfl
    · rfl
  frame := rfl

theorem of_settled (h : Settled s t) : Traded s t := by
  refine ⟨fun m => ?_, ?_⟩
  · rw [h.market]
  · rw [h.frame]

end Traded

/-- Nothing but collateral, margins, entry quotes and open interest differs. -/
structure Routed (s t : State) : Prop extends Traded s t where
  baseSize : ∀ a m, (getPosition t a m).baseSize = (getPosition s a m).baseSize

instance : IsPreorder State Routed where
  refl s := ⟨refl_of Traded s, fun _ _ => rfl⟩
  trans _ _ _ h h' :=
    ⟨trans_of Traded h.toTraded h'.toTraded, fun a m => (h'.baseSize a m).trans (h.baseSize a m)⟩

theorem addCollateral_keeps (a : ℕ) (delta : ℤ) : Txn.Keeps Routed (addCollateral a delta) := by
  intro s
  rw [Txn.after, addCollateral_run]
  cases s.account.accounts.get a with
  | none => exact refl_of Routed s
  | some r => exact ⟨Traded.of_putAccount s _, fun _ _ => rfl⟩

theorem updatePosition_allocate_keeps (a m : ℕ) (delta : ℤ) :
    Txn.Keeps Routed (updatePosition a m fun p => .ok (p.allocate delta)) := by
  intro s
  rw [Txn.after, updatePosition_run]
  refine ⟨Traded.of_putPosition s _, fun b m' => ?_⟩
  rw [getPosition_putPosition]
  split
  · rename_i hb
    obtain ⟨rfl, rfl⟩ : b = a ∧ m' = m := by simpa using hb
    rfl
  · rfl

theorem updateOpenInterest_keeps (m : ℕ) (delta : ℤ) :
    Txn.Keeps Routed (updateOpenInterest m delta) := by
  intro s
  rcases hrun : (updateOpenInterest m delta).run s with ⟨u, t⟩ | ⟨e, t⟩
  · rw [Txn.after_of_ok hrun]
    obtain ⟨d, hd, -, rfl⟩ := updateOpenInterest_ok hrun
    have hm := Table.key_of_get hd
    exact ⟨Traded.of_putDetails (hm.symm ▸ hd), fun _ _ => rfl⟩
  · rw [Txn.after_of_error hrun, updateOpenInterest_error hrun]
    exact refl_of Routed s

/-! A relation that the three writes of the second half of a fill keep is kept by the whole half. -/

section FinishRule

variable {R : State → State → Prop} [IsPreorder State R]

theorem isolatedAddAllocatedMargin_rule {a m : ℕ}
    (hmargin : ∀ δ, Txn.Keeps R (updatePosition a m fun p => .ok (p.allocate δ)))
    {k : PositionChangeResult → Tx Unit}
    (hk : ∀ res, res.accountIdx = a → res.marketIdx = m → Txn.Keeps R (k res))
    (ha : res.accountIdx = a) (hm : res.marketIdx = m) (delta : ℤ) :
    Txn.Keeps R (isolatedAddAllocatedMargin res delta >>= k) := by
  unfold isolatedAddAllocatedMargin
  split
  · rw [pure_bind]
    exact hk res ha hm
  · rw [bind_assoc, ha, hm]
    refine (hmargin delta).bind fun p => ?_
    rw [pure_bind]
    exact hk _ rfl rfl

theorem rebalanceIsolatedMargin_rule (hcollateral : ∀ a δ, Txn.Keeps R (addCollateral a δ))
    (hmargin : ∀ δ, Txn.Keeps R
      (updatePosition res.accountIdx res.marketIdx fun p => .ok (p.allocate δ)))
    (fee : ℤ) (isMaker : Bool) (f : Fill) :
    Txn.Keeps R (rebalanceIsolatedMargin res fee isMaker f) := by
  refine Txn.Keeps.read.bind fun delta => Txn.Keeps.when fun _ => ?_
  refine Txn.Keeps.bind (Txn.Keeps.when fun _ => ?_) fun _ => ?_
  · exact Txn.Keeps.read.bind fun avail => Txn.Keeps.require
  · exact (hmargin _).bind fun _ => hcollateral _ _

theorem applyAccount_rule (hcollateral : ∀ a δ, Txn.Keeps R (addCollateral a δ))
    (hmargin : res.old.marginMode = .isolated → ∀ δ, Txn.Keeps R
      (updatePosition res.accountIdx res.marketIdx fun p => .ok (p.allocate δ)))
    (fee : ℤ) (isMaker : Bool) (liqFee : ℤ) (f : Fill) :
    Txn.Keeps R (applyAccount res fee isMaker liqFee f) := by
  unfold applyAccount
  split
  · rename_i hmode
    refine isolatedAddAllocatedMargin_rule (hmargin hmode) (fun res₁ ha hm => ?_) rfl rfl _
    refine isolatedAddAllocatedMargin_rule (hmargin hmode) (fun res₂ ha hm => ?_) ha hm _
    refine rebalanceIsolatedMargin_rule hcollateral ?_ fee isMaker f
    rw [ha, hm]
    exact hmargin hmode
  · exact (Txn.Keeps.when fun _ => hcollateral _ _).bind fun _ =>
      Txn.Keeps.when fun _ => hcollateral _ _

theorem creditFees_rule (hcollateral : ∀ a δ, Txn.Keeps R (addCollateral a δ)) (f : Fill) :
    Txn.Keeps R (creditFees f) := by
  refine Txn.Keeps.when fun _ => ?_
  exact (Txn.Keeps.when fun _ => hcollateral _ _).bind fun _ =>
    Txn.Keeps.when fun _ => hcollateral _ _

theorem checkSideRisk_rule (f : Fill) (idx : ℕ) (pre : PreRiskSnapshot) :
    Txn.Keeps R (checkSideRisk f idx pre) := by
  unfold checkSideRisk
  split
  · exact Txn.Keeps.pure
  · split
    · exact Txn.Keeps.pure
    · exact Txn.Keeps.read.bind fun _ => Txn.Keeps.require

theorem finishFill_rule (hcollateral : ∀ a δ, Txn.Keeps R (addCollateral a δ))
    (hmaker : mr.old.marginMode = .isolated → ∀ δ, Txn.Keeps R
      (updatePosition mr.accountIdx mr.marketIdx fun p => .ok (p.allocate δ)))
    (htaker : tr.old.marginMode = .isolated → ∀ δ, Txn.Keeps R
      (updatePosition tr.accountIdx tr.marketIdx fun p => .ok (p.allocate δ))) {f : Fill}
    (hinterest : ∀ δ, Txn.Keeps R (updateOpenInterest f.marketIndex δ))
    (makerPre takerPre : PreRiskSnapshot) :
    Txn.Keeps R (finishFill f makerPre takerPre mr tr) := by
  refine Txn.Keeps.bind ?_ fun _ => (hinterest _).bind fun _ => ?_
  · exact (applyAccount_rule hcollateral htaker _ _ _ _).bind fun _ =>
      (applyAccount_rule hcollateral hmaker _ _ _ _).bind fun _ => creditFees_rule hcollateral f
  · exact Txn.Keeps.when fun _ =>
      (checkSideRisk_rule _ _ _).bind fun _ => checkSideRisk_rule _ _ _

end FinishRule

theorem finishFill_keeps (f : Fill) (makerPre takerPre : PreRiskSnapshot)
    (mr tr : PositionChangeResult) :
    Txn.Keeps Routed (finishFill f makerPre takerPre mr tr) :=
  finishFill_rule addCollateral_keeps (fun _ => updatePosition_allocate_keeps _ _)
    (fun _ => updatePosition_allocate_keeps _ _) (updateOpenInterest_keeps f.marketIndex) makerPre
    takerPre

theorem applyPositionChange_keeps (acc m price base : ℕ) (sign : ℤ) :
    Txn.Keeps Traded (applyPositionChange acc m price base sign) := by
  refine Txn.Keeps.read.bind fun old => Txn.Keeps.bind ?_ fun p => ?_
  · intro s
    rw [Txn.after, updatePosition_run]
    cases boundedFill (base * sign) price (getPosition s acc m) with
    | error e => exact refl_of Traded s
    | ok p => exact Traded.of_putPosition s p
  · exact Txn.Keeps.require.bind fun _ => Txn.Keeps.pure

theorem settleSides_keeps (f : Fill) : Txn.Keeps Settled (settleSides f) :=
  (settlePositionFunding_keeps _ _).bind fun _ => settlePositionFunding_keeps _ _

theorem snapshotSide_keeps {R : State → State → Prop} [IsPreorder State R] (skip : Bool) (a : ℕ) :
    Txn.Keeps R (snapshotSide skip a) := by
  unfold snapshotSide
  split
  · exact Txn.Keeps.pure
  · exact Txn.Keeps.read

theorem prepareFill_keeps (f : Fill) : Txn.Keeps Settled (prepareFill f) :=
  (settleSides_keeps f).bind fun _ => (snapshotSide_keeps _ _).bind fun _ =>
    (snapshotSide_keeps _ _).bind fun _ => Txn.Keeps.pure

theorem apply_keeps (f : Fill) : Txn.Keeps Traded (apply f) := by
  refine ((prepareFill_keeps f).mono fun _ _ => Traded.of_settled).bind fun pre => ?_
  refine (applyPositionChange_keeps _ _ _ _ _).mapError.bind fun mr => ?_
  refine (applyPositionChange_keeps _ _ _ _ _).mapError.bind fun tr => ?_
  exact (finishFill_keeps f pre.1 pre.2 mr tr).mono fun _ _ h => h.toTraded

end PerpDex
