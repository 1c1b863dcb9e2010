/-
Conservation of money in the perpetual engine.

Main result: `apply_conserves_funds`.

Fees, the treasury's credit and the margin of an isolated position are moves between accounts or between
the two pools of one account.  A side may be the treasury, the recipient of the fee, or the other side.
-/
import Mathlib.Algebra.BigOperators.Pi
import PerpDex.EngineSpec

namespace PerpDex

variable {s t : State} {f : Fill}

/-! ### The total -/

def collateralSum (s : State) : ℤ := s.account.accounts.sum (·.collateral)

def marginSum (s : State) : ℤ := s.account.accountPositions.sum (·.allocatedMargin)

def totalFunds (s : State) : ℤ := collateralSum s + marginSum s

theorem collateralSum_sub (F : Finset ℕ)
    (h : ∀ a ∉ F, collateralOf t a = collateralOf s a) :
    collateralSum t - collateralSum s = ∑ a ∈ F, (collateralOf t a - collateralOf s a) :=
  KVStore.sum_sub_sum F h

/-- If allocated margins agree outside the positions of `F` in market `m`, their sum moves by
what changes there. -/
theorem marginSum_sub {m : ℕ} (F : Finset ℕ)
    (h : ∀ a m', a ∉ F ∨ m' ≠ m →
      (getPosition t a m').allocatedMargin = (getPosition s a m').allocatedMargin) :
    marginSum t - marginSum s = ∑ a ∈ F, ((getPosition t a m).allocatedMargin
      - (getPosition s a m).allocatedMargin) := by
  have hterm : ∀ (u : State) a m', u.account.accountPositions.rows.term
      (fun _ p => p.allocatedMargin) (toLex (a, m')) = (getPosition u a m').allocatedMargin :=
    fun u a m' => term_accountPositions u (fun _ _ => rfl) a m'
  have hinj : Set.InjOn (fun a : ℕ => (toLex (a, m) : ℕ ×ₗ ℕ)) F := by
    intro a _ b _ hab
    have hpair := toLex.injective hab
    exact (Prod.mk.inj hpair).1
  have hout : ∀ k ∉ F.image fun a => (toLex (a, m) : ℕ ×ₗ ℕ),
      t.account.accountPositions.rows.term (fun _ p => p.allocatedMargin) k
        = s.account.accountPositions.rows.term (fun _ p => p.allocatedMargin) k := by
    intro k hk
    obtain ⟨⟨a, m'⟩, rfl⟩ := toLex.surjective k
    rw [hterm, hterm]
    apply h
    by_contra hboth
    push Not at hboth
    exact hk (Finset.mem_image.mpr ⟨a, hboth.1, by rw [hboth.2]⟩)
  have hsub := KVStore.sum_sub_sum _ hout
  rw [Finset.sum_image hinj] at hsub
  simp only [hterm] at hsub
  exact hsub

theorem MarginMove.totalFunds_eq {m : ℕ} {c al : ℕ → ℤ} (h : MarginMove m c al s t) (F : Finset ℕ)
    (hc : ∀ a ∉ F, c a = 0) (hal : ∀ a ∉ F, al a = 0) :
    totalFunds t = totalFunds s + ∑ a ∈ F, (c a + al a) := by
  have hcollateral := collateralSum_sub (s := s) (t := t) F fun a ha => by
    rw [h.collateralOf_eq, hc a ha, add_zero]
  have hmargin := marginSum_sub (s := s) (t := t) (m := m) F fun a m' hout => by
    rw [h.position]
    rcases hout with ha | hm
    · rw [hal a ha, ite_self, AccountPosition.allocate_zero]
    · rw [if_neg hm, AccountPosition.allocate_zero]
  simp only [h.collateralOf_eq, h.allocatedMargin_eq, add_sub_cancel_left] at hcollateral hmargin
  rw [Finset.sum_add_distrib, ← hcollateral, ← hmargin]
  unfold totalFunds
  ring

theorem totalFunds_congr (haccounts : t.account.accounts = s.account.accounts)
    (hmargin : ∀ a m, (getPosition t a m).allocatedMargin = (getPosition s a m).allocatedMargin) :
    totalFunds t = totalFunds s := by
  have hsub := marginSum_sub (s := s) (t := t) (m := 0) ∅ fun a m' _ => hmargin a m'
  rw [Finset.sum_empty] at hsub
  have hcollateral : collateralSum t = collateralSum s := by
    unfold collateralSum
    rw [haccounts]
  unfold totalFunds
  omega

theorem Settled.totalFunds_eq (h : Settled s t) : totalFunds t = totalFunds s :=
  totalFunds_congr h.accounts h.allocatedMargin

theorem totalFunds_putFill (s : State) (a m : ℕ) (delta : ℤ) (price : ℕ) :
    totalFunds (s.putPosition ((getPosition s a m).applyFill delta price).position)
      = totalFunds s := by
  refine totalFunds_congr rfl fun b m' => ?_
  rw [getPosition_putPosition]
  by_cases h : b = a ∧ m' = m
  · obtain ⟨rfl, rfl⟩ := h
    rw [if_pos (by simp)]
    rfl
  · rw [if_neg (by simpa using h)]

/-! ### Fills -/

def Fill.makerFilledState (f : Fill) (s : State) (d : MarketDetails) : State :=
  (f.settledState s d).putPosition (f.makerFill s d).position

/-- What `ApplyFill` returns for the taker: not `takerFill` when an account trades with itself, since
the taker's position is then the one the maker's side has left. -/
def Fill.takerFillAfterMaker (f : Fill) (s : State) (d : MarketDetails) : FillResult :=
  (getPosition (f.makerFilledState s d) f.takerAccountIndex f.marketIndex).applyFill
    (f.baseAmount * f.takerSign) f.price

theorem finishFill_totalFunds {makerPre takerPre : PreRiskSnapshot}
    {mr tr : PositionChangeResult} {u : Unit} (hmr : mr.marketIdx = f.marketIndex)
    (htr : tr.marketIdx = f.marketIndex)
    (h : (finishFill f makerPre takerPre mr tr).run s = .ok u t) :
    totalFunds t = totalFunds s + (mr.realizedPnL + tr.realizedPnL) := by
  obtain ⟨ct, alt, cm, alm, s', hmove, hct, hcm, -, -, d, -, -, rfl⟩ := finishFill_ok hmr htr h
  set F : Finset ℕ := {tr.accountIdx, mr.accountIdx, treasuryAccountIndex, f.recipient} with hF
  have hsingle : ∀ (i : ℕ) (x : ℤ), i ∈ F → ∑ a ∈ F, (Pi.single i x : ℕ → ℤ) a = x := by
    intro i x hi
    rw [Finset.sum_pi_single', if_pos hi]
  have hout : ∀ (i : ℕ) (x : ℤ) a, i ∈ F → a ∉ F → (Pi.single i x : ℕ → ℤ) a = 0 := by
    intro i x a hi ha
    have hne : a ≠ i := by
      rintro rfl
      exact ha hi
    exact Pi.single_eq_of_ne hne _
  have htaker : tr.accountIdx ∈ F := by simp [hF]
  have hmaker : mr.accountIdx ∈ F := by simp [hF]
  have htreasury : treasuryAccountIndex ∈ F := by simp [hF]
  have hrecipient : f.recipient ∈ F := by simp [hF]
  have hsum := hmove.totalFunds_eq F
    (fun a ha => by
      simp only [Pi.add_apply, Fill.feeCredits, hout _ _ a htaker ha, hout _ _ a hmaker ha,
        hout _ _ a htreasury ha, hout _ _ a hrecipient ha, add_zero])
    (fun a ha => by
      simp only [Pi.add_apply, hout _ _ a htaker ha, hout _ _ a hmaker ha, add_zero])
  simp only [Pi.add_apply, Fill.feeCredits, Finset.sum_add_distrib, hsingle _ _ htaker,
    hsingle _ _ hmaker, hsingle _ _ htreasury, hsingle _ _ hrecipient] at hsum
  -- writing the open interest touches neither accounts nor positions
  show totalFunds s' = _
  rw [hsum]
  linarith

/-- **Conservation of money.**  A successful fill changes the collateral of all accounts plus
the allocated margin of all positions by exactly the realized PnL of its two sides. -/
theorem apply_conserves_funds {u : Unit} (h : (apply f).run s = .ok u t) :
    ∃ d, s.market.marketDetails.get f.marketIndex = some d ∧
      totalFunds t = totalFunds s
        + ((f.makerFill s d).realizedPnL + (f.takerFillAfterMaker s d).realizedPnL) := by
  simp only [apply, prepareFill, Txn.run_bind_ok] at h
  obtain ⟨pre, s₁, ⟨_, sa, hsettle, mpre, sb, hmpre, tpre, sc, htpre, hret⟩, mr, s₂, hmaker,
    tr, s₃, htaker, hfinish⟩ := h
  have hsettled : Settled s sa := (settleSides_keeps f).ok hsettle
  rw [settleSides_run] at hsettle
  rcases hd : s.market.marketDetails.get f.marketIndex with _ | d
  · rw [hd] at hsettle
    simp at hsettle
  rw [hd] at hsettle
  obtain rfl : f.settledState s d = sa := (EStateM.Result.ok.inj hsettle).2
  obtain rfl := snapshotSide_ok hmpre
  obtain rfl := snapshotSide_ok htpre
  obtain rfl : f.settledState s d = s₁ := (EStateM.Result.ok.inj hret).2
  obtain ⟨-, rfl, -, rfl⟩ := makerPositionChange_ok hmaker
  obtain ⟨-, rfl, -, rfl⟩ := applyPositionChange_ok (Txn.run_mapError_ok.mp htaker)
  refine ⟨d, rfl, ?_⟩
  have hmakerPos : (f.makerFill s d).position = ((getPosition (f.settledState s d)
      f.makerAccountIndex f.marketIndex).applyFill (f.baseAmount * f.makerSign) f.price).position := by
    rw [Fill.getPosition_settledState, if_pos rfl, if_pos rfl]
    rfl
  calc totalFunds t
      = totalFunds ((f.makerFilledState s d).putPosition (f.takerFillAfterMaker s d).position)
        + ((f.makerFill s d).realizedPnL + (f.takerFillAfterMaker s d).realizedPnL) :=
        finishFill_totalFunds rfl rfl hfinish
    _ = totalFunds (f.makerFilledState s d)
        + ((f.makerFill s d).realizedPnL + (f.takerFillAfterMaker s d).realizedPnL) := by
        rw [Fill.takerFillAfterMaker, totalFunds_putFill]
    _ = totalFunds s
        + ((f.makerFill s d).realizedPnL + (f.takerFillAfterMaker s d).realizedPnL) := by
        rw [Fill.makerFilledState, hmakerPos, totalFunds_putFill, hsettled.totalFunds_eq]

/-- Trader 2 holds an isolated long, trader 3 and the treasury hold collateral. -/
def isolatedMaker : State where
  account := {
    accounts := Table.ofRows [
      { accountIndex := 0, collateral := 500 }, { accountIndex := 1 },
      { accountIndex := 2, collateral := 100000 }, { accountIndex := 3, collateral := 100000 }]
    accountPositions := Table.ofRows [{
      accountIndex := 2, marketIndex := 0, baseSize := 100, entryQuote := 10000,
      marginMode := .isolated, allocatedMargin := 2000 }] }
  market := {
    markets := Table.ofRows [{ marketIndex := 0 }]
    marketDetails := Table.ofRows [{
      marketIndex := 0, markPrice := 100, openInterest := 50, defaultInitialMarginFraction := 1000,
      minInitialMarginFraction := 500, maintenanceMarginFraction := 400,
      closeOutMarginFraction := 200 }] }

/-- Trader 3 buys 40 units from trader 2. -/
def partialClose : Fill where
  makerAccountIndex := 2
  takerAccountIndex := 3
  marketIndex := 0
  price := 110
  baseAmount := 40
  isTakerAsk := false
  takerFee := 5000
  makerFee := 2000

theorem apply_conserves_funds_partial_close :
    totalFunds isolatedMaker = 202500 ∧
      totalFunds (Txn.after (apply partialClose) isolatedMaker) = 202100 ∧
      ∃ d, isolatedMaker.market.marketDetails.get 0 = some d ∧
        totalFunds (Txn.after (apply partialClose) isolatedMaker) = totalFunds isolatedMaker
          + ((partialClose.makerFill isolatedMaker d).realizedPnL
            + (partialClose.takerFillAfterMaker isolatedMaker d).realizedPnL) :=
  ⟨by decide +kernel, by decide +kernel,
    apply_conserves_funds (f := partialClose) (s := isolatedMaker)
      (Txn.run_of_succeeds (by decide +kernel))⟩

end PerpDex
