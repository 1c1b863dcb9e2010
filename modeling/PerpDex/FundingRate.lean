/-
The shape of the funding rate of a round.

Main result: `funding_rate_shape`.

The correction moves against the premium, but never by more than the premium itself does.
-/
import PerpDex.FundingLedger

namespace PerpDex

/-- What the rate of a funding period is divided by. -/
def FundingParams.divisor (params : FundingParams) : ℤ :=
  if params.fundingPeriodDivisor ≤ 0 then 1 else params.fundingPeriodDivisor

def MarketDetails.averagePremium (d : MarketDetails) : ℤ :=
  d.aggregatePremiumSum.tdiv d.totalPremiumSamples

theorem FundingParams.divisor_pos (params : FundingParams) : 0 < params.divisor := by
  unfold FundingParams.divisor
  split
  · exact one_pos
  · rename_i h
    exact not_le.mp h

/-! ### Clamps -/

section Clamps

variable {v w lo hi : ℤ}

theorem clampInt_mem (h : lo ≤ hi) : lo ≤ clampInt v lo hi ∧ clampInt v lo hi ≤ hi := by
  unfold clampInt
  split_ifs with hlo hhi
  · exact ⟨le_rfl, h⟩
  · exact ⟨h, le_rfl⟩
  · exact ⟨not_lt.mp hlo, not_lt.mp hhi⟩

theorem clampInt_of_mem (hlo : lo ≤ v) (hhi : v ≤ hi) : clampInt v lo hi = v := by
  unfold clampInt
  rw [if_neg (not_lt.mpr hlo), if_neg (not_lt.mpr hhi)]

theorem clampInt_mono (h : v ≤ w) (hle : lo ≤ hi) : clampInt v lo hi ≤ clampInt w lo hi := by
  unfold clampInt
  split_ifs <;> omega

theorem pull_mono (r : ℤ) {c : ℤ} (h : v ≤ w) (hc : 0 ≤ c) :
    v + clampInt (r - v) (-c) c ≤ w + clampInt (r - w) (-c) c := by
  unfold clampInt
  split_ifs <;> omega

end Clamps

/-! ### The rate -/

section Rate

variable (d : MarketDetails) (params : FundingParams)

theorem fundingRate_eq : d.fundingRate params
    = (clampInt (d.averagePremium + clampInt (d.interestRate - d.averagePremium)
        (-d.fundingClampSmall) d.fundingClampSmall)
      (-d.fundingClampBig) d.fundingClampBig).tdiv params.divisor := rfl

theorem fundingRate_abs_le :
    |d.fundingRate params| ≤ (d.fundingClampBig : ℤ) / params.divisor := by
  have hpos := params.divisor_pos
  have hbig : (0 : ℤ) ≤ d.fundingClampBig := Int.natCast_nonneg _
  obtain ⟨hlo, hhi⟩ := @clampInt_mem (d.averagePremium + clampInt
    (d.interestRate - d.averagePremium) (-d.fundingClampSmall) d.fundingClampSmall)
    (-d.fundingClampBig) d.fundingClampBig (by omega)
  rw [← Int.tdiv_eq_ediv_of_nonneg hbig, abs_le, ← Int.neg_tdiv, fundingRate_eq]
  exact ⟨Int.tdiv_le_tdiv hpos hlo, Int.tdiv_le_tdiv hpos hhi⟩

theorem fundingRate_mono {sum : ℤ} (hsamples : 0 < d.totalPremiumSamples)
    (h : d.aggregatePremiumSum ≤ sum) :
    d.fundingRate params ≤ { d with aggregatePremiumSum := sum }.fundingRate params := by
  have havg : d.averagePremium ≤ { d with aggregatePremiumSum := sum }.averagePremium :=
    Int.tdiv_le_tdiv (Int.natCast_pos.mpr hsamples) h
  have hpulled := pull_mono d.interestRate havg (Int.natCast_nonneg d.fundingClampSmall)
  have hbig : (-d.fundingClampBig : ℤ) ≤ d.fundingClampBig := by omega
  have hclamped := clampInt_mono hpulled hbig
  exact Int.tdiv_le_tdiv params.divisor_pos hclamped

/-- **Near the interest rate, the rate is the clamped interest rate, divided.** -/
theorem fundingRate_of_near (h : |d.averagePremium - d.interestRate| ≤ d.fundingClampSmall) :
    d.fundingRate params
      = (clampInt d.interestRate (-d.fundingClampBig) d.fundingClampBig).tdiv params.divisor := by
  obtain ⟨hlo, hhi⟩ := abs_le.mp h
  have hcorrection : clampInt (d.interestRate - d.averagePremium) (-d.fundingClampSmall)
      d.fundingClampSmall = d.interestRate - d.averagePremium :=
    clampInt_of_mem (by omega) (by omega)
  rw [fundingRate_eq, hcorrection, add_sub_cancel]

end Rate
/-- **Bound, monotonicity and value near the interest rate of the rate of a round, and what its
settlement with and without samples does.** -/
theorem funding_rate_shape (d : MarketDetails) (params : FundingParams) :
    (0 < d.totalPremiumSamples →
      |d.fundingRate params| ≤ (d.fundingClampBig : ℤ) / params.divisor ∧
      (∀ sum, d.aggregatePremiumSum ≤ sum →
        d.fundingRate params ≤ { d with aggregatePremiumSum := sum }.fundingRate params) ∧
      (|d.averagePremium - d.interestRate| ≤ d.fundingClampSmall → d.fundingRate params
        = (clampInt d.interestRate (-d.fundingClampBig) d.fundingClampBig).tdiv params.divisor) ∧
      ∀ s m, s.market.marketDetails.get m = some d →
        (settleMarket m params).run s = .ok () (s.putDetails { d with
          fundingRatePrefixSum := d.fundingRatePrefixSum + d.markPrice * d.fundingRate params
          aggregatePremiumSum := 0
          totalPremiumSamples := 0 })) ∧
    (d.totalPremiumSamples = 0 →
      ∀ s m, s.market.marketDetails.get m = some d → (settleMarket m params).run s = .ok () s) := by
  refine ⟨fun hsamples => ⟨fundingRate_abs_le d params, fun sum => fundingRate_mono d params hsamples,
    fundingRate_of_near d params, fun s m hd => ?_⟩, fun hnone s m hd => ?_⟩
  · rw [settleMarket_run]
    simp only [hd, if_pos hsamples.ne']
    rfl
  · rw [settleMarket_run]
    simp only [hd, hnone, ne_eq, not_true_eq_false, if_false]

/-- A round of four samples with an average premium of 110, pulled to the interest rate of 100. -/
theorem funding_rate_shape_one_round :
    let d : MarketDetails := {
      marketIndex := 0, markPrice := 7, interestRate := 100, fundingClampSmall := 50
      fundingClampBig := 90, aggregatePremiumSum := 440, totalPremiumSamples := 4 }
    d.fundingRate {} = 11 ∧ |d.fundingRate {}| ≤ (90 : ℤ) / 8 ∧
      d.fundingRate {} = (clampInt 100 (-90) 90).tdiv 8 := by
  intro d
  obtain ⟨hbound, -, hnear, -⟩ := (funding_rate_shape d {}).1 (by decide)
  exact ⟨by decide, hbound, hnear (by decide)⟩

end PerpDex
