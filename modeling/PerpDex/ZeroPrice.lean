/-
The zero price and the health of the account that is closed at it.

Main results: `zero_price_preserves_health`, `zero_price_close_admissible_iff`,
`zero_price_close_refused`.

Closes are booked ideally here: the value moves by what the trade is worth against the mark.  Marks are
32-bit words, as in the source.
-/
import PerpDex.Takeover

namespace PerpDex

/-! ### A part of a position -/

namespace AccountPosition

variable (p : AccountPosition) (b mark frac : ℕ) (md : MarketDetails)

def reduceBy : AccountPosition := { p with baseSize := p.baseSize - p.baseSize.sign * b }

variable {b} in
theorem abs_reduceBy (hb : (b : ℤ) ≤ |p.baseSize|) :
    |(p.reduceBy b).baseSize| = |p.baseSize| - b := by
  show |p.baseSize - p.baseSize.sign * b| = |p.baseSize| - b
  rcases lt_trichotomy p.baseSize 0 with hneg | hzero | hpos
  · rw [Int.sign_eq_neg_one_of_neg hneg, abs_of_neg hneg] at *
    rw [abs_of_nonpos (by omega)]
    omega
  · rw [hzero] at hb ⊢
    simp only [abs_zero] at hb
    have : b = 0 := by omega
    simp [this]
  · rw [Int.sign_eq_one_of_pos hpos, abs_of_pos hpos] at *
    rw [abs_of_nonneg (by omega)]
    omega

/-- The price `q` is at least as good for the holder who closes as `z`. -/
def NoWorse (q z : ℕ) : Prop := if p.isShort then q ≤ z else z ≤ q

instance (q z : ℕ) : Decidable (p.NoWorse q z) := by
  unfold NoWorse
  infer_instance

variable {p} in
theorem NoWorse.sign_nonneg {q z : ℕ} (h : p.NoWorse q z) :
    0 ≤ p.baseSize.sign * ((q : ℤ) - z) := by
  unfold NoWorse isShort at h
  rcases lt_trichotomy p.baseSize 0 with hneg | hzero | hlong
  · rw [Int.sign_eq_neg_one_of_neg hneg]
    simp only [hneg, decide_true, if_true] at h
    omega
  · simp [hzero]
  · rw [Int.sign_eq_one_of_pos hlong]
    simp only [not_lt.mpr hlong.le, decide_false, Bool.false_eq_true, if_false] at h
    omega

/-- The requirement set free by closing `b` units. -/
def freedBy : ℤ := p.marginRequirement mark frac - (p.reduceBy b).marginRequirement mark frac

variable {p b}

theorem lt_freedBy_add_one_mul (hb : (b : ℤ) ≤ |p.baseSize|) :
    (b : ℤ) * (mark * frac) < (p.freedBy b mark frac + 1) * marginTick := by
  have htick : (0 : ℤ) < marginTick := by decide
  unfold freedBy
  rw [marginRequirement_eq, marginRequirement_eq, p.abs_reduceBy hb,
    Int.tdiv_eq_ediv_of_nonneg (by positivity),
    Int.tdiv_eq_ediv_of_nonneg (mul_nonneg (by omega) (by positivity))]
  have hold := Int.lt_ediv_add_one_mul_self (|p.baseSize| * ((mark : ℤ) * frac)) htick
  have hnew := Int.ediv_mul_le ((|p.baseSize| - b) * ((mark : ℤ) * frac)) htick.ne'
  linarith

theorem freedBy_mul_of_dvd (hb : (b : ℤ) ≤ |p.baseSize|)
    (hold : (marginTick : ℤ) ∣ |p.baseSize| * (mark * frac))
    (hnew : (marginTick : ℤ) ∣ (|p.baseSize| - b) * (mark * frac)) :
    p.freedBy b mark frac * marginTick = b * (mark * frac) := by
  unfold freedBy
  rw [marginRequirement_eq, marginRequirement_eq, p.abs_reduceBy hb, sub_mul,
    Int.tdiv_mul_cancel hold, Int.tdiv_mul_cancel hnew]
  ring

end AccountPosition

/-! ### The zero price -/

section Gap

variable (p : AccountPosition) (mark : ℕ) (md : MarketDetails) (tav mmr : ℤ)

/-- The part of the mark price by which the zero price moves away from it, before the clamps. -/
def zeroPriceAdjustment : ℤ :=
  ((mark : ℤ) * md.maintenanceMarginFraction * tav).tdiv (mmr * marginTick)

/-- How far the zero price lies from the mark price, to the disadvantage of the holder. -/
def zeroPriceGap : ℤ :=
  min (zeroPriceAdjustment mark md tav mmr)
    (if p.isShort then (maxOrderPrice : ℤ) - mark else (mark : ℤ) - 1)

variable {p mark md tav mmr}

theorem zeroPriceAdjustment_nonneg (htav : 0 ≤ tav) (hmmr : 0 ≤ mmr) :
    0 ≤ zeroPriceAdjustment mark md tav mmr :=
  Int.tdiv_nonneg (by positivity) (by positivity)

theorem zeroPriceAdjustment_mul_le (htav : 0 ≤ tav) :
    zeroPriceAdjustment mark md tav mmr * (mmr * marginTick)
      ≤ (mark : ℤ) * md.maintenanceMarginFraction * tav := by
  have hnum : 0 ≤ (mark : ℤ) * md.maintenanceMarginFraction * tav := by positivity
  rw [zeroPriceAdjustment, Int.tdiv_eq_ediv_of_nonneg hnum]
  rcases eq_or_ne (mmr * marginTick) 0 with hzero | hpos
  · simpa [hzero] using hnum
  · exact Int.ediv_mul_le _ hpos

/-- **The zero price, clamps included**, for an account whose value is not negative. -/
theorem sign_mul_sub_zeroPrice (hsize : p.baseSize ≠ 0) (hmark : 0 < mark)
    (hword : mark ≤ maxOrderPrice) (htav : 0 ≤ tav) (hmmr : 0 ≤ mmr) :
    p.baseSize.sign * ((mark : ℤ) - pureComputeZeroPrice p mark md tav mmr)
      = zeroPriceGap p mark md tav mmr := by
  have hadj := @zeroPriceAdjustment_nonneg mark md tav mmr htav hmmr
  unfold pureComputeZeroPrice zeroPriceGap
  rw [if_neg (by omega)]
  rcases hmmr.eq_or_lt with rfl | hpos
  · -- an account without a requirement is closed at the mark itself
    have hnone : zeroPriceAdjustment mark md tav 0 = 0 := by simp [zeroPriceAdjustment]
    rw [if_pos rfl, hnone, sub_self, mul_zero, eq_comm, min_eq_left]
    split_ifs <;> omega
  rw [if_neg hpos.ne']
  have hdenom : mmr * marginTick ≠ 0 := mul_ne_zero hpos.ne' (by decide)
  have hquo : quoTowardZero ((mark : ℤ) * md.maintenanceMarginFraction * tav) (mmr * marginTick)
      = zeroPriceAdjustment mark md tav mmr := if_neg hdenom
  simp only [hquo]
  generalize zeroPriceAdjustment mark md tav mmr = a at hadj ⊢
  have hshort : p.isShort = decide (p.baseSize < 0) := rfl
  rcases lt_or_gt_of_ne hsize with hneg | hlong
  · rw [Int.sign_eq_neg_one_of_neg hneg, hshort]
    simp only [hneg, decide_true, if_true]
    split_ifs <;> omega
  · rw [Int.sign_eq_one_of_pos hlong, hshort]
    simp only [not_lt.mpr hlong.le, decide_false, Bool.false_eq_true, if_false]
    split_ifs <;> omega

/-- Per unit closed at the zero price the account pays no more than the unit's share of the
value, by maintenance requirement. -/
theorem zeroPriceGap_mul_le (htav : 0 ≤ tav) (hmmr : 0 ≤ mmr) :
    zeroPriceGap p mark md tav mmr * (mmr * marginTick)
      ≤ (mark : ℤ) * md.maintenanceMarginFraction * tav := by
  have hdenom : 0 ≤ mmr * marginTick := by positivity
  exact (mul_le_mul_of_nonneg_right (min_le_left _ _) hdenom).trans
    (zeroPriceAdjustment_mul_le htav)

end Gap

/-! ### The account after the close -/

section Close

variable {s : State} {acc m b mark : ℕ} {md : MarketDetails} {rp : RiskParameters}

theorem computeCrossRisk_reduceBy (hcross : (getPosition s acc m).marginMode ≠ .isolated)
    (hmark : getMarkPriceAndDetails m s = .ok (mark, md)) (hrp : computeCrossRisk acc s = .ok rp) :
    ∃ rp', computeCrossRisk acc (s.putPosition ((getPosition s acc m).reduceBy b)) = .ok rp' ∧
      rp'.initialMarginRequirement = rp.initialMarginRequirement
        - (getPosition s acc m).freedBy b mark md.defaultInitialMarginFraction ∧
      rp'.maintenanceMarginRequirement = rp.maintenanceMarginRequirement
        - (getPosition s acc m).freedBy b mark md.maintenanceMarginFraction ∧
      rp'.closeOutMarginRequirement = rp.closeOutMarginRequirement
        - (getPosition s acc m).freedBy b mark md.closeOutMarginFraction := by
  set t := s.putPosition ((getPosition s acc m).reduceBy b) with ht
  have hget : ∀ m', getPosition t acc m'
      = if m' = m then (getPosition s acc m).reduceBy b else getPosition s acc m' := by
    intro m'
    rw [ht, getPosition_putPosition]
    simp [AccountPosition.reduceBy]
  have hself : getPosition t acc m = (getPosition s acc m).reduceBy b := by
    rw [hget, if_pos rfl]
  have hreplace := computeCrossRisk_replace (s := s) (t := t) (x := 0) ⟨rfl, rfl, fun _ => rfl⟩
    (fun a ha => ⟨a, ha, (add_zero _).symm⟩) (fun m' hm' => by rw [hget, if_neg hm']) hcross
    (by rw [hself]; exact hcross) hmark hrp
  rw [hself] at hreplace
  refine ⟨_, hreplace, ?_, ?_, ?_⟩
  · simp only [RiskParameters.plus, AccountPosition.freedBy,
      AccountPosition.initialMargin_eq_marginRequirement]
    ring
  · simp only [RiskParameters.plus, AccountPosition.freedBy, AccountPosition.maintenanceMargin]
    ring
  · simp only [RiskParameters.plus, AccountPosition.freedBy, AccountPosition.closeOutMargin]
    ring

theorem computeCrossRisk_initial_nonneg (hrp : computeCrossRisk acc s = .ok rp) :
    0 ≤ rp.initialMarginRequirement := by
  obtain ⟨a, -, -, rfl⟩ := computeCrossRisk_eq_ok.mp hrp
  exact crossSum_initialAt_nonneg s acc

theorem computeCrossRisk_maintenance_nonneg (hrp : computeCrossRisk acc s = .ok rp) :
    0 ≤ rp.maintenanceMarginRequirement := by
  obtain ⟨a, -, -, rfl⟩ := computeCrossRisk_eq_ok.mp hrp
  refine crossSum_nonneg (fun d p => ?_) s acc
  show 0 ≤ p.marginRequirement _ _
  rw [AccountPosition.marginRequirement_eq]
  exact Int.tdiv_nonneg (by positivity) (by decide)

theorem mark_pos_of_getMarkPriceAndDetails (hmark : getMarkPriceAndDetails m s = .ok (mark, md)) :
    0 < mark := by
  obtain ⟨-, heq, hgate⟩ := getMarkPriceAndDetails_eq_ok.mp hmark
  have hne : mark ≠ 0 := fun h => gateMarkPrice_pos hgate (heq.symm.trans h)
  omega

/-- Closing `b` units at the zero price costs at most their share of the value, measured by the
requirement they set free. -/
theorem zeroPriceGap_share {p : AccountPosition} {tav mmr : ℤ} (hb : (b : ℤ) ≤ |p.baseSize|)
    (htav : 0 ≤ tav) (hmmr : 0 ≤ mmr) :
    (b : ℤ) * zeroPriceGap p mark md tav mmr * mmr
      ≤ tav * (p.freedBy b mark md.maintenanceMarginFraction + 1) := by
  have htick : (0 : ℤ) < marginTick := by decide
  have hgap := @zeroPriceGap_mul_le p mark md tav mmr htav hmmr
  have hfreed := @AccountPosition.lt_freedBy_add_one_mul p b mark md.maintenanceMarginFraction hb
  refine le_of_mul_le_mul_right ?_ htick
  calc (b : ℤ) * zeroPriceGap p mark md tav mmr * mmr * marginTick
      = b * (zeroPriceGap p mark md tav mmr * (mmr * marginTick)) := by ring
    _ ≤ b * ((mark : ℤ) * md.maintenanceMarginFraction * tav) :=
        mul_le_mul_of_nonneg_left hgap (by positivity)
    _ = tav * (b * (mark * md.maintenanceMarginFraction)) := by ring
    _ ≤ tav * ((p.freedBy b mark md.maintenanceMarginFraction + 1) * marginTick) :=
        mul_le_mul_of_nonneg_left hfreed.le htav
    _ = tav * (p.freedBy b mark md.maintenanceMarginFraction + 1) * marginTick := by ring

/-- **The zero price preserves health**: an account that closes `b` units of a cross position at the
zero price or better has no less value per maintenance requirement, but for one unit of the truncated
requirement. -/
theorem zero_price_preserves_health {q : ℕ} (hrp : computeCrossRisk acc s = .ok rp)
    (htav : 0 ≤ rp.totalAccountValue) (hmmr : 0 < rp.maintenanceMarginRequirement)
    (hopen : (getPosition s acc m).baseSize ≠ 0)
    (hcross : (getPosition s acc m).marginMode ≠ .isolated)
    (hmark : getMarkPriceAndDetails m s = .ok (mark, md)) (hword : mark ≤ maxUint32)
    (hb : (b : ℤ) ≤ |(getPosition s acc m).baseSize|)
    (hq : (getPosition s acc m).NoWorse q (pureComputeZeroPrice (getPosition s acc m) mark md
      rp.totalAccountValue rp.maintenanceMarginRequirement)) :
    ∃ rp', computeCrossRisk acc (s.putPosition ((getPosition s acc m).reduceBy b)) = .ok rp' ∧
      rp.totalAccountValue * (rp'.maintenanceMarginRequirement - 1)
        ≤ (rp.totalAccountValue + (getPosition s acc m).baseSize.sign * b * ((q : ℤ) - mark))
          * rp.maintenanceMarginRequirement := by
  obtain ⟨rp', hrp', -, hmaintenance, -⟩ := computeCrossRisk_reduceBy (b := b) hcross hmark hrp
  refine ⟨rp', hrp', ?_⟩
  have hgap := @sign_mul_sub_zeroPrice _ _ md _ _ hopen (mark_pos_of_getMarkPriceAndDetails hmark)
    hword htav hmmr.le
  have hshare := @zeroPriceGap_share b mark md _ _ _ hb htav hmmr.le
  rw [← hgap] at hshare
  set p := getPosition s acc m
  set z := pureComputeZeroPrice p mark md rp.totalAccountValue rp.maintenanceMarginRequirement
  have hbetter : 0 ≤ p.baseSize.sign * ((q : ℤ) - z) := hq.sign_nonneg
  have hgain : 0 ≤ b * (p.baseSize.sign * ((q : ℤ) - z)) * rp.maintenanceMarginRequirement := by
    positivity
  rw [hmaintenance]
  linarith

/-- Account 2 holds ten units in each of two markets.  Both have the same initial fraction; the
maintenance fraction of market 0 is nearly as high, that of market 1 is half. -/
def twoMarkets : State where
  account := {
    accounts := Table.ofRows [{ accountIndex := 2, collateral := 700 }]
    accountPositions := Table.ofRows [
      { accountIndex := 2, marketIndex := 0, baseSize := 10, entryQuote := 10000 },
      { accountIndex := 2, marketIndex := 1, baseSize := 10, entryQuote := 10000 }] }
  market := { marketDetails := Table.ofRows [
    { marketIndex := 0, markPrice := 1000, defaultInitialMarginFraction := 1000,
      minInitialMarginFraction := 1000, maintenanceMarginFraction := 900,
      closeOutMarginFraction := 800 },
    { marketIndex := 1, markPrice := 1000, defaultInitialMarginFraction := 1000,
      minInitialMarginFraction := 1000, maintenanceMarginFraction := 500,
      closeOutMarginFraction := 400 }] }

theorem zero_price_preserves_health_two_markets :
    let p := getPosition twoMarkets 2 0
    pureComputeZeroPrice p 1000 (detailsOf twoMarkets 0) 700 1400 = 955 ∧
    ∃ rp', computeCrossRisk 2 (twoMarkets.putPosition (p.reduceBy 7)) = .ok rp' ∧
      700 * (rp'.maintenanceMarginRequirement - 1)
        ≤ (700 + p.baseSize.sign * (7 : ℕ) * (((960 : ℕ) : ℤ) - (1000 : ℕ))) * 1400 := by
  refine ⟨by decide +kernel, @zero_price_preserves_health twoMarkets 2 0 7 1000
    (detailsOf twoMarkets 0) ⟨700, 700, 700, 2000, 1400, 1200⟩ 960 ?_ ?_ ?_ ?_ ?_ ?_ ?_ ?_ ?_⟩
  all_goals decide +kernel

/-! ### The gate -/

theorem classifyChange_of_full {pre post : RiskParameters}
    (hfull : pre.healthStatus = .fullLiquidation) (hvalue : 0 ≤ post.totalAccountValue) :
    classifyChange (some pre) post = true ↔ post.healthStatus = .healthy ∨
      post.initialMarginRequirement = 0 ∨ pre.initialMarginRequirement = 0 ∨
      pre.totalAccountValue * post.initialMarginRequirement
        ≤ post.totalAccountValue * pre.initialMarginRequirement := by
  have hrank : ¬ post.healthStatus.rank > Health.rank .fullLiquidation := by
    unfold RiskParameters.healthStatus
    rw [if_neg hvalue.not_gt]
    split_ifs <;> decide
  unfold classifyChange
  by_cases hhealthy : post.healthStatus = .healthy
  · simp [hhealthy]
  · simp [hhealthy, hfull, hrank, or_assoc]

theorem zeroPriceGap_cost_le {p : AccountPosition} {tav mmr mmr' : ℤ} (htav : 0 ≤ tav)
    (hmmr : 0 ≤ mmr) (hb : (b : ℤ) ≤ |p.baseSize|)
    (hold : (marginTick : ℤ) ∣ |p.baseSize| * (mark * md.maintenanceMarginFraction))
    (hnew : (marginTick : ℤ) ∣ (|p.baseSize| - b) * (mark * md.maintenanceMarginFraction))
    (hmmr' : mmr' = mmr - p.freedBy b mark md.maintenanceMarginFraction) (hleft : 0 ≤ mmr') :
    (b : ℤ) * zeroPriceGap p mark md tav mmr ≤ tav := by
  have hgap := @zeroPriceGap_mul_le p mark md tav mmr htav hmmr
  have hfreed := AccountPosition.freedBy_mul_of_dvd mark md.maintenanceMarginFraction hb hold hnew
  have htick : (0 : ℤ) < marginTick := by decide
  rcases hmmr.eq_or_lt with rfl | hpos
  · have hzero : zeroPriceGap p mark md tav 0 ≤ 0 :=
      (min_le_left _ _).trans_eq (by simp [zeroPriceAdjustment])
    nlinarith
  · refine le_of_mul_le_mul_right ?_ (mul_pos hpos htick)
    calc (b : ℤ) * zeroPriceGap p mark md tav mmr * (mmr * marginTick)
        = b * (zeroPriceGap p mark md tav mmr * (mmr * marginTick)) := by ring
      _ ≤ b * ((mark : ℤ) * md.maintenanceMarginFraction * tav) :=
          mul_le_mul_of_nonneg_left hgap (by positivity)
      _ = tav * (b * (mark * md.maintenanceMarginFraction)) := by ring
      _ = tav * (p.freedBy b mark md.maintenanceMarginFraction * marginTick) := by rw [hfreed]
      _ ≤ tav * (mmr * marginTick) :=
          mul_le_mul_of_nonneg_left (mul_le_mul_of_nonneg_right (by omega) htick.le) htav

section Arithmetic

variable {value req freed cost share tick : ℤ}

/-- The coverage ratio does not fall exactly if the units closed cost no more than their share. -/
theorem coverage_kept_iff (hfreed : freed * tick = b * share) (htick : 0 < tick) :
    value * (req - freed) ≤ (value - b * cost) * req ↔
      b = 0 ∨ req * cost * tick ≤ value * share := by
  have hscale : value * (req - freed) ≤ (value - b * cost) * req ↔
      (b : ℤ) * (req * cost * tick) ≤ b * (value * share) := by
    rw [← mul_le_mul_iff_of_pos_right htick]
    have hleft : value * (req - freed) * tick = value * req * tick - b * (value * share) := by
      linear_combination -value * hfreed
    have hright : (value - b * cost) * req * tick
        = value * req * tick - b * (req * cost * tick) := by ring
    rw [hleft, hright, sub_le_sub_iff_left]
  rw [hscale]
  rcases Nat.eq_zero_or_pos b with rfl | hb
  · simp
  · rw [mul_le_mul_iff_of_pos_left (by exact_mod_cast hb)]
    simp [hb.ne']

theorem covered_iff (hfreed : freed * tick = b * share) (htick : 0 < tick) :
    req - freed ≤ value ↔ req * tick - b * share ≤ value * tick := by
  rw [← hfreed, ← sub_mul, mul_le_mul_iff_of_pos_right htick]

end Arithmetic

/-- **Which zero-price closes pass the change gate**, for an account in full liquidation whose value
is positive, without rounding: those that cost, per initial requirement they set free, no more
than the account's value per initial requirement, and those that leave every requirement
covered. -/
theorem zero_price_close_admissible_iff (hrp : computeCrossRisk acc s = .ok rp)
    (hfull : rp.healthStatus = .fullLiquidation) (htav : 0 < rp.totalAccountValue)
    (hopen : (getPosition s acc m).baseSize ≠ 0)
    (hcross : (getPosition s acc m).marginMode ≠ .isolated)
    (hmark : getMarkPriceAndDetails m s = .ok (mark, md)) (hword : mark ≤ maxUint32)
    (hb : (b : ℤ) ≤ |(getPosition s acc m).baseSize|)
    (hexact : ∀ frac ∈ [md.defaultInitialMarginFraction, md.maintenanceMarginFraction,
        md.closeOutMarginFraction],
      (marginTick : ℤ) ∣ |(getPosition s acc m).baseSize| * (mark * frac) ∧
        (marginTick : ℤ) ∣ (|(getPosition s acc m).baseSize| - b) * (mark * frac)) :
    let p := getPosition s acc m
    let z := pureComputeZeroPrice p mark md rp.totalAccountValue rp.maintenanceMarginRequirement
    let gap := zeroPriceGap p mark md rp.totalAccountValue rp.maintenanceMarginRequirement
    ∃ rp', computeCrossRisk acc (s.putPosition (p.reduceBy b)) = .ok rp' ∧
      (classifyChange (some rp) { rp' with
          totalAccountValue := rp.totalAccountValue + p.baseSize.sign * b * ((z : ℤ) - mark) } = true ↔
        b = 0 ∨
        rp.initialMarginRequirement * gap * marginTick
          ≤ rp.totalAccountValue * (mark * md.defaultInitialMarginFraction) ∨
        ∀ r ∈ [(rp.initialMarginRequirement, md.defaultInitialMarginFraction),
            (rp.maintenanceMarginRequirement, md.maintenanceMarginFraction),
            (rp.closeOutMarginRequirement, md.closeOutMarginFraction)],
          r.1 * marginTick - b * (mark * r.2) ≤ (rp.totalAccountValue - b * gap) * marginTick) := by
  intro p z gap
  have hpos := mark_pos_of_getMarkPriceAndDetails hmark
  have htick : (0 : ℤ) < marginTick := by decide
  have hmmr := computeCrossRisk_maintenance_nonneg hrp
  have himr := computeCrossRisk_initial_nonneg hrp
  obtain ⟨rp', hrp', hI, hM, hC⟩ := computeCrossRisk_reduceBy (b := b) hcross hmark hrp
  refine ⟨rp', hrp', ?_⟩
  simp only [List.mem_cons, List.not_mem_nil, or_false, forall_eq_or_imp, forall_eq] at hexact
  obtain ⟨⟨hIo, hIn⟩, ⟨hMo, hMn⟩, hCo, hCn⟩ := hexact
  have hfI := AccountPosition.freedBy_mul_of_dvd _ _ hb hIo hIn
  have hfM := AccountPosition.freedBy_mul_of_dvd _ _ hb hMo hMn
  have hfC := AccountPosition.freedBy_mul_of_dvd _ _ hb hCo hCn
  have hcost : (b : ℤ) * gap ≤ rp.totalAccountValue := zeroPriceGap_cost_le htav.le hmmr hb
    hMo hMn hM (computeCrossRisk_maintenance_nonneg hrp')
  have hvalue : rp.totalAccountValue + p.baseSize.sign * b * ((z : ℤ) - mark)
      = rp.totalAccountValue - b * gap := by
    rw [show gap = _ from (sign_mul_sub_zeroPrice hopen hpos hword htav.le hmmr).symm]
    ring
  rw [hvalue, classifyChange_of_full hfull (sub_nonneg.mpr hcost),
    RiskParameters.healthStatus_eq_healthy (sub_nonneg.mpr hcost)]
  simp only [List.mem_cons, List.not_mem_nil, or_false, forall_eq_or_imp, forall_eq, hI, hM, hC]
  rw [covered_iff hfI htick, covered_iff hfM htick, covered_iff hfC htick]
  have hratio := @coverage_kept_iff b rp.totalAccountValue rp.initialMarginRequirement _ gap _ _
    hfI htick
  rw [← or_assoc (a := b = 0), ← hratio]
  -- the two cases in which the gate does not compare ratios fulfil the comparison
  have hfreed : 0 ≤ p.freedBy b mark md.defaultInitialMarginFraction :=
    nonneg_of_mul_nonneg_left (hfI ▸ by positivity) htick
  have hnone' : rp.initialMarginRequirement - p.freedBy b mark md.defaultInitialMarginFraction = 0 →
      rp.totalAccountValue
          * (rp.initialMarginRequirement - p.freedBy b mark md.defaultInitialMarginFraction)
        ≤ (rp.totalAccountValue - b * gap) * rp.initialMarginRequirement := by
    intro hzero
    rw [hzero, mul_zero]
    exact mul_nonneg (sub_nonneg.mpr hcost) himr
  have hnone : rp.initialMarginRequirement = 0 →
      rp.totalAccountValue
          * (rp.initialMarginRequirement - p.freedBy b mark md.defaultInitialMarginFraction)
        ≤ (rp.totalAccountValue - b * gap) * rp.initialMarginRequirement := by
    intro hzero
    rw [hzero, mul_zero, zero_sub, mul_neg, neg_nonpos]
    exact mul_nonneg htav.le hfreed
  constructor
  · rintro (h | h | h | h)
    · exact Or.inr h
    · exact Or.inl (hnone' h)
    · exact Or.inl (hnone h)
    · exact Or.inl h
  · rintro (h | h)
    · exact Or.inr (Or.inr (Or.inr h))
    · exact Or.inl h

theorem zero_price_close_admissible_iff_two_markets :
    let p := getPosition twoMarkets 2 1
    ∃ rp', computeCrossRisk 2 (twoMarkets.putPosition (p.reduceBy 10)) = .ok rp' ∧
      classifyChange (some ⟨700, 700, 700, 2000, 1400, 1200⟩)
        { rp' with totalAccountValue := 700 + p.baseSize.sign * (10 : ℕ) * ((975 : ℕ) - (1000 : ℕ)) }
        = true := by
  intro p
  obtain ⟨rp', hrp', hiff⟩ := @zero_price_close_admissible_iff twoMarkets 2 1 10 1000
    (detailsOf twoMarkets 1) ⟨700, 700, 700, 2000, 1400, 1200⟩ (by decide +kernel) (by decide)
    (by decide)
    (by decide +kernel) (by decide +kernel) (by decide +kernel) (by decide) (by decide +kernel)
    (by decide +kernel)
  exact ⟨rp', hrp', hiff.mpr (Or.inr (Or.inl (by decide +kernel)))⟩

/-- Closing market 0 at its zero price of 955 costs 450 of a value of 700, but frees only half of the
initial requirement: the gate refuses the close. -/
theorem zero_price_close_refused :
    let p := getPosition twoMarkets 2 0
    let rp : RiskParameters := ⟨700, 700, 700, 2000, 1400, 1200⟩
    computeCrossRisk 2 twoMarkets = .ok rp ∧ rp.healthStatus = .fullLiquidation ∧
      pureComputeZeroPrice p 1000 (detailsOf twoMarkets 0) rp.totalAccountValue
        rp.maintenanceMarginRequirement = 955 ∧
      (rp.maintenanceMarginRequirement * marginTick
        ∣ 1000 * (detailsOf twoMarkets 0).maintenanceMarginFraction * rp.totalAccountValue) ∧
      ∃ rp', computeCrossRisk 2 (twoMarkets.putPosition (p.reduceBy 10)) = .ok rp' ∧
        classifyChange (some rp)
          { rp' with totalAccountValue := 700 + p.baseSize.sign * 10 * (955 - 1000) } = false := by
  refine ⟨by decide +kernel, by decide, by decide +kernel, by decide +kernel,
    ⟨700, 700, 700, 1000, 500, 400⟩, by decide +kernel, by decide +kernel⟩

end Close

end PerpDex
