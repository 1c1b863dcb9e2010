/-
Mark prices (`x/funding/keeper/sample.go`, `x/funding/keeper/mark_price.go`, `x/funding/keeper/abci.go`
and the reads of `x/oracle/keeper/keeper.go`).

* `fundingBeginBlocker` — the hook that samples premiums, moves mark prices and closes the rounds;
* `Tame` — what the hook leaves of a market, in any block.

Main result: `MarketDetails.refreshed_exact`.

The arithmetic takes its words as a parameter, once with words that wrap around and once with words that
refuse to: that both runs are the same says that nothing overflows.
-/
import PerpDex.ExactRuns
import PerpDex.FundingRate
import PerpDex.ImpactPrice
import PerpDex.PriceFeed

namespace PerpDex

open Arith Oracle Txn

/-! ### Prices of the oracle -/

structure OracleStore where
  prices : Prices := Table.empty
  params : Oracle.Params := {}

def OracleStore.getStoredPrice (o : OracleStore) (marketIdx : ℕ) : Except Err OraclePrice :=
  match o.prices.get marketIdx with
  | some p => .ok p
  | none => .error ⟨.priceNotFound, s!"market_index={marketIdx}"⟩

def OracleStore.getPrice (o : OracleStore) (now : ℤ) (marketIdx : ℕ) : Except Err OraclePrice := do
  let p ← o.getStoredPrice marketIdx
  if o.params.maxAgeMs ≤ 0 then return p
  else if p.lastUpdatedTimestamp ≤ 0 then
    throw ⟨.stalePrice, s!"market_index={marketIdx} never updated"⟩
  else
    let age := wrap64 (now - p.lastUpdatedTimestamp)
    let maxAge := o.params.maxAgeMs
    if maxAge < age then
      throw ⟨.stalePrice, s!"market_index={marketIdx} age={age}ms > max={maxAge}ms"⟩
    else return p

/-! ### Samples of the premium -/

def markPremiumEmaTauMs : ℤ := 480000

def markPremiumClampDivisor : ℤ := 200

def premiumSampleIntervalMs : ℤ := 60000

def FundingParams.validate (p : FundingParams) : Except Err Unit :=
  if p.fundingPeriodMs ≤ 0 then
    .error ⟨.fundingInvalidParams, "funding_period_ms must be > 0"⟩
  else if p.fundingPeriodDivisor ≤ 0 then
    .error ⟨.fundingInvalidParams, "funding_period_divisor must be > 0"⟩
  else if p.maxPremiumSampleCount = 0 then
    .error ⟨.fundingInvalidParams, "max_premium_sample_count must be > 0"⟩
  else if p.fundingPeriodMs < premiumSampleIntervalMs then
    let period := p.fundingPeriodMs
    let interval := premiumSampleIntervalMs
    .error ⟨.fundingInvalidParams,
      s!"funding_period_ms={period} must be >= one premium sample interval ({interval}ms)"⟩
  else .ok ()

/-- A result of `math.Int` as a signed word; one that does not fit panics. -/
def int64Of (x : ℤ) : Except Err ℤ :=
  if -2 ^ 63 ≤ x ∧ x < 2 ^ 63 then .ok x else .error ⟨.goPanic, "Int64() out of bound"⟩

def clampInt64 (v lo hi : ℤ) : ℤ := clampInt v lo hi

def clampUint32 (v : ℤ) : ℕ :=
  if v < 0 then 0 else if (maxUint32 : ℤ) < v then maxUint32 else v.toNat

def median3Uint32 (a b c : ℕ) : ℕ := ([a, b, c].mergeSort fun x y => decide (x ≤ y)).getD 1 0

section Words

variable (w : Words Err)

/-- The mean of two prices, rounded down. -/
def meanUint32 (a b : ℕ) : Except Err ℕ := do
  let sum ← w.uint64 (a + b)
  w.uint32 (sum / 2)

/-- Whether the last sample was taken less than a minute ago. -/
def MarketDetails.throttled (d : MarketDetails) (now : ℤ) : Except Err Bool :=
  if d.lastPremiumSampleTimestamp = 0 then return false
  else do
    let age ← w.int64 (now - d.lastPremiumSampleTimestamp)
    return decide (age < premiumSampleIntervalMs)

/-- The mean of the impact prices; zero if one side has none. -/
def impactMid (bidImp askImp : ℕ) : Except Err ℕ :=
  if bidImp ≠ 0 ∧ askImp ≠ 0 then meanUint32 w bidImp askImp else return 0

/-- By how much one price is above another one. -/
def excess (a b : ℤ) : Except Err ℤ := if b < a then w.int64 (a - b) else return 0

/-- One premium: how far the bids are above the index price or the asks below. -/
def premiumSample (bidImp askImp : ℕ) (idx : ℤ) : Except Err ℤ := do
  let posPart ← excess w bidImp idx
  let negPart ← excess w idx askImp
  let diff ← w.int64 (posPart - negPart)
  return (diff * fundingRateTick).tdiv idx

/-- The details with new impact prices and, if the oracle answers, with one more premium. -/
def MarketDetails.withSample (params : FundingParams) (d : MarketDetails) (bidImp askImp : ℕ)
    (px : Except Err OraclePrice) (now : ℤ) : Except Err MarketDetails := do
  let impact ← impactMid w bidImp askImp
  let d := { d with impactBidPrice := bidImp, impactAskPrice := askImp, impactPrice := impact }
  match px with
  | .error _ => return d
  | .ok px =>
    let d := { d with indexPrice := px.indexPrice }
    if bidImp = 0 ∨ askImp = 0 ∨ d.indexPrice = 0 then
      return { d with lastPremiumSampleTimestamp := now }
    else
      let premium ← premiumSample w bidImp askImp d.indexPrice
      if params.maxPremiumSampleCount = 0 ∨
          d.totalPremiumSamples < params.maxPremiumSampleCount then
        let count ← w.uint32 (d.totalPremiumSamples + 1)
        return { d with
          aggregatePremiumSum := d.aggregatePremiumSum + premium
          totalPremiumSamples := count
          lastPremiumSampleTimestamp := now }
      else return { d with lastPremiumSampleTimestamp := now }

def processMarketSample (o : OracleStore) (marketIdx : ℕ) (params : FundingParams) : Tx Unit := do
  match ← Txn.read fun s => .ok (s.market.marketDetails.get marketIdx) with
  | none => pure ()
  | some d =>
    let throttled ← Txn.read fun s => d.throttled w s.now
    if throttled then pure ()
    else match ← logged (Txn.read (computeImpactPrice marketIdx false)) with
    | .error _ => pure ()
    | .ok bidImp => match ← logged (Txn.read (computeImpactPrice marketIdx true)) with
      | .error _ => pure ()
      | .ok askImp =>
        let d ← Txn.read fun s =>
          d.withSample w params bidImp askImp (o.getPrice s.now marketIdx) s.now
        setMarketDetails d

/-! ### The mark price -/

/-- The next value of the average with time constant `tau`. -/
def emaStep (prev raw dt tau : ℤ) (reset : Bool) : Except Err ℤ :=
  if tau ≤ 0 ∨ reset = true ∨ tau ≤ dt then return raw
  else if dt ≤ 0 then return prev
  else do
    let diff ← w.int64 (raw - prev)
    let delta := (diff * dt).tdiv tau
    if delta = 0 then return prev
    else
      let step ← int64Of delta
      w.int64 (prev + step)

/-- How far the impact price is from the index price, at most `bound`. -/
def clampedPremium (impact : ℕ) (idx bound : ℤ) : Except Err ℤ :=
  if impact ≠ 0 ∧ 0 < idx then do
    let premium ← w.int64 (impact - idx)
    return clampInt64 premium (-bound) bound
  else return 0

/-- The median of three prices, the mean of two, or the only one that is not zero. -/
def chooseMarkPrice (impact price1 price2 : ℕ) : Except Err (Option ℕ) :=
  if impact ≠ 0 ∧ price1 ≠ 0 ∧ price2 ≠ 0 then return some (median3Uint32 impact price1 price2)
  else if impact ≠ 0 ∧ price1 ≠ 0 then return some (← meanUint32 w impact price1)
  else if impact ≠ 0 ∧ price2 ≠ 0 then return some (← meanUint32 w impact price2)
  else if price1 ≠ 0 ∧ price2 ≠ 0 then return some (← meanUint32 w price1 price2)
  else if impact ≠ 0 then return some impact
  else if price1 ≠ 0 then return some price1
  else if price2 ≠ 0 then return some price2
  else return none

/-- The details with a new mark price; nothing is written if all prices are zero. -/
def MarketDetails.refreshed (d : MarketDetails) (px : OraclePrice) (now : ℤ) :
    Except Err (Option MarketDetails) := do
  let d := if px.indexPrice ≠ 0 then { d with indexPrice := px.indexPrice } else d
  let idx : ℤ := d.indexPrice
  let bound := idx.tdiv markPremiumClampDivisor
  let rawPremium ← clampedPremium w d.impactPrice idx bound
  let dt ← w.int64 (now - d.lastMarkPriceRefreshTimestamp)
  let ema ← emaStep w d.markPremiumEma rawPremium dt markPremiumEmaTauMs
    (decide (d.lastMarkPriceRefreshTimestamp = 0))
  let ema := if 0 < idx then clampInt64 ema (-bound) bound else ema
  let sum ← w.int64 (idx + ema)
  match ← chooseMarkPrice w d.impactPrice (clampUint32 sum) px.markPrice with
  | none => return none
  | some markPrice => return some { d with
      markPrice := markPrice
      markPremiumEma := ema
      lastMarkPriceRefreshTimestamp := now }

def refreshMarkPrice (o : OracleStore) (marketIdx : ℕ) : Tx Unit := do
  match ← Txn.read fun s => .ok (s.market.marketDetails.get marketIdx) with
  | none => pure ()
  | some d => match ← Txn.read fun s => .ok (o.getPrice s.now marketIdx) with
    | .error _ => pure ()
    | .ok px => match ← Txn.read fun s => d.refreshed w px s.now with
      | none => pure ()
      | some d => setMarketDetails d

/-! ### The hook -/

/-- One market in the loop of the hook. -/
def refreshMarket (o : OracleStore) (params : FundingParams) (m : Market) : Tx Unit :=
  Txn.when (m.marketType = .perps ∧ m.status = .active) do
    processMarketSample w o m.marketIndex params
    refreshMarkPrice w o m.marketIndex

def refreshMarkets (o : OracleStore) (params : FundingParams) : Tx Unit := do
  let markets ← Txn.read fun s => .ok s.market.markets.toList
  markets.forM (refreshMarket w o params)

def settlementDue : Query Bool := fun s =>
  let settleEvery := s.fundingParams.fundingPeriodMs
  if 0 < settleEvery then
    if s.lastFundingRoundTimestamp = 0 then return true
    else do
      let age ← w.int64 (s.now - s.lastFundingRoundTimestamp)
      return decide (settleEvery ≤ age)
  else return false

def fundingBeginBlocker (o : OracleStore) : Tx Unit := do
  let params ← Txn.read fun s => .ok s.fundingParams
  refreshMarkets w o params
  let due ← Txn.read (settlementDue w)
  if due then
    settleAllMarkets params
    Txn.write fun s => { s with lastFundingRoundTimestamp := s.now }
  else pure ()

end Words

/-! ### One market -/

/-- Milliseconds of the time in a block header, whose years have at most four digits. -/
def IsBlockTime (t : ℤ) : Prop := -62135596800000 ≤ t ∧ t ≤ 253402300799999

instance (t : ℤ) : Decidable (IsBlockTime t) := inferInstanceAs (Decidable (_ ∧ _))

/-- A price of the oracle that can be used. -/
@[mk_iff]
structure Reading (px : OraclePrice) : Prop where
  index_pos : 0 < px.indexPrice
  index_le : px.indexPrice ≤ maxUint32
  mark_pos : 0 < px.markPrice
  mark_le : px.markPrice ≤ maxUint32

instance (px : OraclePrice) : Decidable (Reading px) := decidable_of_iff _ (reading_iff px).symm

/-- A market that has been neither sampled nor refreshed. -/
@[mk_iff]
structure MarketDetails.Fresh (d : MarketDetails) : Prop where
  impactPrice : d.impactPrice = 0
  totalPremiumSamples : d.totalPremiumSamples = 0
  lastPremiumSampleTimestamp : d.lastPremiumSampleTimestamp = 0
  lastMarkPriceRefreshTimestamp : d.lastMarkPriceRefreshTimestamp = 0

instance (d : MarketDetails) : Decidable d.Fresh := decidable_of_iff _ d.fresh_iff.symm

/-- What the hook leaves of a market. -/
structure MarketDetails.Tame (cap : ℕ) (d : MarketDetails) : Prop where
  impact : d.impactPrice ≤ maxUint32
  sampled : IsBlockTime d.lastPremiumSampleTimestamp
  refreshed : IsBlockTime d.lastMarkPriceRefreshTimestamp
  ema : d.lastMarkPriceRefreshTimestamp ≠ 0 → |d.markPremiumEma| ≤ maxUint32
  count : d.totalPremiumSamples ≤ cap

/-- A premium was sampled only where there is a mark price. -/
def MarketDetails.Marked (d : MarketDetails) : Prop := 0 < d.totalPremiumSamples → 0 < d.markPrice

/-- A mark price that is not zero and lies between the oracle's and a price close to the index
price. -/
def MarkBound (px : OraclePrice) (markPrice : ℕ) : Prop :=
  0 < markPrice ∧ ∃ p : ℤ, |p - px.indexPrice| ≤ px.indexPrice / markPremiumClampDivisor ∧
    min (px.markPrice : ℤ) (min p maxUint32) ≤ markPrice ∧
      (markPrice : ℤ) ≤ max (px.markPrice : ℤ) (min p maxUint32)

theorem MarketDetails.Fresh.tame {d : MarketDetails} (h : d.Fresh) (cap : ℕ) : d.Tame cap where
  impact := h.impactPrice.trans_le (Nat.zero_le _)
  sampled := by
    rw [h.lastPremiumSampleTimestamp]
    decide
  refreshed := by
    rw [h.lastMarkPriceRefreshTimestamp]
    decide
  ema hne := absurd h.lastMarkPriceRefreshTimestamp hne
  count := h.totalPremiumSamples.trans_le (Nat.zero_le _)

section Exact

variable {d : MarketDetails} {cap : ℕ} {now : ℤ} {px : OraclePrice}

theorem IsBlockTime.sub {t t' : ℤ} (h : IsBlockTime t) (h' : IsBlockTime t') {w : Words Err}
    (hw : w.Exact) : w.int64 (t - t') = .ok (t - t') := by
  obtain ⟨hlo, hhi⟩ := h
  obtain ⟨hlo', hhi'⟩ := h'
  exact hw.int64 (by omega) (by omega)

theorem meanUint32_exact {a b : ℕ} (ha : a ≤ maxUint32) (hb : b ≤ maxUint32) {w : Words Err}
    (hw : w.Exact) : meanUint32 w a b = .ok ((a + b) / 2) := by
  unfold maxUint32 at ha hb
  rw [meanUint32, hw.uint64 (by omega)]
  exact hw.uint32 (by omega)

theorem median3Uint32_mem (a b c : ℕ) :
    min b c ≤ median3Uint32 a b c ∧ median3Uint32 a b c ≤ max b c := by
  have hsort : [a, b, c].mergeSort (fun x y => decide (x ≤ y)) = [a, b, c].insertionSort (· ≤ ·) :=
    List.mergeSort_eq_insertionSort (· ≤ ·) [a, b, c]
  rw [median3Uint32, hsort]
  by_cases hbc : b ≤ c <;> by_cases hab : a ≤ b <;> by_cases hac : a ≤ c <;>
    simp [hbc, hab, hac] <;> omega

theorem throttled_exact (hd : d.Tame cap) (hnow : IsBlockTime now) {w : Words Err} (hw : w.Exact) :
    d.throttled w now = d.throttled .machine now := by
  unfold MarketDetails.throttled
  split
  · rfl
  · rw [hnow.sub hd.sampled hw, hnow.sub hd.sampled Words.machine_exact]

theorem excess_exact {a b : ℤ} (ha : 0 ≤ a ∧ a ≤ maxUint32) (hb : 0 ≤ b ∧ b ≤ maxUint32) :
    ∃ r : ℤ, |r| ≤ maxUint32 ∧ ∀ w : Words Err, w.Exact → excess w a b = .ok r := by
  unfold excess
  have hmax : (maxUint32 : ℤ) < 2 ^ 63 := by decide
  split
  · exact ⟨a - b, by rw [abs_le]; omega, fun w hw => hw.int64 (by omega) (by omega)⟩
  · exact ⟨0, by decide, fun w _ => rfl⟩

theorem premiumSample_exact {bidImp askImp idx : ℕ} (hbid : bidImp ≤ maxUint32)
    (hask : askImp ≤ maxUint32) (hidx : idx ≤ maxUint32) :
    ∃ p, ∀ w : Words Err, w.Exact → premiumSample w bidImp askImp idx = .ok p := by
  have hmax : (maxUint32 : ℤ) < 2 ^ 62 := by decide
  obtain ⟨pos, hpos', hpos⟩ := excess_exact (a := bidImp) (b := idx) (by omega) (by omega)
  obtain ⟨neg, hneg', hneg⟩ := excess_exact (a := idx) (b := askImp) (by omega) (by omega)
  rw [abs_le] at hpos' hneg'
  refine ⟨((pos - neg) * fundingRateTick).tdiv idx, fun w hw => ?_⟩
  rw [premiumSample, hpos w hw]
  show (excess w idx askImp >>= _) = _
  rw [hneg w hw]
  show (w.int64 (pos - neg) >>= _) = _
  rw [hw.int64 (by omega) (by omega)]
  rfl

theorem impactMid_exact {bidImp askImp : ℕ} (hbid : bidImp ≤ maxUint32)
    (hask : askImp ≤ maxUint32) :
    ∃ r ≤ maxUint32, ∀ w : Words Err, w.Exact → impactMid w bidImp askImp = .ok r := by
  unfold impactMid
  split
  · exact ⟨(bidImp + askImp) / 2, by omega, fun w hw => meanUint32_exact hbid hask hw⟩
  · exact ⟨0, Nat.zero_le _, fun w _ => rfl⟩

/-- **A sample overflows no word**, writes no mark price, and counts only if the oracle answers. -/
theorem MarketDetails.withSample_exact (params : FundingParams) (hd : d.Tame cap)
    (hcap : params.maxPremiumSampleCount = cap) (hpos : 0 < cap) (hmax : cap ≤ maxUint32)
    {bidImp askImp : ℕ} (hbid : bidImp ≤ maxUint32) (hask : askImp ≤ maxUint32)
    {price : Except Err OraclePrice} (hprice : ∀ px, price = .ok px → Reading px)
    (hnow : IsBlockTime now) :
    ∃ d', (∀ w : Words Err, w.Exact → d.withSample w params bidImp askImp price now = .ok d') ∧
      d'.Tame cap ∧ d'.marketIndex = d.marketIndex ∧ d'.markPrice = d.markPrice ∧
      d'.lastMarkPriceRefreshTimestamp = d.lastMarkPriceRefreshTimestamp ∧
      ∀ e, price = .error e → d'.totalPremiumSamples = d.totalPremiumSamples := by
  obtain ⟨impact, himpact_le, himpact⟩ := impactMid_exact hbid hask
  cases price with
  | error e =>
    refine ⟨{ d with impactBidPrice := bidImp, impactAskPrice := askImp, impactPrice := impact },
      fun w hw => ?_, ⟨himpact_le, hd.sampled, hd.refreshed, hd.ema, hd.count⟩, rfl, rfl, rfl,
      fun _ _ => rfl⟩
    rw [MarketDetails.withSample, himpact w hw]
    rfl
  | ok px =>
    have hpx := hprice px rfl
    by_cases hskip : bidImp = 0 ∨ askImp = 0 ∨ px.indexPrice = 0
    · refine ⟨{ d with
          impactBidPrice := bidImp
          impactAskPrice := askImp
          impactPrice := impact
          indexPrice := px.indexPrice
          lastPremiumSampleTimestamp := now }, fun w hw => ?_,
        ⟨himpact_le, hnow, hd.refreshed, hd.ema, hd.count⟩, rfl, rfl, rfl, fun _ h => nomatch h⟩
      rw [MarketDetails.withSample, himpact w hw]
      exact if_pos hskip
    · obtain ⟨premium, hpremium⟩ := premiumSample_exact hbid hask hpx.index_le
      by_cases hroom : d.totalPremiumSamples < cap
      · refine ⟨{ d with
            impactBidPrice := bidImp
            impactAskPrice := askImp
            impactPrice := impact
            indexPrice := px.indexPrice
            aggregatePremiumSum := d.aggregatePremiumSum + premium
            totalPremiumSamples := d.totalPremiumSamples + 1
            lastPremiumSampleTimestamp := now }, fun w hw => ?_,
          ⟨himpact_le, hnow, hd.refreshed, hd.ema, hroom⟩, rfl, rfl, rfl, fun _ h => nomatch h⟩
        have hcount : d.totalPremiumSamples + 1 < 2 ^ 32 := by
          unfold maxUint32 at hmax
          omega
        rw [MarketDetails.withSample, himpact w hw]
        refine (if_neg hskip).trans ?_
        rw [hpremium w hw]
        refine (if_pos (.inr (hcap ▸ hroom))).trans ?_
        rw [hw.uint32 hcount]
        rfl
      · refine ⟨{ d with
            impactBidPrice := bidImp
            impactAskPrice := askImp
            impactPrice := impact
            indexPrice := px.indexPrice
            lastPremiumSampleTimestamp := now }, fun w hw => ?_,
          ⟨himpact_le, hnow, hd.refreshed, hd.ema, hd.count⟩, rfl, rfl, rfl, fun _ h => nomatch h⟩
        rw [MarketDetails.withSample, himpact w hw]
        refine (if_neg hskip).trans ?_
        have hfull : ¬ (params.maxPremiumSampleCount = 0 ∨
            d.totalPremiumSamples < params.maxPremiumSampleCount) := by
          rw [hcap]
          omega
        rw [hpremium w hw]
        exact if_neg hfull

theorem clampedPremium_exact {impact idx : ℕ} (bound : ℤ) (himpact : impact ≤ maxUint32)
    (hidx : idx ≤ maxUint32) (hbound : 0 ≤ bound ∧ bound ≤ maxUint32) :
    ∃ r : ℤ, |r| ≤ maxUint32 ∧
      ∀ w : Words Err, w.Exact → clampedPremium w impact idx bound = .ok r := by
  have hmax : (maxUint32 : ℤ) < 2 ^ 62 := by decide
  unfold clampedPremium
  split
  · obtain ⟨hlo, hhi⟩ := @clampInt_mem (impact - idx) (-bound) bound (by omega)
    refine ⟨clampInt64 (impact - idx) (-bound) bound, ?_, fun w hw => ?_⟩
    · unfold clampInt64
      rw [abs_le]
      omega
    · rw [hw.int64 (by omega) (by omega)]
      rfl
  · exact ⟨0, by decide, fun w _ => rfl⟩

theorem emaStep_exact (prev : ℤ) {raw : ℤ} (dt tau : ℤ) (reset : Bool)
    (hprev : reset = false → |prev| ≤ maxUint32) (hraw : |raw| ≤ maxUint32) :
    ∃ e, ∀ w : Words Err, w.Exact → emaStep w prev raw dt tau reset = .ok e := by
  have hmax : (maxUint32 : ℤ) < 2 ^ 60 := by decide
  unfold emaStep
  split
  · exact ⟨raw, fun w _ => rfl⟩
  · rename_i hstep
    obtain ⟨-, hreset, hlt⟩ := not_or.mp hstep |>.imp_right not_or.mp
    split
    · exact ⟨prev, fun w _ => rfl⟩
    · rename_i hdt
      have hprev := hprev (Bool.eq_false_iff.mpr hreset)
      rw [abs_le] at hprev hraw
      have hdelta := abs_mul_tdiv_le (raw - prev) (not_le.mp hdt).le (not_le.mp hlt).le
      have hdiff : |raw - prev| ≤ 2 ^ 61 := by
        rw [abs_le]
        omega
      have hsize := abs_le.mp (hdelta.trans hdiff)
      refine ⟨if ((raw - prev) * dt).tdiv tau = 0 then prev
        else prev + ((raw - prev) * dt).tdiv tau, fun w hw => ?_⟩
      rw [hw.int64 (by omega) (by omega)]
      show (if ((raw - prev) * dt).tdiv tau = 0 then _ else _) = _
      split
      · rfl
      · rw [int64Of, if_pos (by omega)]
        exact hw.int64 (by omega) (by omega)

/-- **A new mark price lies between the two prices that do not come from the book.** -/
theorem chooseMarkPrice_exact (impact : ℕ) {price1 price2 : ℕ} (h₁ : 0 < price1 ∧ price1 ≤ maxUint32)
    (h₂ : 0 < price2 ∧ price2 ≤ maxUint32) :
    ∃ mark, (∀ w : Words Err, w.Exact →
      chooseMarkPrice w impact price1 price2 = .ok (some mark)) ∧
      min price1 price2 ≤ mark ∧ mark ≤ max price1 price2 := by
  unfold chooseMarkPrice
  by_cases himpact : impact = 0
  · refine ⟨(price1 + price2) / 2, fun w hw => ?_, by omega, by omega⟩
    rw [if_neg (by omega), if_neg (by omega), if_neg (by omega), if_pos (by omega),
      meanUint32_exact h₁.2 h₂.2 hw]
    rfl
  · obtain ⟨hlo, hhi⟩ := median3Uint32_mem impact price1 price2
    refine ⟨median3Uint32 impact price1 price2, fun w hw => ?_, hlo, hhi⟩
    rw [if_pos (by omega)]
    rfl

theorem clampUint32_eq {v : ℤ} (h : 0 ≤ v) : (clampUint32 v : ℤ) = min v maxUint32 := by
  unfold clampUint32
  rw [if_neg (not_lt.mpr h)]
  split
  · omega
  · omega

/-- **A refresh overflows no word, and its mark price is bounded.** -/
theorem MarketDetails.refreshed_exact (hd : d.Tame cap) (hpx : Reading px)
    (hnow : IsBlockTime now) :
    ∃ d', (∀ w : Words Err, w.Exact → d.refreshed w px now = .ok (some d')) ∧ d'.Tame cap ∧
      d'.marketIndex = d.marketIndex ∧ MarkBound px d'.markPrice := by
  set idx := (px.indexPrice : ℤ) with hidx
  set bound := idx.tdiv markPremiumClampDivisor with hbound
  have hmax : (maxUint32 : ℤ) < 2 ^ 60 := by decide
  have hindex : 0 < idx ∧ idx ≤ maxUint32 := by
    have := hpx.index_pos
    have := hpx.index_le
    omega
  have hquot : bound = idx / markPremiumClampDivisor := Int.tdiv_eq_ediv_of_nonneg hindex.1.le
  have hband : 0 ≤ bound ∧ bound < idx := by
    rw [hquot]
    unfold markPremiumClampDivisor
    omega
  obtain ⟨raw, hraw_le, hraw⟩ := clampedPremium_exact bound hd.impact hpx.index_le (by omega)
  obtain ⟨e, he⟩ := emaStep_exact d.markPremiumEma (now - d.lastMarkPriceRefreshTimestamp)
    markPremiumEmaTauMs (decide (d.lastMarkPriceRefreshTimestamp = 0))
    (fun h => hd.ema (of_decide_eq_false h)) hraw_le
  set ema := clampInt64 e (-bound) bound with hema
  obtain ⟨hlo, hhi⟩ : -bound ≤ ema ∧ ema ≤ bound := clampInt_mem (by omega)
  have hprice1 : (clampUint32 (idx + ema) : ℤ) = min (idx + ema) maxUint32 :=
    clampUint32_eq (by omega)
  have hprice1' : 0 < clampUint32 (idx + ema) ∧ clampUint32 (idx + ema) ≤ maxUint32 := by
    omega
  obtain ⟨mark, hmark, hmark_lo, hmark_hi⟩ := chooseMarkPrice_exact d.impactPrice
    hprice1' ⟨hpx.mark_pos, hpx.mark_le⟩
  refine ⟨{ d with
      indexPrice := px.indexPrice
      markPrice := mark
      markPremiumEma := ema
      lastMarkPriceRefreshTimestamp := now }, fun w hw => ?_,
    ⟨hd.impact, hd.sampled, hnow, fun _ => ?_, hd.count⟩, rfl, ?_, idx + ema, ?_, ?_, ?_⟩
  · rw [MarketDetails.refreshed, if_pos hpx.index_pos.ne']
    show (clampedPremium w d.impactPrice idx bound >>= _) = _
    rw [hraw w hw]
    show (w.int64 (now - d.lastMarkPriceRefreshTimestamp) >>= _) = _
    rw [hnow.sub hd.refreshed hw]
    show (emaStep w d.markPremiumEma raw _ _ _ >>= _) = _
    rw [he w hw]
    show (w.int64 (idx + if 0 < idx then clampInt64 e (-bound) bound else e) >>= _) = _
    rw [if_pos hindex.1, ← hema, hw.int64 (by omega) (by omega)]
    show (chooseMarkPrice w d.impactPrice (clampUint32 (idx + ema)) px.markPrice >>= _) = _
    rw [hmark w hw]
    rfl
  · show |ema| ≤ maxUint32
    rw [abs_le]
    omega
  · exact (lt_min hprice1'.1 hpx.mark_pos).trans_le hmark_lo
  · rw [← hquot, add_sub_cancel_left, abs_le]
    exact ⟨hlo, hhi⟩
  · have hlo' := Int.ofNat_le.mpr hmark_lo
    rw [Nat.cast_min, hprice1, min_comm] at hlo'
    exact hlo'
  · have hhi' := Int.ofNat_le.mpr hmark_hi
    rw [Nat.cast_max, hprice1, max_comm] at hhi'
    exact hhi'

end Exact

/-! ### One block -/

theorem computeImpactPrice_le {market : ℕ} {isAsk : Bool} {s : State} {r : ℕ}
    (h : computeImpactPrice market isAsk s = .ok r) : r ≤ maxUint32 := by
  obtain ⟨notional, -, h⟩ := except_bind_ok.mp h
  split at h
  · cases h
    exact Nat.zero_le _
  · obtain ⟨acc, -, h⟩ := except_bind_ok.mp h
    cases h
    unfold impactAverage maxUint32
    split
    · exact Nat.zero_le _
    · split
      · exact Nat.le_pred_of_lt (Nat.mod_lt _ (by decide))
      · exact Nat.le_pred_of_lt (Nat.mod_lt _ (by decide))

theorem run_logged_read {α : Type} {q : Query α} {s t : State} {r : Except Err α}
    (h : (logged (Txn.read q)).run s = .ok r t) : t = s ∧ ∀ a, r = .ok a → q s = .ok a := by
  rcases run_attempt_ok.mp h with ⟨a, rfl, hread⟩ | ⟨e, rfl, -, hread⟩
  · obtain ⟨hq, rfl⟩ := run_read_ok.mp hread
    refine ⟨rfl, fun a' ha' => ?_⟩
    cases ha'
    exact hq
  · obtain ⟨-, rfl⟩ := run_read_error.mp hread
    exact ⟨rfl, fun a' ha' => nomatch ha'⟩

/-- Only the details of market `m` differ, and they are related. -/
structure DetailsStep (R : MarketDetails → MarketDetails → Prop) (m : ℕ) (s t : State) : Prop where
  frame : t = { s with market := { s.market with marketDetails := t.market.marketDetails } }
  other : ∀ m', m' ≠ m → t.market.marketDetails.get m' = s.market.marketDetails.get m'
  self : ∀ d', t.market.marketDetails.get m = some d' →
    ∃ d, s.market.marketDetails.get m = some d ∧ R d d'

namespace DetailsStep

variable {R R' : MarketDetails → MarketDetails → Prop} {m : ℕ} {s t u : State}

theorem refl (h : ∀ d, s.market.marketDetails.get m = some d → R d d) : DetailsStep R m s s :=
  ⟨rfl, fun _ _ => rfl, fun d hd => ⟨d, hd, h d hd⟩⟩

theorem of_put {d d' : MarketDetails} (hget : s.market.marketDetails.get m = some d)
    (hidx : d'.marketIndex = d.marketIndex) (hR : R d d') : DetailsStep R m s (s.putDetails d') := by
  have hkey : d'.marketIndex = m := hidx.trans (Table.key_of_get hget)
  refine ⟨rfl, fun m' hne => ?_, fun d'' hd'' => ?_⟩
  · exact Table.get_put_ne _ (by rw [hkey]; exact hne)
  · rw [← hkey] at hd''
    cases (Table.get_put_self _ _).symm.trans hd''
    exact ⟨d, hget, hR⟩

theorem trans {R'' : MarketDetails → MarketDetails → Prop} (h : DetailsStep R m s t)
    (h' : DetailsStep R' m t u) (hR : ∀ d d' d'', R d d' → R' d' d'' → R'' d d'') :
    DetailsStep R'' m s u where
  frame := by
    rw [h'.frame, h.frame]
  other m' hne := (h'.other m' hne).trans (h.other m' hne)
  self d'' hd'' := by
    obtain ⟨d', hd', hR'⟩ := h'.self d'' hd''
    obtain ⟨d, hd, hR₁⟩ := h.self d' hd'
    exact ⟨d, hd, hR d d' d'' hR₁ hR'⟩

end DetailsStep

/-- All markets are as the hook leaves them, at the time of a block. -/
structure Calm (s : State) : Prop where
  now : IsBlockTime s.now
  round : IsBlockTime s.lastFundingRoundTimestamp
  cap_pos : 0 < s.fundingParams.maxPremiumSampleCount
  cap_le : s.fundingParams.maxPremiumSampleCount ≤ maxUint32
  tame : ∀ m d, s.market.marketDetails.get m = some d →
    d.Tame s.fundingParams.maxPremiumSampleCount

/-- What the hook does with the details of one market. -/
def Sampled (cap : ℕ) (price : Except Err OraclePrice) (d d' : MarketDetails) : Prop :=
  d'.Tame cap ∧ d'.markPrice = d.markPrice ∧
    d'.lastMarkPriceRefreshTimestamp = d.lastMarkPriceRefreshTimestamp ∧
    ∀ e, price = .error e → d'.totalPremiumSamples = d.totalPremiumSamples

def Refreshed (cap : ℕ) (price : Except Err OraclePrice) (d d' : MarketDetails) : Prop :=
  d'.Tame cap ∧ ((∃ px, price = .ok px ∧ MarkBound px d'.markPrice) ∨
    (∃ e, price = .error e) ∧ d'.markPrice = d.markPrice ∧
      d'.lastMarkPriceRefreshTimestamp = d.lastMarkPriceRefreshTimestamp ∧
      d'.totalPremiumSamples = d.totalPremiumSamples)

section Block

variable {o : OracleStore} {s : State} {m : ℕ}

theorem processMarketSample_exactly (hs : Calm s)
    (ho : ∀ px, o.getPrice s.now m = .ok px → Reading px) :
    Exactly (· = s) (fun w => processMarketSample w o m s.fundingParams) fun _ t =>
      DetailsStep (Sampled s.fundingParams.maxPremiumSampleCount (o.getPrice s.now m)) m s t := by
  have hstay : Exactly (· = s) (fun _ : Words Err => (pure () : Tx Unit)) fun _ t =>
      DetailsStep (Sampled s.fundingParams.maxPremiumSampleCount (o.getPrice s.now m)) m s t :=
    .pure fun t ht => by
      rw [ht]
      exact .refl fun d hd => ⟨hs.tame m d hd, rfl, rfl, fun _ _ => rfl⟩
  refine .read_bind (fun _ _ => rfl) fun r hread => ?_
  cases hread
  cases hget : s.market.marketDetails.get m with
  | none => exact hstay
  | some d =>
    have hd := hs.tame m d hget
    refine .read_bind (fun w hw => throttled_exact hd hs.now hw) fun throttled _ => ?_
    cases throttled with
    | true => exact hstay
    | false =>
      refine .const_bind fun bid t hbid => ?_
      obtain ⟨rfl, hbid⟩ := run_logged_read hbid
      cases bid with
      | error e => exact hstay
      | ok bidImp =>
        refine .const_bind fun ask t hask => ?_
        obtain ⟨rfl, hask⟩ := run_logged_read hask
        cases ask with
        | error e => exact hstay
        | ok askImp =>
          obtain ⟨d', hd', htame, hidx, hmark, hlast, hcount⟩ := MarketDetails.withSample_exact
            t.fundingParams hd rfl hs.cap_pos hs.cap_le
            (computeImpactPrice_le (hbid bidImp rfl)) (computeImpactPrice_le (hask askImp rfl))
            ho hs.now
          refine .read_bind (fun w hw => (hd' w hw).trans (hd' .machine Words.machine_exact).symm)
            fun d'' hd'' => ?_
          cases (hd' .machine Words.machine_exact).symm.trans hd''
          refine .write fun u hu => ?_
          rw [hu]
          exact .of_put hget hidx ⟨htame, hmark, hlast, hcount⟩

theorem refreshMarkPrice_exactly (hs : Calm s)
    (ho : ∀ px, o.getPrice s.now m = .ok px → Reading px) :
    Exactly (· = s) (fun w => refreshMarkPrice w o m) fun _ t =>
      DetailsStep (Refreshed s.fundingParams.maxPremiumSampleCount (o.getPrice s.now m)) m s t := by
  refine .read_bind (fun _ _ => rfl) fun r hread => ?_
  cases hread
  cases hget : s.market.marketDetails.get m with
  | none =>
    refine .pure fun t ht => ?_
    rw [ht]
    exact .refl fun d hd => nomatch hget.symm.trans hd
  | some d =>
    refine .read_bind (fun _ _ => rfl) fun price hprice => ?_
    cases hprice
    cases hprice : o.getPrice s.now m with
    | error e =>
      refine .pure fun t ht => ?_
      rw [ht]
      exact .refl fun d hd => ⟨hs.tame m d hd, .inr ⟨⟨e, rfl⟩, rfl, rfl, rfl⟩⟩
    | ok px =>
      obtain ⟨d', hd', htame, hidx, hmark⟩ :=
        MarketDetails.refreshed_exact (hs.tame m d hget) (ho px hprice) hs.now
      refine .read_bind (fun w hw => (hd' w hw).trans (hd' .machine Words.machine_exact).symm)
        fun r hr => ?_
      cases (hd' .machine Words.machine_exact).symm.trans hr
      refine .write fun u hu => ?_
      rw [hu]
      exact .of_put hget hidx ⟨htame, .inl ⟨px, rfl, hmark⟩⟩

theorem DetailsStep.calm {R : MarketDetails → MarketDetails → Prop} {t : State}
    (h : DetailsStep R m s t) (hs : Calm s)
    (hR : ∀ d d', R d d' → d'.Tame s.fundingParams.maxPremiumSampleCount) : Calm t := by
  rw [h.frame]
  refine ⟨hs.now, hs.round, hs.cap_pos, hs.cap_le, fun m' d' hd' => ?_⟩
  by_cases hm : m' = m
  · subst hm
    obtain ⟨d, -, hRd⟩ := h.self d' hd'
    exact hR d d' hRd
  · exact hs.tame m' d' ((h.other m' hm).symm.trans hd')

theorem refreshMarket_exactly (hs : Calm s) (mk : Market)
    (ho : ∀ px, o.getPrice s.now mk.marketIndex = .ok px → Reading px) :
    Exactly (· = s) (fun w => refreshMarket w o s.fundingParams mk) fun _ t =>
      t = s ∨ DetailsStep (Refreshed s.fundingParams.maxPremiumSampleCount
        (o.getPrice s.now mk.marketIndex)) mk.marketIndex s t := by
  refine .when (fun _ => ?_) fun _ _ ht => .inl ht
  refine (processMarketSample_exactly hs ho).bind fun _ => .of_forall fun t hsample => ?_
  have ht : Calm t := hsample.calm hs fun _ _ h => h.1
  have hnow : t.now = s.now := by
    rw [hsample.frame]
  have hparams : t.fundingParams = s.fundingParams := by
    rw [hsample.frame]
  have hrefresh := refreshMarkPrice_exactly (m := mk.marketIndex) ht (by rw [hnow]; exact ho)
  rw [hnow, hparams] at hrefresh
  refine hrefresh.mono (fun _ h => h) fun _ u hu => .inr (hsample.trans hu ?_)
  rintro d d' d'' ⟨-, hmark, hlast, hcount⟩ ⟨htame, hnew | ⟨⟨e, he⟩, hmark', hlast', hcount'⟩⟩
  · exact ⟨htame, .inl hnew⟩
  · exact ⟨htame, .inr ⟨⟨e, he⟩, hmark'.trans hmark, hlast'.trans hlast,
      hcount'.trans (hcount e he)⟩⟩

end Block

/-- Nothing of a mark price or of its inputs is written; samples may be dropped. -/
structure MarketDetails.Kept (d d' : MarketDetails) : Prop where
  markPrice : d'.markPrice = d.markPrice
  markPremiumEma : d'.markPremiumEma = d.markPremiumEma
  impactPrice : d'.impactPrice = d.impactPrice
  lastMarkPriceRefreshTimestamp :
    d'.lastMarkPriceRefreshTimestamp = d.lastMarkPriceRefreshTimestamp
  lastPremiumSampleTimestamp : d'.lastPremiumSampleTimestamp = d.lastPremiumSampleTimestamp
  totalPremiumSamples : d'.totalPremiumSamples ≤ d.totalPremiumSamples

namespace MarketDetails.Kept

variable {d d' d'' : MarketDetails} {cap : ℕ}

theorem refl (d : MarketDetails) : d.Kept d := ⟨rfl, rfl, rfl, rfl, rfl, le_rfl⟩

theorem trans (h : d.Kept d') (h' : d'.Kept d'') : d.Kept d'' where
  markPrice := h'.markPrice.trans h.markPrice
  markPremiumEma := h'.markPremiumEma.trans h.markPremiumEma
  impactPrice := h'.impactPrice.trans h.impactPrice
  lastMarkPriceRefreshTimestamp :=
    h'.lastMarkPriceRefreshTimestamp.trans h.lastMarkPriceRefreshTimestamp
  lastPremiumSampleTimestamp := h'.lastPremiumSampleTimestamp.trans h.lastPremiumSampleTimestamp
  totalPremiumSamples := h'.totalPremiumSamples.trans h.totalPremiumSamples

theorem tame (h : d.Kept d') (hd : d.Tame cap) : d'.Tame cap where
  impact := h.impactPrice.trans_le hd.impact
  sampled := by
    rw [h.lastPremiumSampleTimestamp]
    exact hd.sampled
  refreshed := by
    rw [h.lastMarkPriceRefreshTimestamp]
    exact hd.refreshed
  ema hne := by
    rw [h.lastMarkPriceRefreshTimestamp] at hne
    rw [h.markPremiumEma]
    exact hd.ema hne
  count := h.totalPremiumSamples.trans hd.count

theorem marked (h : d.Kept d') (hd : d.Marked) : d'.Marked := fun hpos => by
  rw [h.markPrice]
  exact hd (hpos.trans_le h.totalPremiumSamples)

theorem fresh (h : d.Kept d') (hd : d.Fresh) : d'.Fresh where
  impactPrice := h.impactPrice.trans hd.impactPrice
  totalPremiumSamples := Nat.le_zero.mp (h.totalPremiumSamples.trans hd.totalPremiumSamples.le)
  lastPremiumSampleTimestamp := h.lastPremiumSampleTimestamp.trans hd.lastPremiumSampleTimestamp
  lastMarkPriceRefreshTimestamp :=
    h.lastMarkPriceRefreshTimestamp.trans hd.lastMarkPriceRefreshTimestamp

end MarketDetails.Kept

/-- Only details differ, and no mark price. -/
structure DetailsKept (s t : State) : Prop where
  frame : t = { s with market := { s.market with marketDetails := t.market.marketDetails } }
  kept : ∀ m d', t.market.marketDetails.get m = some d' →
    ∃ d, s.market.marketDetails.get m = some d ∧ d.Kept d'

instance : IsPreorder State DetailsKept where
  refl s := ⟨rfl, fun _ d hd => ⟨d, hd, .refl d⟩⟩
  trans s t u h h' := by
    refine ⟨by rw [h'.frame, h.frame], fun m d'' hd'' => ?_⟩
    obtain ⟨d', hd', hk'⟩ := h'.kept m d'' hd''
    obtain ⟨d, hd, hk⟩ := h.kept m d' hd'
    exact ⟨d, hd, hk.trans hk'⟩

theorem settleMarket_detailsKept (m : ℕ) (params : FundingParams) :
    Keeps DetailsKept (settleMarket m params) := by
  intro s
  rw [after, settleMarket_run]
  cases hget : s.market.marketDetails.get m with
  | none => exact refl_of DetailsKept s
  | some d =>
    show DetailsKept s (if d.totalPremiumSamples ≠ 0 then _ else _)
    split
    · have hstep : DetailsStep MarketDetails.Kept m s (s.putDetails (d.closeRound params)) :=
        .of_put hget rfl ⟨rfl, rfl, rfl, rfl, rfl, Nat.zero_le _⟩
      refine ⟨hstep.frame, fun m' d' hd' => ?_⟩
      by_cases hm : m' = m
      · subst hm
        exact hstep.self d' hd'
      · exact ⟨d', (hstep.other m' hm).symm.trans hd', .refl d'⟩
    · exact refl_of DetailsKept s

theorem settleAllMarkets_detailsKept (params : FundingParams) :
    Keeps DetailsKept (settleAllMarkets params) :=
  Keeps.read.bind fun _ => Keeps.forM fun _ _ => Keeps.when fun _ =>
    settleMarket_detailsKept _ params

/-- Every answer of the oracle can be used. -/
def Readable (o : OracleStore) (s : State) : Prop :=
  ∀ m px, o.getPrice s.now m = .ok px → Reading px

theorem OracleStore.stored_of_getPrice {o : OracleStore} {now : ℤ} {m : ℕ} {px : OraclePrice}
    (h : o.getPrice now m = .ok px) : o.prices.get m = some px := by
  obtain ⟨p, hp, h⟩ := except_bind_ok.mp h
  have hpx : p = px := by
    split_ifs at h
    · exact Except.ok.inj h
    · dsimp only at h
      split_ifs at h
      exact Except.ok.inj h
  rw [OracleStore.getStoredPrice] at hp
  split at hp
  · rename_i p' hget
    rw [hget, ← hpx, Except.ok.inj hp]
  · cases hp

theorem Readable.of_rows {o : OracleStore} {s : State} (h : ∀ px ∈ o.prices.toList, Reading px) :
    Readable o s :=
  fun _ px hpx => h px (Table.mem_toList (OracleStore.stored_of_getPrice hpx))

/-- Samples stand only where there is a mark price. -/
def AllMarked (s : State) : Prop := ∀ m d, s.market.marketDetails.get m = some d → d.Marked

/-- Every mark price is bounded by the oracle's price or has not been written since `s`. -/
def Bounded (o : OracleStore) (s t : State) : Prop :=
  ∀ m d', t.market.marketDetails.get m = some d' →
    (∃ px, o.getPrice s.now m = .ok px ∧ MarkBound px d'.markPrice) ∨
      ∃ d, s.market.marketDetails.get m = some d ∧ d'.markPrice = d.markPrice ∧
        d'.lastMarkPriceRefreshTimestamp = d.lastMarkPriceRefreshTimestamp

/-- What the loop of the hook makes of a chain. -/
structure Advanced (o : OracleStore) (s t : State) : Prop where
  frame : t = { s with market := { s.market with marketDetails := t.market.marketDetails } }
  calm : Calm t
  marked : AllMarked t
  bounded : Bounded o s t

section Hook

variable {o : OracleStore} {s t u : State}

theorem Advanced.step {m : ℕ} (h : Advanced o s t)
    (hstep : DetailsStep (Refreshed t.fundingParams.maxPremiumSampleCount (o.getPrice t.now m)) m t u) :
    Advanced o s u := by
  have hnow : t.now = s.now := by
    rw [h.frame]
  refine ⟨by rw [hstep.frame, h.frame], hstep.calm h.calm fun _ _ hR => hR.1, fun m' d' hd' => ?_,
    fun m' d' hd' => ?_⟩
  · by_cases hm : m' = m
    · subst hm
      obtain ⟨d, hd, -, ⟨px, -, hbound⟩ | ⟨-, hmark, -, hcount⟩⟩ := hstep.self d' hd'
      · exact fun _ => hbound.1
      · intro hpos
        rw [hmark]
        exact h.marked m' d hd (hcount ▸ hpos)
    · exact h.marked m' d' ((hstep.other m' hm).symm.trans hd')
  · by_cases hm : m' = m
    · subst hm
      obtain ⟨d, hd, -, ⟨px, hpx, hbound⟩ | ⟨-, hmark, hlast, -⟩⟩ := hstep.self d' hd'
      · exact .inl ⟨px, hnow ▸ hpx, hbound⟩
      · rw [hmark, hlast]
        exact h.bounded m' d hd
    · exact h.bounded m' d' ((hstep.other m' hm).symm.trans hd')

theorem refreshMarkets_exactly (hs : Calm s) (hmarked : AllMarked s) (ho : Readable o s) :
    Exactly (· = s) (fun w => refreshMarkets w o s.fundingParams) fun _ t => Advanced o s t := by
  refine .read_bind (fun _ _ => rfl) fun markets _ => ?_
  have hloop : Exactly (Advanced o s) (fun w => markets.forM (refreshMarket w o s.fundingParams))
      fun _ t => Advanced o s t := by
    refine .forM fun mk _ => .of_forall fun t ht => ?_
    have hnow : t.now = s.now := by
      rw [ht.frame]
    have hparams : t.fundingParams = s.fundingParams := by
      rw [ht.frame]
    have hmarket := refreshMarket_exactly ht.calm mk
      fun px hpx => ho mk.marketIndex px (hnow ▸ hpx)
    rw [hparams] at hmarket
    refine hmarket.mono (fun _ h => h) fun _ u hu => ?_
    rcases hu with rfl | hu
    · exact ht
    · exact ht.step (by rw [hparams]; exact hu)
  refine hloop.mono (fun t ht => ?_) fun _ _ h => h
  rw [ht]
  exact ⟨rfl, hs, hmarked, fun m d hd => .inr ⟨d, hd, rfl, rfl⟩⟩

theorem settlementDue_exact (hs : Calm s) {w : Words Err} (hw : w.Exact) :
    settlementDue w s = settlementDue .machine s := by
  unfold settlementDue
  dsimp only
  split
  · split
    · rfl
    · rw [hs.now.sub hs.round hw, hs.now.sub hs.round Words.machine_exact]
  · rfl

theorem Advanced.settled (h : Advanced o s t) (hkept : DetailsKept t u) : Advanced o s u := by
  have hframe := hkept.frame
  refine ⟨by rw [hframe, h.frame], ?_, fun m d' hd' => ?_, fun m d' hd' => ?_⟩
  · rw [hframe]
    refine ⟨h.calm.now, h.calm.round, h.calm.cap_pos, h.calm.cap_le, fun m d' hd' => ?_⟩
    obtain ⟨d, hd, hk⟩ := hkept.kept m d' hd'
    exact hk.tame (h.calm.tame m d hd)
  · obtain ⟨d, hd, hk⟩ := hkept.kept m d' hd'
    exact hk.marked (h.marked m d hd)
  · obtain ⟨d, hd, hk⟩ := hkept.kept m d' hd'
    rw [hk.markPrice, hk.lastMarkPriceRefreshTimestamp]
    exact h.bounded m d hd

structure BlockEffect (o : OracleStore) (s t : State) : Prop where
  params : t.fundingParams = s.fundingParams
  calm : Calm t
  marked : AllMarked t
  bounded : Bounded o s t

theorem Advanced.blockEffect (h : Advanced o s t) : BlockEffect o s t where
  params := by
    rw [h.frame]
  calm := h.calm
  marked := h.marked
  bounded := h.bounded

theorem fundingBeginBlocker_exactly (hs : Calm s) (hmarked : AllMarked s) (ho : Readable o s) :
    Exactly (· = s) (fun w => fundingBeginBlocker w o) fun _ t => BlockEffect o s t := by
  refine .read_bind (fun _ _ => rfl) fun params hparams => ?_
  cases hparams
  refine (refreshMarkets_exactly hs hmarked ho).bind fun _ => .of_forall fun t ht => ?_
  refine .read_bind (fun w hw => settlementDue_exact ht.calm hw) fun due _ => ?_
  cases due with
  | false => exact .pure fun u hu => by rw [hu]; exact ht.blockEffect
  | true =>
    refine .const_bind fun _ u hsettle => .write fun v hv => ?_
    have hu := ht.settled ((settleAllMarkets_detailsKept _).ok hsettle)
    rw [hv]
    exact ⟨hu.blockEffect.params, ⟨hu.calm.now, hu.calm.now, hu.calm.cap_pos, hu.calm.cap_le,
      hu.calm.tame⟩, hu.marked, hu.bounded⟩

end Hook

end PerpDex
