/-
Pure arithmetic of a perpetual position (`x/account/types/position_math.go`).

* `AccountPosition.applyFill` — open, increase, decrease or close, flip;
* `fillGap` — by how much a fill changes the holder's equity beyond its value at the mark price.

`math.Int.Quo` truncates toward zero, so it is `Int.tdiv`.
-/
import PerpDex.Arith
import PerpDex.Types

namespace PerpDex

/-- Both arguments are non-zero and have the same sign. -/
def isSameSide (a b : ℤ) : Bool :=
  if a = 0 ∨ b = 0 then false else decide (a < 0) == decide (b < 0)

theorem isSameSide_iff {a b : ℤ} : isSameSide a b = true ↔ 0 < a * b := by
  unfold isSameSide
  split
  · rename_i h
    rcases h with rfl | rfl <;> simp
  · rename_i h
    push Not at h
    rw [beq_iff_eq, decide_eq_decide, mul_pos_iff]
    omega

/-- The size came closer to zero and did not cross it. -/
def Reduced (size size' : ℤ) : Prop := |size'| < |size| ∧ (size' = 0 ∨ 0 < size * size')

theorem reduced_of_nonneg {size size' : ℤ} (h : 0 ≤ size') (hlt : size' < size) :
    Reduced size size' := by
  refine ⟨?_, h.eq_or_lt.imp Eq.symm fun hpos => mul_pos (hpos.trans hlt) hpos⟩
  rwa [abs_of_nonneg h, abs_of_nonneg (h.trans hlt.le)]

theorem reduced_of_nonpos {size size' : ℤ} (h : size' ≤ 0) (hlt : size < size') :
    Reduced size size' := by
  refine ⟨?_, h.eq_or_lt.imp id fun hneg => mul_pos_of_neg_of_neg (hlt.trans hneg) hneg⟩
  rwa [abs_of_nonpos h, abs_of_nonpos (hlt.le.trans h), neg_lt_neg_iff]

def MarketDetails.initialMargin (d : MarketDetails) (posAbs : ℤ) (markPrice : ℕ) : ℤ :=
  if posAbs = 0 ∨ markPrice = 0 ∨ d.defaultInitialMarginFraction = 0 then 0
  else (posAbs * markPrice * d.defaultInitialMarginFraction).tdiv marginTick

theorem MarketDetails.initialMargin_eq (d : MarketDetails) (size : ℤ) (mark : ℕ) :
    d.initialMargin size mark = (size * mark * d.defaultInitialMarginFraction).tdiv marginTick := by
  unfold MarketDetails.initialMargin
  split_ifs with hzero
  · rcases hzero with h | h | h <;> simp [h]
  · rfl

namespace AccountPosition

variable (p : AccountPosition)

def isLong : Bool := !decide (p.baseSize < 0)

def isShort : Bool := decide (p.baseSize < 0)

def openingIsBid : Bool := p.isLong

def openingIsAsk : Bool := p.isShort

def notional (markPrice : ℕ) : ℤ :=
  if p.baseSize = 0 ∨ markPrice = 0 then 0 else |p.baseSize| * markPrice

def marginRequirement (markPrice fractionBps : ℕ) : ℤ :=
  if fractionBps = 0 then 0
  else if p.notional markPrice = 0 then 0
  else (p.notional markPrice * fractionBps).tdiv marginTick

def initialMargin (markPrice : ℕ) (md : MarketDetails) : ℤ :=
  md.initialMargin |p.baseSize| markPrice

def maintenanceMargin (markPrice : ℕ) (md : MarketDetails) : ℤ :=
  p.marginRequirement markPrice md.maintenanceMarginFraction

def closeOutMargin (markPrice : ℕ) (md : MarketDetails) : ℤ :=
  p.marginRequirement markPrice md.closeOutMarginFraction

def unrealizedPnL (markPrice : ℕ) : ℤ :=
  if p.baseSize = 0 ∨ markPrice = 0 then 0 else p.baseSize * markPrice - p.entryQuote

def marketValue (markPrice : ℕ) : ℤ := p.allocatedMargin + p.unrealizedPnL markPrice

end AccountPosition

structure FillResult where
  position : AccountPosition
  realizedPnL : ℤ
  sideFlipped : Bool

/-- Entry quote and realized PnL of a fill of `delta` at `price`. -/
def AccountPosition.fillQuotes (p : AccountPosition) (delta : ℤ) (price : ℕ) : ℤ × ℤ :=
  let curSize := p.baseSize
  let curEntryQuote := p.entryQuote
  let notional := delta * price
  let newSize := curSize + delta
  if curSize = 0 then (notional, 0)
  else if isSameSide curSize delta then (curEntryQuote + notional, 0)
  else if newSize = 0 ∨ isSameSide curSize newSize then
    let realizedPnL := notional + (curEntryQuote * delta).tdiv (-curSize)
    if newSize = 0 then (0, realizedPnL)
    else ((curEntryQuote * newSize).tdiv curSize, realizedPnL)
  else
    let closeNotional := |curSize| * price
    let closeNotional := if delta < 0 then -closeNotional else closeNotional
    (newSize * price, closeNotional + curEntryQuote)

/-- The position after a fill of `delta` (positive buys, negative sells) at `price`. -/
def AccountPosition.applyFill (p : AccountPosition) (delta : ℤ) (price : ℕ) : FillResult :=
  let newSize := p.baseSize + delta
  let quotes := p.fillQuotes delta price
  { position := { p with baseSize := newSize, entryQuote := quotes.1 }
    realizedPnL := quotes.2
    sideFlipped := p.baseSize ≠ 0 && newSize ≠ 0 && !isSameSide p.baseSize newSize }

namespace AccountPosition

variable (p : AccountPosition) (d : ℤ) (P m : ℕ)

@[simp] theorem applyFill_baseSize : (p.applyFill d P).position.baseSize = p.baseSize + d := rfl

@[simp] theorem applyFill_accountIndex :
    (p.applyFill d P).position.accountIndex = p.accountIndex := rfl

@[simp] theorem applyFill_marketIndex :
    (p.applyFill d P).position.marketIndex = p.marketIndex := rfl

theorem marginRequirement_eq (frac : ℕ) :
    p.marginRequirement m frac = (|p.baseSize| * (m * frac)).tdiv marginTick := by
  unfold marginRequirement notional
  split_ifs with hfrac hempty hzero hzero
  · simp [hfrac]
  · rcases hempty with h | h <;> simp [h]
  · exact absurd rfl hzero
  · simp [hzero, ← mul_assoc]
  · rw [mul_assoc]

theorem initialMargin_eq_marginRequirement (md : MarketDetails) :
    p.initialMargin m md = p.marginRequirement m md.defaultInitialMarginFraction := by
  rw [marginRequirement_eq, initialMargin, MarketDetails.initialMargin_eq, mul_assoc]

theorem marginRequirement_mono {frac frac' : ℕ} (h : frac ≤ frac') :
    p.marginRequirement m frac ≤ p.marginRequirement m frac' := by
  rw [marginRequirement_eq, marginRequirement_eq]
  have hle : |p.baseSize| * ((m : ℤ) * frac) ≤ |p.baseSize| * ((m : ℤ) * frac') := by gcongr
  rw [Int.tdiv_eq_ediv_of_nonneg (by positivity), Int.tdiv_eq_ediv_of_nonneg (by positivity)]
  exact Int.ediv_le_ediv (by decide) hle

theorem unrealizedPnL_of_empty (h : p.baseSize = 0) : p.unrealizedPnL m = 0 := by
  rw [unrealizedPnL, if_pos (Or.inl h)]

theorem unrealizedPnL_of_ne (hm : m ≠ 0) :
    p.unrealizedPnL m = if p.baseSize = 0 then 0 else p.baseSize * m - p.entryQuote := by
  simp only [unrealizedPnL, hm, or_false]

/-! ### The scenarios of a fill -/

/-- An opposite fill that leaves a smaller position on the same side. -/
def IsPartialDecrease : Prop := p.baseSize * d ≤ 0 ∧ 0 < p.baseSize * (p.baseSize + d)

/-- An opposite fill of exactly the held size. -/
def IsFullClose : Prop := p.baseSize ≠ 0 ∧ p.baseSize + d = 0

/-- An opposite fill of more than the held size. -/
def IsFlip : Prop := p.baseSize * (p.baseSize + d) < 0

instance : Decidable (p.IsPartialDecrease d) := by unfold IsPartialDecrease; infer_instance
instance : Decidable (p.IsFullClose d) := by unfold IsFullClose; infer_instance
instance : Decidable (p.IsFlip d) := by unfold IsFlip; infer_instance

variable {p d}

theorem fillQuotes_open (h : p.baseSize = 0) : p.fillQuotes d P = (d * P, 0) := by
  simp only [fillQuotes, h, if_true]

theorem fillQuotes_increase (h : 0 < p.baseSize * d) :
    p.fillQuotes d P = (p.entryQuote + d * P, 0) := by
  have hne : p.baseSize ≠ 0 := by
    rintro h0
    simp [h0] at h
  simp only [fillQuotes, hne, if_false, isSameSide_iff.mpr h, if_true]

theorem fillQuotes_partialDecrease (h : p.IsPartialDecrease d) :
    p.fillQuotes d P = ((p.entryQuote * (p.baseSize + d)).tdiv p.baseSize,
      d * P + (p.entryQuote * d).tdiv (-p.baseSize)) := by
  obtain ⟨hopp, hsame⟩ := h
  have hne : p.baseSize ≠ 0 := by
    rintro h0
    simp [h0] at hsame
  have hnew : p.baseSize + d ≠ 0 := by
    rintro h0
    simp [h0] at hsame
  have hside : ¬ isSameSide p.baseSize d = true := by
    rw [isSameSide_iff]
    omega
  simp only [fillQuotes, hne, hside, isSameSide_iff.mpr hsame, hnew, or_true, if_true, if_false]
  rfl

theorem fillQuotes_fullClose (h : p.IsFullClose d) :
    p.fillQuotes d P = (0, d * P + p.entryQuote) := by
  obtain ⟨hne, hzero⟩ := h
  have hd : d = -p.baseSize := by omega
  have hside : ¬ isSameSide p.baseSize d = true := by
    rw [isSameSide_iff, hd]
    nlinarith [mul_self_nonneg p.baseSize]
  have hquo : (p.entryQuote * d).tdiv (-p.baseSize) = p.entryQuote := by
    rw [hd]
    exact Int.mul_tdiv_cancel _ (neg_ne_zero.mpr hne)
  simp only [fillQuotes, hne, hside, hzero, true_or, if_true, hquo]
  rfl

theorem fillQuotes_flip (h : p.IsFlip d) :
    p.fillQuotes d P = ((p.baseSize + d) * P, p.entryQuote - p.baseSize * P) := by
  unfold IsFlip at h
  have hne : p.baseSize ≠ 0 := by
    rintro h0
    simp [h0] at h
  have hnew : p.baseSize + d ≠ 0 := by
    rintro h0
    simp [h0] at h
  have hside : ¬ isSameSide p.baseSize d = true := by
    rw [isSameSide_iff]
    nlinarith [mul_self_nonneg p.baseSize]
  have hside' : ¬ isSameSide p.baseSize (p.baseSize + d) = true := by
    rw [isSameSide_iff]
    omega
  -- the closing leg has the sign of the fill, which is opposite to the held side
  have hclose : (if d < 0 then -(|p.baseSize| * (P : ℤ)) else |p.baseSize| * P)
      = -(p.baseSize * P) := by
    rcases lt_or_gt_of_ne hne with hneg | hpos
    · have hd : ¬ d < 0 := by nlinarith
      rw [if_neg hd, abs_of_neg hneg]
      ring
    · have hd : d < 0 := by nlinarith
      rw [if_pos hd, abs_of_pos hpos]
  rw [fillQuotes, if_neg hne, if_neg hside, if_neg (not_or.mpr ⟨hnew, hside'⟩)]
  dsimp only
  rw [hclose, show p.entryQuote - p.baseSize * P = -(p.baseSize * P) + p.entryQuote by ring]

theorem fill_scenarios (p : AccountPosition) (d : ℤ) :
    p.baseSize = 0 ∨ 0 < p.baseSize * d ∨ p.IsPartialDecrease d ∨ p.IsFullClose d ∨
      p.IsFlip d := by
  by_cases hsame : 0 < p.baseSize * d
  · exact Or.inr (Or.inl hsame)
  · rcases lt_trichotomy (p.baseSize * (p.baseSize + d)) 0 with h | h | h
    · exact Or.inr (Or.inr (Or.inr (Or.inr h)))
    · rcases mul_eq_zero.mp h with h0 | h0
      · exact Or.inl h0
      · by_cases hz : p.baseSize = 0
        · exact Or.inl hz
        · exact Or.inr (Or.inr (Or.inr (Or.inl ⟨hz, h0⟩)))
    · exact Or.inr (Or.inr (Or.inl ⟨not_lt.mp hsame, h⟩))

theorem not_reducing_of_growing (h : p.baseSize = 0 ∨ 0 < p.baseSize * d) :
    ¬ p.IsPartialDecrease d ∧ ¬ (p.IsFullClose d ∨ p.IsFlip d) := by
  rcases h with h | h
  · exact ⟨by simp [IsPartialDecrease, h], by simp [IsFullClose, IsFlip, h]⟩
  · refine ⟨fun hp => absurd hp.1 (not_le.mpr h), ?_⟩
    rintro (hc | hc)
    · obtain rfl : d = -p.baseSize := by
        have := hc.2
        omega
      nlinarith [mul_self_nonneg p.baseSize]
    · unfold IsFlip at hc
      nlinarith [mul_self_nonneg p.baseSize]

theorem not_partialDecrease_of_ending (h : p.IsFullClose d ∨ p.IsFlip d) :
    ¬ p.IsPartialDecrease d := by
  intro hp
  rcases h with h | h
  · have := hp.2
    simp [h.2] at this
  · exact absurd hp.2 (not_lt.mpr (le_of_lt h))

/-- A property that opening and increasing fills have, and that comes down to `C` when the fill closes
or flips the position and to `D` when it decreases it. -/
theorem iff_of_scenarios {X C D : Prop} (hgrow : p.baseSize = 0 ∨ 0 < p.baseSize * d → X)
    (hdecrease : p.IsPartialDecrease d → (X ↔ D))
    (hend : p.IsFullClose d ∨ p.IsFlip d → (X ↔ C)) :
    X ↔ (p.IsFullClose d ∨ p.IsFlip d → C) ∧ (p.IsPartialDecrease d → D) := by
  have hends : p.IsFullClose d ∨ p.IsFlip d →
      (X ↔ (p.IsFullClose d ∨ p.IsFlip d → C) ∧ (p.IsPartialDecrease d → D)) := by
    intro h
    simp [h, not_partialDecrease_of_ending h, hend h]
  rcases fill_scenarios p d with h | h | h | h | h
  · simp [not_reducing_of_growing (Or.inl h), hgrow (Or.inl h)]
  · simp [not_reducing_of_growing (Or.inr h), hgrow (Or.inr h)]
  · have hnot : ¬ (p.IsFullClose d ∨ p.IsFlip d) := fun he => not_partialDecrease_of_ending he h
    simp [h, hnot, hdecrease h]
  · exact hends (Or.inl h)
  · exact hends (Or.inr h)

/-- A fill realizes nothing exactly when it does not reduce the position, or reduces it at the
entry price; a partial decrease compares with the truncated share of the entry quote. -/
theorem realizedPnL_eq_zero_iff (p : AccountPosition) (d : ℤ) (P : ℕ) :
    (p.applyFill d P).realizedPnL = 0 ↔
      (p.IsFullClose d ∨ p.IsFlip d → p.baseSize * P = p.entryQuote) ∧
      (p.IsPartialDecrease d → d * P + (p.entryQuote * d).tdiv (-p.baseSize) = 0) := by
  refine iff_of_scenarios ?_ ?_ ?_
  · rintro (h | h)
    · simp only [applyFill, fillQuotes_open P h]
    · simp only [applyFill, fillQuotes_increase P h]
  · intro h
    simp only [applyFill, fillQuotes_partialDecrease P h]
  · rintro (h | h)
    · obtain rfl : d = -p.baseSize := by
        have := h.2
        omega
      simp only [applyFill, fillQuotes_fullClose P h, neg_mul]
      omega
    · simp only [applyFill, fillQuotes_flip P h]
      omega

/-! ### Value of a fill

A fill of `d` at price `P` is worth `d * (m - P)` at the mark `m`.  If fills were neutral,
realized and unrealized PnL together would move by exactly that. -/

/-- Equity the holder gains beyond the value of the fill itself. -/
def fillGap (p : AccountPosition) (d : ℤ) (P m : ℕ) : ℤ :=
  (p.applyFill d P).realizedPnL + (p.applyFill d P).position.unrealizedPnL m
    - (p.unrealizedPnL m + d * ((m : ℤ) - P))

/-- The fill is value-neutral, up to one unit of rounding in a partial decrease. -/
def FillValueNeutral (p : AccountPosition) (d : ℤ) (P m : ℕ) : Prop :=
  if p.IsPartialDecrease d then |p.fillGap d P m| ≤ 1 else p.fillGap d P m = 0

variable {m}

theorem fillGap_open (hm : m ≠ 0) (h : p.baseSize = 0) : p.fillGap d P m = 0 := by
  simp only [fillGap, applyFill, fillQuotes_open P h, unrealizedPnL_of_ne _ _ hm, h, if_true,
    zero_add]
  split
  · rename_i hd
    rw [hd]
    ring
  · ring

theorem fillGap_increase (hm : m ≠ 0) (h : 0 < p.baseSize * d) : p.fillGap d P m = 0 := by
  have hne : p.baseSize ≠ 0 := by
    rintro h0
    simp [h0] at h
  have hnew : p.baseSize + d ≠ 0 := by
    intro h0
    obtain rfl : d = -p.baseSize := by omega
    nlinarith [mul_self_nonneg p.baseSize]
  simp only [fillGap, applyFill, fillQuotes_increase P h, unrealizedPnL_of_ne _ _ hm, hne, hnew,
    if_false]
  ring

/-- Closing a position, also as the first leg of a flip, realizes the gain with the opposite
sign. -/
theorem fillGap_ending (hm : m ≠ 0) (h : p.IsFullClose d ∨ p.IsFlip d) :
    p.fillGap d P m = 2 * (p.entryQuote - p.baseSize * P) := by
  rcases h with h | h
  · obtain rfl : d = -p.baseSize := by
      have := h.2
      omega
    simp only [fillGap, applyFill, fillQuotes_fullClose P h, unrealizedPnL_of_ne _ _ hm, h.1, h.2,
      if_true, if_false]
    ring
  · have hne : p.baseSize ≠ 0 := by
      rintro h0
      simp [IsFlip, h0] at h
    have hnew : p.baseSize + d ≠ 0 := by
      rintro h0
      simp [IsFlip, h0] at h
    simp only [fillGap, applyFill, fillQuotes_flip P h, unrealizedPnL_of_ne _ _ hm, hne, hnew,
      if_false]
    ring

theorem fillGap_partialDecrease (hm : m ≠ 0) (h : p.IsPartialDecrease d) :
    p.fillGap d P m = 2 * (d * P + (p.entryQuote * d).tdiv (-p.baseSize))
      + (p.entryQuote - (p.entryQuote * d).tdiv (-p.baseSize)
        - (p.entryQuote * (p.baseSize + d)).tdiv p.baseSize) := by
  have hne : p.baseSize ≠ 0 := by
    rintro h0
    simp [IsPartialDecrease, h0] at h
  have hnew : p.baseSize + d ≠ 0 := by
    rintro h0
    simp [IsPartialDecrease, h0] at h
  simp only [fillGap, applyFill, fillQuotes_partialDecrease P h, unrealizedPnL_of_ne _ _ hm, hne,
    hnew, if_false]
  ring

/-- The equity gap in terms of the position and the fill alone. -/
def closingGap (p : AccountPosition) (d : ℤ) (P : ℕ) : ℤ :=
  if p.IsFullClose d ∨ p.IsFlip d then 2 * (p.entryQuote - p.baseSize * P)
  else if p.IsPartialDecrease d then
    2 * (d * P + (p.entryQuote * d).tdiv (-p.baseSize))
      + (p.entryQuote - (p.entryQuote * d).tdiv (-p.baseSize)
        - (p.entryQuote * (p.baseSize + d)).tdiv p.baseSize)
  else 0

theorem fillGap_eq_closingGap (hm : m ≠ 0) : p.fillGap d P m = p.closingGap d P := by
  rw [closingGap]
  split_ifs with hend hpart
  · exact fillGap_ending P hm hend
  · exact fillGap_partialDecrease P hm hpart
  · rcases fill_scenarios p d with h | h | h | h
    · exact fillGap_open P hm h
    · exact fillGap_increase P hm h
    · exact absurd h hpart
    · exact absurd h hend

/-- A partial decrease is neutral up to a unit exactly when the closed portion is worth the same at the
entry price and at the fill price, up to less than a unit. -/
theorem fillGap_partialDecrease_le_one_iff (hm : m ≠ 0) (h : p.IsPartialDecrease d) :
    |p.fillGap d P m| ≤ 1 ↔ |d * (p.baseSize * P - p.entryQuote)| < |p.baseSize| := by
  obtain ⟨hopp, hsame⟩ := id h
  have hne : p.baseSize ≠ 0 := by
    rintro h0
    simp [h0] at hsame
  have hd : d * (p.baseSize + d) ≤ 0 := by nlinarith
  rw [fillGap_partialDecrease P hm h, Arith.abs_two_mul_split_le_one_iff (d * P) hne hd]
  rw [show p.baseSize * (d * P) - p.entryQuote * d = d * (p.baseSize * P - p.entryQuote) by ring]

/-- **Value of a fill.**  Opening and increasing fills are always value-neutral; a close or
the closing leg of a flip is so only at the entry price, a partial decrease only when the
closed portion is worth the same at the entry price and at the fill price, up to less than a
unit.  An empty position has no unrealized PnL. -/
theorem fillValueNeutral_iff (p : AccountPosition) (d : ℤ) (P m : ℕ) (hm : m ≠ 0) :
    (p.baseSize = 0 → p.unrealizedPnL m = 0) ∧
    (p.FillValueNeutral d P m ↔
      (p.IsFullClose d ∨ p.IsFlip d → p.baseSize * P = p.entryQuote) ∧
      (p.IsPartialDecrease d → |d * (p.baseSize * P - p.entryQuote)| < |p.baseSize|)) := by
  refine ⟨unrealizedPnL_of_empty p m, ?_⟩
  unfold FillValueNeutral
  refine iff_of_scenarios ?_ ?_ ?_
  · rintro (h | h)
    · simp [fillGap_open P hm h]
    · simp [fillGap_increase P hm h]
  · intro h
    rw [if_pos h, fillGap_partialDecrease_le_one_iff P hm h]
  · intro h
    rw [if_neg (not_partialDecrease_of_ending h), fillGap_ending P hm h]
    omega

/-- A long of 10 entered at 100 and closed at 100, seen at a mark of 120. -/
theorem fillValueNeutral_iff_close_at_entry :
    (120 : ℕ) ≠ 0 ∧
    AccountPosition.FillValueNeutral ⟨2, 0, 10, 1000, 0, 0, .cross, 0⟩ (-10) 100 120 :=
  ⟨by decide, (fillValueNeutral_iff ⟨2, 0, 10, 1000, 0, 0, .cross, 0⟩ (-10) 100 120
    (by decide)).2.mpr (by decide)⟩

/-- A long of 10 entered at 100 and sold at 110 realizes a loss of 100 instead of a gain of 100. -/
theorem applyFill_close_above_entry_loses :
    (AccountPosition.applyFill ⟨2, 0, 10, 1000, 0, 0, .cross, 0⟩ (-10) 110).realizedPnL = -100 ∧
    AccountPosition.fillGap ⟨2, 0, 10, 1000, 0, 0, .cross, 0⟩ (-10) 110 120 = -200 ∧
    ¬ AccountPosition.FillValueNeutral ⟨2, 0, 10, 1000, 0, 0, .cross, 0⟩ (-10) 110 120 := by
  unfold FillValueNeutral
  decide

end AccountPosition

end PerpDex
