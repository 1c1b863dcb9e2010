/-
The margin of an isolated position follows its fills.

* `MarginShift` — the five cases of the margin that moves after a fill.

Main results: `isolated_release_bounded_iff`, `isolated_top_up_sufficient_iff`.

`held` is the allocated margin after PnL and fees, before the shift.
-/
import PerpDex.EngineSpec
import PerpDex.MarketMsgs

namespace PerpDex

open Txn

variable {s t : State} {res : PositionChangeResult} {fee : ℤ} {d : MarketDetails}

/-! ### The cases of the shift -/

/-- The margin that has to move into an isolated position after a fill. -/
inductive MarginShift (d : MarketDetails) (res : PositionChangeResult) (fee : ℤ) : ℤ → Prop
  | closed (hclosed : res.new.baseSize = 0) : MarginShift d res fee (-max res.new.allocatedMargin 0)
  | flipped (hopen : res.new.baseSize ≠ 0) (hflip : res.sideFlipped = true) :
      MarginShift d res fee
        (res.new.initialMargin d.markPrice d - res.new.marketValue d.markPrice)
  | shrunk (target : ℤ) (hopen : res.new.baseSize ≠ 0) (hflip : res.sideFlipped = false)
      (hoi : res.oiDelta < 0) (htarget : res.new.initialMargin d.markPrice d ≤ target) :
      MarginShift d res fee
        (-min (max (res.new.marketValue d.markPrice - target) 0) (max res.new.allocatedMargin 0))
  | level (hopen : res.new.baseSize ≠ 0) (hflip : res.sideFlipped = false)
      (hoi : res.oiDelta = 0) : MarginShift d res fee 0
  | grown (hopen : res.new.baseSize ≠ 0) (hflip : res.sideFlipped = false) (hoi : 0 < res.oiDelta) :
      MarginShift d res fee (max (d.initialMargin res.oiDelta d.markPrice
        - (res.new.unrealizedPnL d.markPrice - res.old.unrealizedPnL d.markPrice - fee)) 0)

theorem calculateIsolatedMarginDelta_ok {x : ℤ}
    (h : calculateIsolatedMarginDelta res fee s = .ok x) :
    MarginShift (detailsOf s res.marketIdx) res fee x ∧
      (res.new.baseSize ≠ 0 → ∃ r, getMarkPriceAndDetails res.marketIdx s = .ok r) := by
  unfold calculateIsolatedMarginDelta at h
  dsimp only at h
  split at h
  · rename_i hclosed
    have hx : x = -max res.new.allocatedMargin 0 := by
      split at h <;> cases h <;> omega
    rw [hx]
    exact ⟨.closed hclosed, fun hopen => absurd hclosed hopen⟩
  rename_i hopen
  obtain ⟨r, hmark, h⟩ := except_bind_ok.mp h
  refine ⟨?_, fun _ => ⟨r, hmark⟩⟩
  rw [getMarkPriceAndDetails_detailsOf hmark] at h
  dsimp only at h
  generalize detailsOf s res.marketIdx = d at h ⊢
  split at h
  · rename_i hflip
    cases h
    exact .flipped hopen hflip
  rename_i hflip
  rw [Bool.not_eq_true] at hflip
  split at h
  · rename_i hoi
    cases h
    refine .shrunk _ hopen hflip hoi ?_
    split
    · exact le_max_right _ _
    · exact le_refl _
  rename_i hoi
  split at h
  · rename_i hlevel
    cases h
    exact .level hopen hflip (abs_eq_zero.mp hlevel)
  · rename_i hlevel
    cases h
    have hpos : 0 < res.oiDelta := lt_of_le_of_ne (not_lt.mp hoi) fun h => hlevel (by simp [← h])
    rw [abs_of_pos hpos]
    exact .grown hopen hflip hpos

/-- Margin that goes back to the cross pool comes out of the allocated margin, and an open position
keeps its requirement. -/
def ReleaseBounded (d : MarketDetails) (p : AccountPosition) (x : ℤ) : Prop :=
  x < 0 → -x ≤ max p.allocatedMargin 0 ∧
    (p.baseSize ≠ 0 → p.initialMargin d.markPrice d ≤ p.marketValue d.markPrice + x)

theorem MarginShift.releaseBounded_iff {x : ℤ} (h : MarginShift d res fee x) :
    ReleaseBounded d res.new x ↔
      ¬ (res.new.baseSize ≠ 0 ∧ res.sideFlipped = true ∧
        res.new.initialMargin d.markPrice d < res.new.unrealizedPnL d.markPrice ∧
        res.new.initialMargin d.markPrice d < res.new.marketValue d.markPrice) := by
  unfold ReleaseBounded
  cases h with
  | closed hclosed => simp [hclosed]
  | flipped hopen hflip =>
    simp only [hopen, hflip, AccountPosition.marketValue, ne_eq, not_false_iff, true_and,
      true_implies]
    omega
  | shrunk target hopen hflip hoi htarget =>
    simp only [hflip, hopen, ne_eq, not_false_iff, true_implies, Bool.false_eq_true, false_and,
      and_false, iff_true]
    omega
  | level hopen hflip hoi => simp [hflip]
  | grown hopen hflip hoi =>
    simp only [hflip, Bool.false_eq_true, false_and, and_false, not_false_iff, iff_true]
    omega

/-! ### One side of a fill -/

theorem AccountPosition.marketValue_allocate (p : AccountPosition) (x : ℤ) (mark : ℕ) :
    (p.allocate x).marketValue mark = p.marketValue mark + x :=
  add_right_comm p.allocatedMargin x (p.unrealizedPnL mark)

variable {isMaker : Bool} {liqFee : ℤ} {f : Fill} {u : Unit}

/-- What PnL and fees put into an isolated position. -/
def PositionChangeResult.booked (res : PositionChangeResult) (fee : ℤ) (isMaker : Bool) (liqFee : ℤ) :
    ℤ :=
  res.realizedPnL - fee - liqFeeOf isMaker liqFee

def PositionChangeResult.afterBooking (res : PositionChangeResult) (fee : ℤ) (isMaker : Bool)
    (liqFee : ℤ) : PositionChangeResult :=
  { res with new := res.new.allocate (res.booked fee isMaker liqFee) }

theorem applyIsolatedAccount_ok (hstands : getPosition s res.accountIdx res.marketIdx = res.new)
    (h : (applyIsolatedAccount res fee isMaker liqFee f).run s = .ok u t) :
    ∃ x, calculateIsolatedMarginDelta (res.afterBooking fee isMaker liqFee) fee s = .ok x ∧
      MarginMove res.marketIdx (Pi.single res.accountIdx (-x))
        (Pi.single res.accountIdx (res.booked fee isMaker liqFee + x)) s t := by
  simp only [applyIsolatedAccount, isolatedDebit, run_bind_ok] at h
  obtain ⟨res₁, s₁, hpnl, res₂, s₂, hfee, hbal⟩ := h
  obtain ⟨hmove₁, p₁, rfl, hp₁⟩ := MarginMove.of_isolatedAdd hpnl
  obtain rfl := hp₁ hstands
  have hstands₁ : getPosition s₁ res.accountIdx res.marketIdx
      = res.new.allocate (res.realizedPnL - fee) := by
    rw [hmove₁.position, hstands, if_pos rfl, Pi.single_eq_same]
  obtain ⟨hmove₂, p₂, rfl, hp₂⟩ := MarginMove.of_isolatedAdd hfee
  obtain rfl := hp₂ hstands₁
  obtain ⟨x, hx, hmove₃⟩ := MarginMove.of_rebalance hbal
  have hmove := hmove₁.trans hmove₂
  refine ⟨x, ?_, ?_⟩
  · rw [hmove.frame, AccountPosition.allocate_allocate] at hx
    exact hx
  · have hmove := hmove.trans hmove₃
    simp only [zero_add, ← Pi.single_add] at hmove
    exact hmove

section Side

variable {s₀ s₁ : State} {acc m price base : ℕ} {sign : ℤ}

theorem AccountPosition.sideFlipped_iff {p : AccountPosition} {delta : ℤ} :
    (p.applyFill delta price).sideFlipped = true ↔ p.IsFlip delta := by
  have hside := @isSameSide_iff p.baseSize (p.baseSize + delta)
  unfold AccountPosition.IsFlip
  simp only [AccountPosition.applyFill, Bool.and_eq_true, decide_eq_true_eq, Bool.not_eq_true',
    ← Bool.not_eq_true, hside]
  constructor
  · rintro ⟨⟨hne, hne'⟩, hnot⟩
    exact lt_of_le_of_ne (not_lt.mp hnot) (mul_ne_zero hne hne')
  · intro h
    have hne := mul_ne_zero_iff.mp h.ne
    exact ⟨⟨hne.1, hne.2⟩, h.le.not_gt⟩

theorem AccountPosition.IsFlip.unrealizedPnL {p : AccountPosition} {delta : ℤ} {mark : ℕ}
    (h : p.IsFlip delta) (hmark : mark ≠ 0) :
    (p.applyFill delta price).position.unrealizedPnL mark
      = (p.baseSize + delta) * ((mark : ℤ) - price) := by
  have hopen : p.baseSize + delta ≠ 0 := (mul_ne_zero_iff.mp (ne_of_lt h)).2
  rw [unrealizedPnL_of_ne _ _ hmark, applyFill_baseSize, if_neg hopen]
  simp only [applyFill, fillQuotes_flip price h]
  ring

theorem isolatedSide_ok (hchange : (applyPositionChange acc m price base sign).run s₀ = .ok res s₁)
    (hstands : getPosition s acc m = res.new)
    (hrun : (applyIsolatedAccount res fee isMaker liqFee f).run s = .ok u t) :
    res = positionChangeOf acc m (getPosition s₀ acc m)
      ((getPosition s₀ acc m).applyFill (base * sign) price) ∧
    ∃ x, MarginShift (detailsOf s m) (res.afterBooking fee isMaker liqFee) fee x ∧
      (res.new.baseSize ≠ 0 → (detailsOf s m).markPrice ≠ 0 ∧
        getMarkPriceAndDetails m t = .ok ((detailsOf s m).markPrice, detailsOf s m)) ∧
      collateralOf t acc = collateralOf s acc - x ∧
      getPosition t acc m = (res.afterBooking fee isMaker liqFee).new.allocate x := by
  obtain ⟨-, hres, -, -⟩ := applyPositionChange_ok hchange
  obtain ⟨rfl, rfl⟩ : acc = res.accountIdx ∧ m = res.marketIdx := by
    rw [hres]
    exact ⟨rfl, rfl⟩
  obtain ⟨x, hx, hmove⟩ := applyIsolatedAccount_ok hstands hrun
  obtain ⟨hshift, hmarked⟩ := calculateIsolatedMarginDelta_ok hx
  refine ⟨hres, x, hshift, fun hopen => ?_, ?_, ?_⟩
  · obtain ⟨r, hr⟩ := hmarked hopen
    obtain ⟨-, -, hgate⟩ := getMarkPriceAndDetails_eq_ok.mp hr
    obtain rfl := getMarkPriceAndDetails_detailsOf hr
    refine ⟨gateMarkPrice_pos hgate, ?_⟩
    rw [hmove.frame]
    exact hr
  · rw [hmove.collateralOf_eq, Pi.single_eq_same, sub_eq_add_neg]
  · rw [hmove.position, if_pos rfl, Pi.single_eq_same, hstands]
    exact (AccountPosition.allocate_allocate _ _ _).symm

/-- **When a release of isolated margin is bounded.**  What goes back to the cross pool after a fill
comes out of the margin allocated after PnL and fees, and an open position keeps its initial margin,
except when the fill turns the position and leaves it a gain against the mark that exceeds its
requirement. -/
theorem isolated_release_bounded_iff
    (hchange : (applyPositionChange acc m price base sign).run s₀ = .ok res s₁)
    (hstands : getPosition s acc m = res.new)
    (hrun : (applyIsolatedAccount res fee isMaker liqFee f).run s = .ok u t) :
    let p := getPosition s₀ acc m
    let size := p.baseSize + base * sign
    let d := detailsOf s m
    let held := p.allocatedMargin + res.booked fee isMaker liqFee
    let req := d.initialMargin |size| d.markPrice
    let gain := size * ((d.markPrice : ℤ) - price)
    let out := collateralOf t acc - collateralOf s acc
    (getPosition t acc m).allocatedMargin = held - out ∧
    ((0 < out → out ≤ max held 0 ∧
        (size ≠ 0 → req ≤ (getPosition t acc m).marketValue d.markPrice)) ↔
      ¬ (p.IsFlip (base * sign) ∧ req < gain ∧ req < held + gain)) := by
  intro p size d held req gain out
  obtain ⟨hres, x, hshift, hmarked, hcollateral, hposition⟩ := isolatedSide_ok hchange hstands hrun
  have hout : out = -x := by
    show collateralOf t acc - collateralOf s acc = -x
    omega
  have hheld : (res.afterBooking fee isMaker liqFee).new.allocatedMargin = held := by
    simp only [PositionChangeResult.afterBooking, AccountPosition.allocate, held, hres]
    rfl
  have hsize : (res.afterBooking fee isMaker liqFee).new.baseSize = size := by
    rw [hres]
    rfl
  have hreq : (res.afterBooking fee isMaker liqFee).new.initialMargin d.markPrice d = req := by
    rw [AccountPosition.initialMargin, hsize]
  have hflip : (res.afterBooking fee isMaker liqFee).sideFlipped = true ↔ p.IsFlip (base * sign) := by
    rw [hres]
    exact @AccountPosition.sideFlipped_iff price p (base * sign)
  refine ⟨?_, ?_⟩
  · rw [hposition, hout, sub_neg_eq_add, ← hheld]
    rfl
  have hbounded := hshift.releaseBounded_iff
  rw [ReleaseBounded, hheld, hsize, hreq, hflip] at hbounded
  rw [hout, neg_pos, hposition, AccountPosition.marketValue_allocate, hbounded]
  -- the fill price enters through the value of the turned position
  have hgain : p.IsFlip (base * sign) →
      (res.afterBooking fee isMaker liqFee).new.unrealizedPnL d.markPrice = gain := by
    intro hturned
    have hopen : size ≠ 0 := (mul_ne_zero_iff.mp (ne_of_lt hturned)).2
    have hmark : d.markPrice ≠ 0 := (hmarked (hsize ▸ hopen)).1
    rw [hres]
    exact hturned.unrealizedPnL hmark
  refine not_congr ⟨?_, ?_⟩
  · rintro ⟨-, hturned, hover, hvalue⟩
    rw [AccountPosition.marketValue, hheld, hgain hturned] at hvalue
    exact ⟨hturned, hgain hturned ▸ hover, hvalue⟩
  · rintro ⟨hturned, hover, hvalue⟩
    rw [AccountPosition.marketValue, hheld, hgain hturned]
    exact ⟨(mul_ne_zero_iff.mp (ne_of_lt hturned)).2, hturned, hover, hvalue⟩

/-- Account 2 is isolated in market 0, with the given mark and initial fraction. -/
def isolatedLong (mark imf : ℕ) (size entryQuote allocated : ℤ) : State where
  account := {
    accounts := Table.ofRows [{ accountIndex := 2, collateral := 10000 }]
    accountPositions := Table.ofRows [
      { accountIndex := 2, marketIndex := 0, baseSize := size, entryQuote := entryQuote,
        marginMode := .isolated, allocatedMargin := allocated }] }
  market := { marketDetails := Table.ofRows [
    { marketIndex := 0, markPrice := mark, defaultInitialMarginFraction := imf,
      minInitialMarginFraction := imf, maintenanceMarginFraction := 400,
      closeOutMarginFraction := 200 }] }

/-- Account 2 takes; an ask if it sells. -/
def takerFill (price base : ℕ) (isAsk : Bool) : Fill where
  makerAccountIndex := 3
  takerAccountIndex := 2
  marketIndex := 0
  price := price
  baseAmount := base
  isTakerAsk := isAsk

/-- Half of a position of ten units is sold at the mark: half of its margin goes back. -/
theorem isolated_release_bounded_iff_decrease :
    let s := isolatedLong 100 1000 10 1000 1000
    let res := positionChangeOf 2 0 (getPosition s 2 0) ((getPosition s 2 0).applyFill (-5) 100)
    let s₁ := Txn.after (applyPositionChange 2 0 100 5 (-1)) s
    let t := Txn.after (applyIsolatedAccount res 0 false 0 (takerFill 100 5 true)) s₁
    0 < collateralOf t 2 - collateralOf s₁ 2 ∧
    collateralOf t 2 - collateralOf s₁ 2 ≤ max (1000 + res.booked 0 false 0) 0 := by
  intro s res s₁ t
  have hout : 0 < collateralOf t 2 - collateralOf s₁ 2 := by decide +kernel
  have hchange : (applyPositionChange 2 0 100 5 (-1)).run s = .ok res s₁ :=
    run_of_value (by decide +kernel)
  have hrun : (applyIsolatedAccount res 0 false 0 (takerFill 100 5 true)).run s₁ = .ok () t :=
    run_of_succeeds (by decide +kernel)
  have hiff := (isolated_release_bounded_iff hchange (by decide +kernel) hrun).2
  exact ⟨hout, (hiff.mpr (fun h => absurd h.1 (by decide +kernel)) hout).1⟩

/-- A long of ten units is turned at 150 while the mark is 100.  After PnL 500 is allocated, the short
is worth 500 and needs 100, and 900 goes to the cross pool: the margin left is -400, and the payout
contains a gain that nobody has realized. -/
theorem flip_pays_out_gain :
    let s := isolatedLong 100 1000 10 1000 1000
    let res := positionChangeOf 2 0 (getPosition s 2 0) ((getPosition s 2 0).applyFill (-20) 150)
    let s₁ := Txn.after (applyPositionChange 2 0 150 20 (-1)) s
    let t := Txn.after (applyIsolatedAccount res 0 false 0 (takerFill 150 20 true)) s₁
    Txn.value (applyPositionChange 2 0 150 20 (-1)) s = some res ∧
    Txn.succeeds (applyIsolatedAccount res 0 false 0 (takerFill 150 20 true)) s₁ = true ∧
    1000 + res.booked 0 false 0 = 500 ∧ collateralOf t 2 - collateralOf s₁ 2 = 900 ∧
    (getPosition t 2 0).allocatedMargin = -400 := by
  decide +kernel

/-! ### A position that grows -/

theorem MarketDetails.initialMargin_add (d : MarketDetails) {a b : ℤ} (ha : 0 ≤ a) (hb : 0 ≤ b)
    (mark : ℕ) :
    d.initialMargin a mark + d.initialMargin b mark ≤ d.initialMargin (a + b) mark ∧
      d.initialMargin (a + b) mark ≤ d.initialMargin a mark + d.initialMargin b mark + 1 := by
  simp only [MarketDetails.initialMargin_eq]
  rw [Int.tdiv_eq_ediv_of_nonneg (by positivity), Int.tdiv_eq_ediv_of_nonneg (by positivity),
    Int.tdiv_eq_ediv_of_nonneg (by positivity), add_mul, add_mul]
  generalize a * mark * d.defaultInitialMarginFraction = x
  generalize b * mark * d.defaultInitialMarginFraction = y
  have htick : marginTick = 10000 := rfl
  rw [htick]
  omega

theorem AccountPosition.abs_add_of_growing {p : AccountPosition} {delta : ℤ}
    (h : p.baseSize = 0 ∨ 0 < p.baseSize * delta) :
    |p.baseSize + delta| = |p.baseSize| + |delta| := by
  rcases h with h | h
  · simp [h]
  · rw [abs_add_eq_add_abs_iff]
    rcases mul_pos_iff.mp h with ⟨h₁, h₂⟩ | ⟨h₁, h₂⟩
    · exact Or.inl ⟨h₁.le, h₂.le⟩
    · exact Or.inr ⟨h₁.le, h₂.le⟩

/-- A fill that only adds to a position realizes nothing and is worth its distance to the mark. -/
theorem AccountPosition.applyFill_of_growing {p : AccountPosition} {delta : ℤ} {mark : ℕ}
    (hmark : mark ≠ 0) (h : p.baseSize = 0 ∨ 0 < p.baseSize * delta) :
    (p.applyFill delta price).realizedPnL = 0 ∧
      (p.applyFill delta price).position.unrealizedPnL mark
        = p.unrealizedPnL mark + delta * ((mark : ℤ) - price) := by
  have hrealized : (p.applyFill delta price).realizedPnL = 0 := by
    rcases h with h | h
    · simp only [applyFill, fillQuotes_open price h]
    · simp only [applyFill, fillQuotes_increase price h]
  refine ⟨hrealized, ?_⟩
  have hgap : p.fillGap delta price mark = 0 :=
    h.elim (fillGap_open price hmark) (fillGap_increase price hmark)
  unfold fillGap at hgap
  omega

theorem MarginShift.eq_of_growing {x : ℤ} (h : MarginShift d res fee x)
    (hopen : res.new.baseSize ≠ 0) (hflip : res.sideFlipped = false) (hoi : 0 < res.oiDelta) :
    x = max (d.initialMargin res.oiDelta d.markPrice
      - (res.new.unrealizedPnL d.markPrice - res.old.unrealizedPnL d.markPrice - fee)) 0 := by
  cases h with
  | closed hclosed => exact absurd hclosed hopen
  | flipped _ hflip' => simp [hflip] at hflip'
  | shrunk _ _ _ hoi' _ => exact absurd hoi hoi'.not_gt
  | level _ _ hoi' => exact absurd hoi' hoi.ne'
  | grown _ _ _ => rfl

/-- A position that grows gains the requirement of the increment, or what the fill is worth if
that is more. -/
theorem marketValue_of_growing
    (hchange : (applyPositionChange acc m price base sign).run s₀ = .ok res s₁)
    (hstands : getPosition s acc m = res.new)
    (hrun : (applyIsolatedAccount res fee isMaker liqFee f).run s = .ok u t)
    (hdelta : (base : ℤ) * sign ≠ 0)
    (hgrow : (getPosition s₀ acc m).baseSize = 0 ∨ 0 < (getPosition s₀ acc m).baseSize * (base * sign))
    (hliq : liqFeeOf isMaker liqFee = 0) :
    let mark := (detailsOf s m).markPrice
    getMarkPriceAndDetails m t = .ok (mark, detailsOf s m) ∧
    (getPosition t acc m).marginMode = (getPosition s₀ acc m).marginMode ∧
    (getPosition t acc m).baseSize = (getPosition s₀ acc m).baseSize + base * sign ∧
    (getPosition t acc m).marketValue mark = (getPosition s₀ acc m).marketValue mark
      + max ((detailsOf s m).initialMargin |base * sign| mark)
          (base * sign * ((mark : ℤ) - price) - fee) := by
  intro mark
  obtain ⟨hres, x, hshift, hmarked, -, hposition⟩ := isolatedSide_ok hchange hstands hrun
  set p := getPosition s₀ acc m
  have habs : |p.baseSize + base * sign| = |p.baseSize| + |base * sign| :=
    AccountPosition.abs_add_of_growing hgrow
  have hdeltaPos : 0 < |(base : ℤ) * sign| := abs_pos.mpr hdelta
  have hopen : p.baseSize + base * sign ≠ 0 := by
    intro hzero
    rw [hzero, abs_zero] at habs
    have := abs_nonneg p.baseSize
    omega
  have hflip : (p.applyFill (base * sign) price).sideFlipped = false := by
    rw [← Bool.not_eq_true, AccountPosition.sideFlipped_iff]
    exact fun hturned => (AccountPosition.not_reducing_of_growing hgrow).2 (Or.inr hturned)
  subst hres
  obtain ⟨hmark, hread⟩ := hmarked hopen
  obtain ⟨hrealized, hgain⟩ :=
    @AccountPosition.applyFill_of_growing price p (base * sign) mark hmark hgrow
  have hoi : ((positionChangeOf acc m p (p.applyFill (base * sign) price)).afterBooking fee isMaker
      liqFee).oiDelta = |(base : ℤ) * sign| := by
    show |p.baseSize + base * sign| - |p.baseSize| = _
    omega
  have hx := hshift.eq_of_growing hopen hflip (hoi ▸ hdeltaPos)
  refine ⟨hread, hposition ▸ rfl, hposition ▸ rfl, ?_⟩
  · have hbooked : (positionChangeOf acc m p (p.applyFill (base * sign) price)).booked fee isMaker
        liqFee = -fee := by
      show (p.applyFill (base * sign) price).realizedPnL - fee - liqFeeOf isMaker liqFee = -fee
      rw [hrealized, hliq]
      ring
    have hshiftEq : x = max ((detailsOf s m).initialMargin |base * sign| mark
        - (base * sign * ((mark : ℤ) - price) - fee)) 0 := by
      rw [hx, hoi]
      show max (_ - ((p.applyFill (base * sign) price).position.unrealizedPnL mark
        - p.unrealizedPnL mark - fee)) 0 = _
      rw [hgain, add_sub_cancel_left]
    have hfilled : (p.applyFill (base * sign) price).position.marketValue mark
        = p.marketValue mark + base * sign * ((mark : ℤ) - price) := by
      show p.allocatedMargin + (p.applyFill (base * sign) price).position.unrealizedPnL mark = _
      rw [hgain, AccountPosition.marketValue]
      ring
    rw [hposition, AccountPosition.marketValue_allocate]
    show ((p.applyFill (base * sign) price).position.allocate _).marketValue mark + x = _
    rw [AccountPosition.marketValue_allocate, hbooked, hfilled, hshiftEq]
    omega

/-- With ordered fractions the initial requirement decides whether an isolated position is
healthy. -/
theorem computeIsolatedRisk_healthy_iff {mark : ℕ}
    (hisolated : (getPosition t acc m).marginMode = .isolated)
    (hread : getMarkPriceAndDetails m t = .ok (mark, d))
    (hchain : validMarginChain d.defaultInitialMarginFraction d.minInitialMarginFraction
      d.maintenanceMarginFraction d.closeOutMarginFraction = true)
    (hvalue : 0 ≤ (getPosition t acc m).marketValue mark) :
    (∃ r, computeIsolatedRisk acc m t = .ok r ∧ r.healthStatus = .healthy) ↔
      d.initialMargin |(getPosition t acc m).baseSize| mark ≤ (getPosition t acc m).marketValue mark := by
  set p := getPosition t acc m
  have hrisk : computeIsolatedRisk acc m t = .ok {
      collateral := p.allocatedMargin
      collateralWithFunding := p.allocatedMargin
      totalAccountValue := p.marketValue mark
      initialMarginRequirement := p.initialMargin mark d
      maintenanceMarginRequirement := p.maintenanceMargin mark d
      closeOutMarginRequirement := p.closeOutMargin mark d } := by
    rw [computeIsolatedRisk, if_neg (not_not.mpr hisolated), hread]
    rfl
  simp only [validMarginChain, Bool.and_eq_true, Bool.not_eq_true', decide_eq_false_iff_not,
    not_le] at hchain
  have hmaintenance : p.maintenanceMargin mark d ≤ p.initialMargin mark d := by
    rw [AccountPosition.initialMargin_eq_marginRequirement]
    exact p.marginRequirement_mono mark hchain.1.2.le
  have hcloseOut : p.closeOutMargin mark d ≤ p.maintenanceMargin mark d :=
    p.marginRequirement_mono mark hchain.2.le
  rw [hrisk]
  simp only [Except.ok.injEq, exists_eq_left']
  rw [RiskParameters.healthStatus_eq_healthy (by exact hvalue)]
  exact ⟨fun h => h.1, fun h => ⟨h, hmaintenance.trans h, (hcloseOut.trans hmaintenance).trans h⟩⟩

/-- The value after the fill against the requirement of the whole, which is that of the parts or
one more. -/
theorem covers_whole_iff {whole old step value gain : ℤ} (hlow : old + step ≤ whole)
    (hhigh : whole ≤ old + step + 1) (hold : old ≤ value) :
    whole ≤ value + max step gain ↔ ¬ (whole ≠ old + step ∧ value = old ∧ gain ≤ step) := by
  omega

/-- **When a top-up is sufficient.**  An isolated position worth its initial margin that grows by a
fill is afterwards worth the initial margin of its new size, unless the requirements of the old size
and of the increment are one unit short of that, the position was worth no more than it had to be, and
the fill gained no more than the requirement of the increment. -/
theorem isolated_top_up_sufficient_iff
    (hchange : (applyPositionChange acc m price base sign).run s₀ = .ok res s₁)
    (hstands : getPosition s acc m = res.new)
    (hrun : (applyIsolatedAccount res fee isMaker liqFee f).run s = .ok u t)
    (hisolated : (getPosition s₀ acc m).marginMode = .isolated)
    (hdelta : (base : ℤ) * sign ≠ 0)
    (hgrow : (getPosition s₀ acc m).baseSize = 0 ∨ 0 < (getPosition s₀ acc m).baseSize * (base * sign))
    (hliq : liqFeeOf isMaker liqFee = 0)
    (hmargined : (getPosition s₀ acc m).initialMargin (detailsOf s m).markPrice (detailsOf s m)
      ≤ (getPosition s₀ acc m).marketValue (detailsOf s m).markPrice) :
    let p := getPosition s₀ acc m
    let d := detailsOf s m
    let size := p.baseSize + base * sign
    let im := fun x => d.initialMargin |x| d.markPrice
    let exception := im size ≠ im p.baseSize + im (base * sign) ∧
      p.marketValue d.markPrice = im p.baseSize ∧
      base * sign * ((d.markPrice : ℤ) - price) - fee ≤ im (base * sign)
    (im size ≤ (getPosition t acc m).marketValue d.markPrice ↔ ¬ exception) ∧
    (validMarginChain d.defaultInitialMarginFraction d.minInitialMarginFraction
        d.maintenanceMarginFraction d.closeOutMarginFraction = true →
      ((∃ r, computeIsolatedRisk acc m t = .ok r ∧ r.healthStatus = .healthy) ↔ ¬ exception)) := by
  intro p d size im exception
  obtain ⟨hread, hmode, hsize, hvalue⟩ :=
    marketValue_of_growing hchange hstands hrun hdelta hgrow hliq
  obtain ⟨hlow, hhigh⟩ := d.initialMargin_add (abs_nonneg p.baseSize) (abs_nonneg (base * sign))
    d.markPrice
  rw [← AccountPosition.abs_add_of_growing hgrow] at hlow hhigh
  have hiff : im size ≤ (getPosition t acc m).marketValue d.markPrice ↔ ¬ exception := by
    rw [hvalue]
    exact covers_whole_iff hlow hhigh hmargined
  refine ⟨hiff, fun hchain => ?_⟩
  rw [← hiff, computeIsolatedRisk_healthy_iff (hmode.trans hisolated) hread hchain, hsize]
  rw [hvalue]
  have hparts : ∀ x, 0 ≤ im x := fun x => d.initialMargin_nonneg _ _ (abs_nonneg x)
  exact add_nonneg ((hparts p.baseSize).trans hmargined) (le_max_of_le_left (hparts (base * sign)))

/-- A long of 10000 units with exactly its initial margin buys 100 more above the mark. -/
theorem isolated_top_up_sufficient_iff_long :
    let s := isolatedLong 100 1000 10000 1000000 100000
    let res := positionChangeOf 2 0 (getPosition s 2 0) ((getPosition s 2 0).applyFill 100 110)
    let s₁ := Txn.after (applyPositionChange 2 0 110 100 1) s
    let t := Txn.after (applyIsolatedAccount res 5 false 0 (takerFill 110 100 false)) s₁
    collateralOf t 2 = 10000 - 1000 - 1000 - 5 ∧
      ∃ r, computeIsolatedRisk 2 0 t = .ok r ∧ r.healthStatus = .healthy := by
  intro s res s₁ t
  have hchange : (applyPositionChange 2 0 110 100 1).run s = .ok res s₁ :=
    run_of_value (by decide +kernel)
  have hrun : (applyIsolatedAccount res 5 false 0 (takerFill 110 100 false)).run s₁ = .ok () t :=
    run_of_succeeds (by decide +kernel)
  have hiff := isolated_top_up_sufficient_iff hchange (by decide +kernel) hrun (by decide +kernel)
    (by decide) (Or.inr (by decide +kernel)) (by decide) (by decide +kernel)
  exact ⟨by decide +kernel, (hiff.2 (by decide +kernel)).mpr fun h => absurd h.1 (by decide +kernel)⟩

/-- Ten units at a mark of 1 need no margin at 5%, and so do ten more; twenty need one unit. -/
theorem top_up_falls_short :
    let s := isolatedLong 1 500 10 10 0
    let res := positionChangeOf 2 0 (getPosition s 2 0) ((getPosition s 2 0).applyFill 10 1)
    let s₁ := Txn.after (applyPositionChange 2 0 1 10 1) s
    let t := Txn.after (applyIsolatedAccount res 0 false 0 (takerFill 1 10 false)) s₁
    (computeIsolatedRisk 2 0 s).map (·.healthStatus) = .ok .healthy ∧
    Txn.value (applyPositionChange 2 0 1 10 1) s = some res ∧
    Txn.succeeds (applyIsolatedAccount res 0 false 0 (takerFill 1 10 false)) s₁ = true ∧
    collateralOf t 2 = 10000 ∧ (getPosition t 2 0).marketValue 1 = 0 ∧
    (getPosition t 2 0).initialMargin 1 (detailsOf t 0) = 1 ∧
    (computeIsolatedRisk 2 0 t).map (·.healthStatus) = .ok .preLiquidation := by
  decide +kernel

end Side

end PerpDex
