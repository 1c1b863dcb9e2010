/-
The impact price of a side of the book (`ComputeImpactPrice` and `MarketImpactNotional` of
`x/orderbook/keeper/entries.go`).

* `impactWalk` — the loop over the sums per price, with its unchecked 64-bit sums;
* `ImpactSpec` — the same in exact numbers, as a walk over `depthOf`.

Main results: `impact_price_exact_iff`, `impact_price_overflow`.

A sum that overflows is smaller than the notional, and the loop goes on to worse prices.
-/
import PerpDex.Arith
import PerpDex.Depth
import PerpDex.Orderbook

namespace PerpDex

open Arith Depth Txn

def impactUSDCAmount : ℕ := 500000000

def marketImpactNotional (market : ℕ) : Query ℕ := fun s => do
  let d ← getMarketDetails market s
  if d.minInitialMarginFraction = 0 then return 0
  else
    let qm := if d.quoteMultiplier = 0 then 1 else d.quoteMultiplier
    let out := impactUSDCAmount * marginTick / (d.minInitialMarginFraction * qm)
    let minImf := d.minInitialMarginFraction
    let multiplier := d.quoteMultiplier
    if out > maxUint64 then throw ⟨.orderbookInvariantViolated,
      s!"impact_notional overflow: market={market} min_imf={minImf} quote_multiplier={multiplier}"⟩
    else return out

/-- Base and quote sum of one side of a price. -/
def PriceLevelAggregate.sums (v : PriceLevelAggregate) (isAsk : Bool) : ℕ × ℕ :=
  if isAsk then (v.askBaseSum, v.askQuoteSum) else (v.bidBaseSum, v.bidQuoteSum)

/-- The sums per price of a market, asks from the lowest price, bids from the highest one. -/
def sideLevels (s : State) (market : ℕ) (isAsk : Bool) : List PriceLevelAggregate :=
  let levels := s.book.priceLevels.range fun k => decide ((ofLex k).1 = market)
  if isAsk then levels else levels.reverse

/-- Base and quote after the loop, on top of `accBase` and `accQuote`. -/
def impactWalk (isAsk : Bool) (notional : ℕ) :
    ℕ → ℕ → List PriceLevelAggregate → Except Err (ℕ × ℕ)
  | accBase, accQuote, [] => .ok (accBase, accQuote)
  | accBase, accQuote, v :: rest =>
    let lvBase := (v.sums isAsk).1
    let lvQuote := (v.sums isAsk).2
    if lvBase = 0 then impactWalk isAsk notional accBase accQuote rest
    else if notional ≤ word64 (accQuote + lvQuote) then
      -- a price of zero divides by zero
      if v.price = 0 then .error ⟨.goPanic, "integer divide by zero"⟩
      else
        let needQuote := word64 (notional + (2 ^ 64 - accQuote))
        let needBase := word64 (needQuote + v.price - 1) / v.price
        let needBase := if needBase = 0 then 1 else needBase
        .ok (word64 (accBase + needBase), word64 (accQuote + word64 (needBase * v.price)))
    else impactWalk isAsk notional (word64 (accBase + lvBase)) (word64 (accQuote + lvQuote)) rest

/-- The average, rounded up for asks and down for bids. -/
def impactAverage (isAsk : Bool) (notional : ℕ) (acc : ℕ × ℕ) : ℕ :=
  if acc.2 < notional ∨ acc.1 = 0 then 0
  else if isAsk then word64 (acc.2 + acc.1 - 1) / acc.1 % 2 ^ 32
  else acc.2 / acc.1 % 2 ^ 32

def computeImpactPrice (market : ℕ) (isAsk : Bool) : Query ℕ := fun s => do
  let notional ← marketImpactNotional market s
  if notional = 0 then return 0
  else
    let acc ← impactWalk isAsk notional 0 0 (sideLevels s market isAsk)
    return impactAverage isAsk notional acc

/-! ### The exact walk -/

/-- A price with its sums: they are words, and each quote sum is the base sum at that price. -/
@[mk_iff]
structure PriceLevelAggregate.Sound (v : PriceLevelAggregate) : Prop where
  price_pos : 0 < v.price
  price_le : v.price ≤ maxUint32
  quote : ∀ isAsk, (v.sums isAsk).2 = (v.sums isAsk).1 * v.price
  word : ∀ isAsk, (v.sums isAsk).2 ≤ maxUint64

instance (v : PriceLevelAggregate) : Decidable v.Sound :=
  decidable_of_iff _ v.sound_iff.symm

/-- The prices at which something is on offer, with how much. -/
def depthOf (isAsk : Bool) (levels : List PriceLevelAggregate) : Side :=
  (levels.map fun v => (v.price, (v.sums isAsk).1)).filter fun l => decide (l.2 ≠ 0)

/-- The impact price in exact numbers: zero if there is not enough on offer, and otherwise the average
price of taking the notional, which lies between the first and the last price touched. -/
structure ImpactSpec (isAsk : Bool) (notional : ℕ) (side : Side) (r : ℕ) : Prop where
  zero_iff : r = 0 ↔ quoteOf side < notional
  average : notional ≤ quoteOf side → ∃ first size rest base quote last,
    side = (first, size) :: rest ∧ take notional 0 0 side = some (base, quote, last) ∧
      r = (if isAsk then quote ⌈/⌉ base else quote / base) ∧
      if isAsk then first ≤ r ∧ r ≤ last else last ≤ r ∧ r ≤ first

section Walk

variable {isAsk : Bool} {notional b q : ℕ} {levels : List PriceLevelAggregate}
  {v : PriceLevelAggregate}

theorem depthOf_cons_zero (h : (v.sums isAsk).1 = 0) :
    depthOf isAsk (v :: levels) = depthOf isAsk levels := by
  simp [depthOf, h]

theorem depthOf_cons (h : (v.sums isAsk).1 ≠ 0) :
    depthOf isAsk (v :: levels) = (v.price, (v.sums isAsk).1) :: depthOf isAsk levels := by
  simp [depthOf, h]

theorem mem_depthOf {l : ℕ × ℕ} (h : l ∈ depthOf isAsk levels) :
    ∃ v ∈ levels, l = (v.price, (v.sums isAsk).1) := by
  obtain ⟨v, hv, rfl⟩ := List.mem_map.mp (List.mem_filter.mp h).1
  exact ⟨v, hv, rfl⟩

theorem impactWalk_of_empty (h : depthOf isAsk levels = []) :
    impactWalk isAsk notional b q levels = .ok (b, q) := by
  induction levels with
  | nil => rfl
  | cons v rest ih =>
    by_cases hzero : (v.sums isAsk).1 = 0
    · rw [depthOf_cons_zero hzero] at h
      rw [impactWalk, if_pos hzero]
      exact ih h
    · rw [depthOf_cons hzero] at h
      cases h

theorem impactWalk_last (hv : v.Sound) (hmax : notional ≤ impactUSDCAmount * marginTick)
    (hb : b ≤ q) (hq : q < notional) (hzero : (v.sums isAsk).1 ≠ 0)
    (hle : notional ≤ q + (v.sums isAsk).1 * v.price)
    (hfit : q + (v.sums isAsk).1 * v.price < 2 ^ 64) :
    impactWalk isAsk notional b q (v :: levels) = .ok (b + (notional - q) ⌈/⌉ v.price,
      q + (notional - q) ⌈/⌉ v.price * v.price) := by
  have hpos := hv.price_pos
  have hprice : v.price < 2 ^ 32 := Nat.lt_of_le_of_lt hv.price_le (by decide)
  have hbound : notional < 2 ^ 43 := Nat.lt_of_le_of_lt hmax (by decide)
  have hneed : word64 (notional + (2 ^ 64 - q)) = notional - q := by
    unfold word64
    omega
  have hceil : word64 (notional - q + v.price - 1) / v.price = (notional - q) ⌈/⌉ v.price := by
    rw [word64_of_lt (by omega)]
    rfl
  have hup : notional - q ≤ v.price * ((notional - q) ⌈/⌉ v.price) := le_smul_ceilDiv hpos
  have hdown : (notional - q) ⌈/⌉ v.price * v.price ≤ notional - q + v.price - 1 :=
    Nat.div_mul_le_self _ _
  have hself : (notional - q) ⌈/⌉ v.price ≤ (notional - q) ⌈/⌉ v.price * v.price :=
    Nat.le_mul_of_pos_right _ hpos
  have hunit : (notional - q) ⌈/⌉ v.price ≠ 0 := by
    intro hnone
    rw [hnone] at hup
    omega
  rw [impactWalk]
  simp only [if_neg hzero, hv.quote, word64_of_lt hfit, if_pos hle, if_neg hpos.ne', hneed, hceil,
    if_neg hunit]
  rw [word64_of_lt (n := b + _) (by omega), word64_of_lt (n := _ * v.price) (by omega),
    word64_of_lt (by omega)]

/-- **The loop is the exact walk** as long as its sums fit into a word. -/
theorem impactWalk_exact (hsound : ∀ v ∈ levels, v.Sound)
    (hmax : notional ≤ impactUSDCAmount * marginTick) (hb : b ≤ q) (hq : q < notional)
    (hfit : q + quoteOf (reached notional q (depthOf isAsk levels)) < 2 ^ 64) :
    (∀ base quote last, take notional b q (depthOf isAsk levels) = some (base, quote, last) →
      impactWalk isAsk notional b q levels = .ok (base, quote)) ∧
    (take notional b q (depthOf isAsk levels) = none →
      ∃ acc, impactWalk isAsk notional b q levels = .ok acc ∧ acc.2 < notional) := by
  induction levels generalizing b q with
  | nil => exact ⟨fun base quote last h => (nomatch h), fun _ => ⟨(b, q), rfl, hq⟩⟩
  | cons v rest ih =>
    have hv := hsound v List.mem_cons_self
    have hrest : ∀ v ∈ rest, v.Sound := fun w hw => hsound w (List.mem_cons_of_mem _ hw)
    by_cases hzero : (v.sums isAsk).1 = 0
    · rw [depthOf_cons_zero hzero] at hfit ⊢
      rw [impactWalk, if_pos hzero]
      exact ih hrest hb hq hfit
    · rw [depthOf_cons hzero, reached] at hfit
      rw [depthOf_cons hzero, take]
      by_cases hle : notional ≤ q + (v.sums isAsk).1 * v.price
      · rw [if_pos hle, quoteOf_cons, quoteOf_nil] at hfit
        rw [if_pos hle, impactWalk_last hv hmax hb hq hzero hle (by omega)]
        refine ⟨fun base quote last h => ?_, fun h => by cases h⟩
        simp only [Option.some.injEq, Prod.mk.injEq] at h
        rw [h.1, h.2.1]
      · have hword : q + (v.sums isAsk).1 * v.price < 2 ^ 64 :=
          Nat.lt_trans (not_le.mp hle) (Nat.lt_of_le_of_lt hmax (by decide))
        have hself : (v.sums isAsk).1 ≤ (v.sums isAsk).1 * v.price :=
          Nat.le_mul_of_pos_right _ hv.price_pos
        rw [if_neg hle, quoteOf_cons] at hfit
        rw [if_neg hle, impactWalk]
        simp only [if_neg hzero, hv.quote, word64_of_lt hword, if_neg hle]
        rw [word64_of_lt (by omega)]
        exact ih hrest (by omega) (not_le.mp hle) (by dsimp only at hfit; omega)

/-- **Where the sums do not fit the loop walks on**, and ends short of the notional if nothing is
left. -/
theorem impactWalk_overflow (hsound : ∀ v ∈ levels, v.Sound)
    (hmax : notional ≤ impactUSDCAmount * marginTick) (hb : b ≤ q) (hq : q < notional)
    (hall : reached notional q (depthOf isAsk levels) = depthOf isAsk levels)
    (hover : 2 ^ 64 ≤ q + quoteOf (depthOf isAsk levels)) :
    ∃ acc, impactWalk isAsk notional b q levels = .ok acc ∧ acc.2 < notional := by
  induction levels generalizing b q with
  | nil => exact ⟨(b, q), rfl, hq⟩
  | cons v rest ih =>
    have hv := hsound v List.mem_cons_self
    have hrest : ∀ v ∈ rest, v.Sound := fun w hw => hsound w (List.mem_cons_of_mem _ hw)
    have hbound : notional < 2 ^ 64 := Nat.lt_of_le_of_lt hmax (by decide)
    by_cases hzero : (v.sums isAsk).1 = 0
    · rw [depthOf_cons_zero hzero] at hall hover
      rw [impactWalk, if_pos hzero]
      exact ih hrest hb hq hall hover
    · rw [depthOf_cons hzero, reached] at hall
      rw [depthOf_cons hzero, quoteOf_cons] at hover
      have hquote := hv.quote isAsk
      by_cases hle : notional ≤ q + (v.sums isAsk).1 * v.price
      · -- the last price: its sum overflows
        rw [if_pos hle] at hall
        have hempty : depthOf isAsk rest = [] := (List.cons.inj hall).2.symm
        rw [hempty, quoteOf_nil] at hover
        have hword := hv.word isAsk
        rw [hquote] at hword
        have hmaxWord : maxUint64 < 2 ^ 64 := by decide
        have hwrap : word64 (q + (v.sums isAsk).1 * v.price)
            = q + (v.sums isAsk).1 * v.price - 2 ^ 64 :=
          word64_of_ge (by dsimp only at hover; omega) (by omega)
        rw [impactWalk]
        simp only [if_neg hzero, hquote, hwrap]
        rw [if_neg (by omega), impactWalk_of_empty hempty]
        exact ⟨_, rfl, by dsimp only; omega⟩
      · have hword : q + (v.sums isAsk).1 * v.price < 2 ^ 64 := Nat.lt_trans (not_le.mp hle) hbound
        have hself : (v.sums isAsk).1 ≤ (v.sums isAsk).1 * v.price :=
          Nat.le_mul_of_pos_right _ hv.price_pos
        rw [if_neg hle] at hall
        rw [impactWalk]
        simp only [if_neg hzero, hquote, word64_of_lt hword, if_neg hle]
        rw [word64_of_lt (by omega)]
        exact ih hrest (by omega) (not_le.mp hle) (List.cons.inj hall).2
          (by dsimp only at hover; omega)

end Walk

/-! ### The sides of a market -/

/-- The sums per price of the market are sound. -/
def LevelsSound (s : State) (market : ℕ) : Prop := ∀ v, s.book.priceLevels.get v.key = some v →
  v.marketIndex = market → v.Sound

/-- Better prices of a side come first. -/
def better (isAsk : Bool) (p p' : ℕ) : Prop := if isAsk then p < p' else p' < p

section Sides

variable {s : State} {market notional : ℕ} {isAsk : Bool}

theorem mem_sideLevels {v : PriceLevelAggregate} (h : v ∈ sideLevels s market isAsk) :
    s.book.priceLevels.get v.key = some v ∧ v.marketIndex = market := by
  have hmem : v ∈ s.book.priceLevels.range fun k => decide ((ofLex k).1 = market) := by
    unfold sideLevels at h
    split at h
    · exact h
    · exact List.mem_reverse.mp h
  obtain ⟨hget, hp⟩ := Table.mem_range.mp hmem
  exact ⟨hget, of_decide_eq_true hp⟩

theorem sideLevels_sorted (s : State) (market : ℕ) (isAsk : Bool) :
    (sideLevels s market isAsk).Pairwise fun v w => better isAsk v.price w.price := by
  have hsorted : (s.book.priceLevels.range fun k => decide ((ofLex k).1 = market)).Pairwise
      fun v w => v.price < w.price := by
    refine (s.book.priceLevels.range_sorted _).imp_of_mem fun {v w} hv hw hlt => ?_
    have hmv : v.marketIndex = market := of_decide_eq_true (Table.mem_range.mp hv).2
    have hmw : w.marketIndex = market := of_decide_eq_true (Table.mem_range.mp hw).2
    rcases Prod.Lex.toLex_lt_toLex.mp hlt with h | h
    · exact absurd h (not_lt.mpr (hmw.trans hmv.symm).le)
    · exact h.2
  unfold sideLevels
  cases isAsk with
  | true => exact hsorted
  | false => exact List.pairwise_reverse.mpr hsorted

theorem depthOf_sorted (s : State) (market : ℕ) (isAsk : Bool) :
    (depthOf isAsk (sideLevels s market isAsk)).Pairwise fun x y => better isAsk x.1 y.1 := by
  refine List.Pairwise.filter _ (List.pairwise_map.mpr ?_)
  exact sideLevels_sorted s market isAsk

theorem marketImpactNotional_le (h : marketImpactNotional market s = .ok notional) :
    notional ≤ impactUSDCAmount * marginTick := by
  obtain ⟨d, -, h⟩ := except_bind_ok.mp h
  split at h
  · cases h
    exact Nat.zero_le _
  · dsimp only at h
    generalize (if d.quoteMultiplier = 0 then 1 else d.quoteMultiplier) = qm at h
    split at h
    · cases h
    · cases h
      exact Nat.div_le_self _ _

theorem computeImpactPrice_eq (hnotional : marketImpactNotional market s = .ok notional)
    (hpos : 0 < notional) {acc : ℕ × ℕ}
    (hwalk : impactWalk isAsk notional 0 0 (sideLevels s market isAsk) = .ok acc) :
    computeImpactPrice market isAsk s = .ok (impactAverage isAsk notional acc) := by
  refine except_bind_ok.mpr ⟨notional, hnotional, ?_⟩
  rw [if_neg hpos.ne']
  exact except_bind_ok.mpr ⟨acc, hwalk, rfl⟩

theorem impactSpec_of_take {side : Side} {base quote last : ℕ} (hpos : 0 < notional)
    (hmax : notional ≤ impactUSDCAmount * marginTick)
    (hprices : ∀ l ∈ side, 0 < l.1 ∧ l.1 ≤ maxUint32)
    (hsorted : side.Pairwise fun x y => better isAsk x.1 y.1)
    (htake : take notional 0 0 side = some (base, quote, last)) :
    ImpactSpec isAsk notional side (impactAverage isAsk notional (base, quote)) := by
  obtain ⟨hn, hlt, hbase⟩ := le_of_take (fun l hl => (hprices l hl).1) hpos htake
  have henough : ¬ quoteOf side < notional := fun hshort => by
    rw [(take_eq_none_iff (b := 0) hpos).mpr (by rw [Nat.zero_add]; exact hshort)] at htake
    cases htake
  obtain ⟨first, size, rest, rfl⟩ : ∃ first size rest, side = (first, size) :: rest := by
    cases side with
    | nil => cases htake
    | cons l rest => exact ⟨l.1, l.2, rest, rfl⟩
  obtain ⟨front, lastSize, hreached⟩ := reached_last htake
  have hlastPrice : 0 < last ∧ last ≤ maxUint32 := by
    obtain ⟨tail, htail⟩ := reached_prefix notional 0 ((first, size) :: rest)
    refine hprices (last, lastSize) ?_
    rw [htail, hreached]
    exact List.mem_append_left _ (List.mem_append_right _ List.mem_cons_self)
  have hfirstPrice := hprices (first, size) List.mem_cons_self
  have hmaxPrice : maxUint32 < 2 ^ 32 := by decide
  have hbound : notional < 2 ^ 43 := Nat.lt_of_le_of_lt hmax (by decide)
  have hbetween := take_between hsorted htake
  have hzero : ¬ (quote < notional ∨ base = 0) := by omega
  cases isAsk with
  | true =>
    obtain ⟨hlow, hhigh⟩ := hbetween.1 fun x y h => Nat.le_of_lt h
    have hup : first ≤ quote ⌈/⌉ base := by
      refine Nat.le_of_mul_le_mul_left (hlow.trans ?_) hbase
      exact le_smul_ceilDiv hbase
    have hdown : quote ⌈/⌉ base ≤ last := (ceilDiv_le_iff_le_mul hbase).mpr hhigh
    have hself : base ≤ quote := (Nat.le_mul_of_pos_right base hfirstPrice.1).trans hlow
    have havg : impactAverage true notional (base, quote) = quote ⌈/⌉ base := by
      rw [impactAverage, if_neg hzero, if_pos rfl, word64_of_lt (by dsimp only; omega)]
      exact Nat.mod_eq_of_lt (by
        show quote ⌈/⌉ base < 2 ^ 32
        omega)
    rw [havg]
    refine ⟨⟨fun h => by omega, fun h => absurd h henough⟩, fun _ => ?_⟩
    exact ⟨first, size, rest, base, quote, last, rfl, htake, rfl, hup, hdown⟩
  | false =>
    obtain ⟨hlow, hhigh⟩ := hbetween.2 fun x y h => Nat.le_of_lt h
    have hup : last ≤ quote / base := (Nat.le_div_iff_mul_le hbase).mpr (by
      rw [Nat.mul_comm]
      exact hlow)
    have hdown : quote / base ≤ first := Nat.div_le_of_le_mul hhigh
    have havg : impactAverage false notional (base, quote) = quote / base := by
      rw [impactAverage, if_neg hzero, if_neg Bool.false_ne_true]
      exact Nat.mod_eq_of_lt (by dsimp only; omega)
    rw [havg]
    refine ⟨⟨fun h => by omega, fun h => absurd h henough⟩, fun _ => ?_⟩
    exact ⟨first, size, rest, base, quote, last, rfl, htake, rfl, hup, hdown⟩

theorem impactSpec_of_short {side : Side} {acc : ℕ × ℕ} (hshort : quoteOf side < notional)
    (hacc : acc.2 < notional) : ImpactSpec isAsk notional side (impactAverage isAsk notional acc) := by
  rw [impactAverage, if_pos (.inl hacc)]
  exact ⟨⟨fun _ => hshort, fun _ => rfl⟩, fun h => absurd hshort (not_lt.mpr h)⟩

end Sides

/-! ### When the impact price is exact -/

section Exact

variable {s : State} {market notional : ℕ} {isAsk : Bool}

/-- **Where the sums fit into a word, the impact price is the exact one.** -/
theorem impactSpec_of_fits (hnotional : marketImpactNotional market s = .ok notional)
    (hpos : 0 < notional) (hsound : LevelsSound s market)
    (hfit : quoteOf (reached notional 0 (depthOf isAsk (sideLevels s market isAsk))) < 2 ^ 64) :
    ∃ r, computeImpactPrice market isAsk s = .ok r ∧
      ImpactSpec isAsk notional (depthOf isAsk (sideLevels s market isAsk)) r := by
  have hmax := marketImpactNotional_le hnotional
  have hlevels : ∀ v ∈ sideLevels s market isAsk, v.Sound := fun v hv => by
    obtain ⟨hget, hm⟩ := mem_sideLevels hv
    exact hsound v hget hm
  have hprices : ∀ l ∈ depthOf isAsk (sideLevels s market isAsk), 0 < l.1 ∧ l.1 ≤ maxUint32 := by
    intro l hl
    obtain ⟨v, hv, rfl⟩ := mem_depthOf hl
    exact ⟨(hlevels v hv).price_pos, (hlevels v hv).price_le⟩
  obtain ⟨hsome, hnone⟩ := impactWalk_exact (b := 0) hlevels hmax le_rfl hpos
    (by rw [Nat.zero_add]; exact hfit)
  rcases htake : take notional 0 0 (depthOf isAsk (sideLevels s market isAsk)) with
    _ | ⟨base, quote, last⟩
  · obtain ⟨acc, hwalk, hacc⟩ := hnone htake
    have hshort := (take_eq_none_iff hpos).mp htake
    rw [Nat.zero_add] at hshort
    exact ⟨_, computeImpactPrice_eq hnotional hpos hwalk, impactSpec_of_short hshort hacc⟩
  · exact ⟨_, computeImpactPrice_eq hnotional hpos (hsome base quote last htake),
      impactSpec_of_take hpos hmax hprices (depthOf_sorted s market isAsk) htake⟩

/-- The book of the market without the prices that are not touched. -/
def touchedOnly (s : State) (market notional : ℕ) (isAsk : Bool) : State :=
  { s with
    book.priceLevels := s.book.priceLevels.restrict fun k =>
      decide ((ofLex k).1 ≠ market ∨ (ofLex k).2 ∈
        (reached notional 0 (depthOf isAsk (sideLevels s market isAsk))).map Prod.fst) }

theorem filter_mem_prefix {l a c : Side} (hl : l = a ++ c)
    (hne : l.Pairwise fun x y => x.1 ≠ y.1) :
    l.filter (fun x => decide (x.1 ∈ a.map Prod.fst)) = a := by
  subst hl
  obtain ⟨-, -, hcross⟩ := List.pairwise_append.mp hne
  have hkeep : a.filter (fun x => decide (x.1 ∈ a.map Prod.fst)) = a :=
    List.filter_eq_self.mpr fun x hx => decide_eq_true (List.mem_map_of_mem hx)
  have hdrop : c.filter (fun x => decide (x.1 ∈ a.map Prod.fst)) = [] := by
    refine List.filter_eq_nil_iff.mpr fun x hx hmem => ?_
    obtain ⟨y, hy, heq⟩ := List.mem_map.mp (of_decide_eq_true hmem)
    exact hcross y hy x hx heq
  rw [List.filter_append, hkeep, hdrop, List.append_nil]

theorem depthOf_touchedOnly (s : State) (market notional : ℕ) (isAsk : Bool) :
    depthOf isAsk (sideLevels (touchedOnly s market notional isAsk) market isAsk)
      = reached notional 0 (depthOf isAsk (sideLevels s market isAsk)) := by
  set touched := (reached notional 0 (depthOf isAsk (sideLevels s market isAsk))).map Prod.fst
    with htouched
  -- the levels of the market that are left
  have hlevels : sideLevels (touchedOnly s market notional isAsk) market isAsk
      = (sideLevels s market isAsk).filter fun v => decide (v.price ∈ touched) := by
    have hrange : ((touchedOnly s market notional isAsk).book.priceLevels.range fun k =>
        decide ((ofLex k).1 = market)) = (s.book.priceLevels.range fun k =>
          decide ((ofLex k).1 = market)).filter fun v => decide (v.price ∈ touched) := by
      show (s.book.priceLevels.restrict _).range _ = _
      rw [Table.range_restrict]
      refine List.filter_congr fun v hv => ?_
      have hm : v.marketIndex = market := of_decide_eq_true (Table.mem_range.mp hv).2
      refine decide_eq_decide.mpr ⟨fun h => h.resolve_left (not_not.mpr hm), fun h => .inr h⟩
    unfold sideLevels
    rw [hrange]
    split
    · rfl
    · rw [List.filter_reverse]
  obtain ⟨rest, hrest⟩ := reached_prefix notional 0 (depthOf isAsk (sideLevels s market isAsk))
  have hdiffer : (depthOf isAsk (sideLevels s market isAsk)).Pairwise fun x y => x.1 ≠ y.1 := by
    refine (depthOf_sorted s market isAsk).imp fun {x y} h heq => ?_
    unfold better at h
    rw [heq] at h
    split at h <;> exact lt_irrefl _ h
  rw [← filter_mem_prefix hrest hdiffer, ← htouched, hlevels, depthOf, depthOf, List.filter_filter,
    List.filter_map, List.filter_map, List.filter_filter]
  simp only [Function.comp_def, Bool.and_comm]

/-- **The impact price is the exact one on every book that agrees with this one on the prices that
are touched if and only if their quotes add up to a word.** -/
theorem impact_price_exact_iff (isAsk : Bool)
    (hnotional : marketImpactNotional market s = .ok notional) (hpos : 0 < notional)
    (hsound : LevelsSound s market) :
    (∀ t, marketImpactNotional market t = .ok notional → LevelsSound t market →
      reached notional 0 (depthOf isAsk (sideLevels t market isAsk))
        = reached notional 0 (depthOf isAsk (sideLevels s market isAsk)) →
      ∃ r, computeImpactPrice market isAsk t = .ok r ∧
        ImpactSpec isAsk notional (depthOf isAsk (sideLevels t market isAsk)) r) ↔
    quoteOf (reached notional 0 (depthOf isAsk (sideLevels s market isAsk))) < 2 ^ 64 := by
  constructor
  · intro hall
    by_contra hover
    have hdepth := depthOf_touchedOnly s market notional isAsk
    set t := touchedOnly s market notional isAsk with ht
    have hnotional' : marketImpactNotional market t = .ok notional := hnotional
    have hsound' : LevelsSound t market := by
      intro v hv hm
      rw [ht, touchedOnly, Table.get_restrict] at hv
      split at hv
      · exact hsound v hv hm
      · cases hv
    have hlevels : ∀ v ∈ sideLevels t market isAsk, v.Sound := fun v hv => by
      obtain ⟨hget, hm⟩ := mem_sideLevels hv
      exact hsound' v hget hm
    have hreached : reached notional 0 (depthOf isAsk (sideLevels t market isAsk))
        = depthOf isAsk (sideLevels t market isAsk) := by
      rw [hdepth, reached_reached]
    have hworth : 2 ^ 64 ≤ quoteOf (depthOf isAsk (sideLevels t market isAsk)) := by
      rw [hdepth]
      exact not_lt.mp hover
    obtain ⟨acc, hwalk, hacc⟩ := impactWalk_overflow (b := 0) (q := 0) hlevels
      (marketImpactNotional_le hnotional) le_rfl hpos hreached (by rw [Nat.zero_add]; exact hworth)
    -- the side counts as empty although there is enough on offer
    obtain ⟨r, hr, hspec⟩ := hall t hnotional' hsound' (hreached.trans hdepth)
    rw [computeImpactPrice_eq hnotional' hpos hwalk, impactAverage, if_pos (.inl hacc)] at hr
    have hshort := hspec.zero_iff.mp (Except.ok.inj hr).symm
    have hbound : notional < 2 ^ 64 :=
      Nat.lt_of_le_of_lt (marketImpactNotional_le hnotional) (by decide)
    omega
  · intro hfit t hnotional' hsound' hsame
    exact impactSpec_of_fits hnotional' hpos hsound' (by rw [hsame]; exact hfit)

end Exact

/-- A market in which 500000000 are traded at once, with two asks. -/
def askLevels (lowest next : PriceLevelAggregate) : State where
  market := { marketDetails := Table.ofRows [{
    marketIndex := 0, minInitialMarginFraction := 10000, quoteMultiplier := 1 }] }
  book := { priceLevels := Table.ofRows [lowest, next] }

theorem LevelsSound.of_rows {s : State} {market : ℕ}
    (h : ∀ v ∈ s.book.priceLevels.toList, v.Sound) : LevelsSound s market :=
  fun v hget _ => h v (Table.mem_toList hget)

/-- Two units at 1 and then 500000000 at 2: the first price and half as many of the second. -/
theorem impact_price_exact_iff_two_asks :
    let s := askLevels { marketIndex := 0, price := 1, askBaseSum := 2, askQuoteSum := 2 }
      { marketIndex := 0, price := 2, askBaseSum := 500000000, askQuoteSum := 1000000000 }
    ∃ r, computeImpactPrice 0 true s = .ok r ∧
      ImpactSpec true 500000000 (depthOf true (sideLevels s 0 true)) r := by
  intro s
  have hnotional : marketImpactNotional 0 s = .ok 500000000 := by decide +kernel
  have hsound : LevelsSound s 0 := .of_rows (by decide +kernel)
  exact (impact_price_exact_iff true hnotional (by decide) hsound).mpr (by decide +kernel)
    s hnotional hsound rfl

/-- Two units at 1 and then `2 ^ 63 - 1` at 2: the quotes add up to `2 ^ 64`, so the side counts as
empty. -/
theorem impact_price_overflow :
    let s := askLevels { marketIndex := 0, price := 1, askBaseSum := 2, askQuoteSum := 2 }
      { marketIndex := 0, price := 2, askBaseSum := 2 ^ 63 - 1, askQuoteSum := 2 ^ 64 - 2 }
    marketImpactNotional 0 s = .ok 500000000 ∧
      (∀ v ∈ s.book.priceLevels.toList, v.Sound) ∧
      500000000 ≤ quoteOf (depthOf true (sideLevels s 0 true)) ∧
      computeImpactPrice 0 true s = .ok 0 := by
  decide +kernel

end PerpDex
