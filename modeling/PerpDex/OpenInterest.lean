/-
Market neutrality and open interest.

* `MarketNeutral` — longs and shorts cancel, and the open interest is half the total size.

Main result: `marketNeutral_of_run`.

A fill adds up the two size changes in a 64-bit word.  When the sum wraps, the open interest would leave
its range and the update is rejected, so no bound on the positions is needed.
-/
import Mathlib.Logic.Relation
import PerpDex.AccountMsgs
import PerpDex.EngineSpec

namespace PerpDex

variable {s t : State}

/-! ### Sums over one market -/

/-- Sum of `g` over the positions of a market. -/
def marketSum (g : AccountPosition → ℤ) (s : State) (m : ℕ) : ℤ :=
  s.account.accountPositions.sum fun p => if p.marketIndex = m then g p else 0

theorem marketSum_sub_marketSum {g : AccountPosition → ℤ} {m : ℕ}
    (hg : ∀ a m, g { accountIndex := a, marketIndex := m } = 0) (F : Finset ℕ)
    (h : ∀ a ∉ F, g (getPosition t a m) = g (getPosition s a m)) :
    marketSum g t m - marketSum g s m
      = ∑ a ∈ F, (g (getPosition t a m) - g (getPosition s a m)) := by
  set g' : AccountPosition → ℤ := fun p => if p.marketIndex = m then g p else 0 with hg'
  have hzero : ∀ a m', g' { accountIndex := a, marketIndex := m' } = 0 := by
    intro a m'
    simp [hg', hg]
  have hin : ∀ u a, g' (getPosition u a m) = g (getPosition u a m) := fun u a => by simp [hg']
  have hoff : ∀ k ∉ F.map ⟨fun a => toLex (a, m), fun a b hab => by simpa using hab⟩,
      t.account.accountPositions.rows.term (fun _ p => g' p) k
        = s.account.accountPositions.rows.term (fun _ p => g' p) k := by
    intro k hk
    obtain ⟨a, m', rfl⟩ : ∃ a m', k = toLex (a, m') := ⟨(ofLex k).1, (ofLex k).2, rfl⟩
    rw [term_accountPositions t hzero, term_accountPositions s hzero]
    by_cases hm : m' = m
    · subst hm
      have ha : a ∉ F := fun hmem => hk (Finset.mem_map.mpr ⟨a, hmem, rfl⟩)
      rw [hin, hin, h a ha]
    · -- positions of other markets do not count
      have hout : ∀ u, g' (getPosition u a m') = 0 := fun u => by simp [hg', hm]
      rw [hout, hout]
  have hdiff := KVStore.sum_sub_sum _ hoff
  rw [Finset.sum_map] at hdiff
  refine hdiff.trans (Finset.sum_congr rfl fun a _ => ?_)
  show t.account.accountPositions.rows.term (fun _ p => g' p) (toLex (a, m))
    - s.account.accountPositions.rows.term (fun _ p => g' p) (toLex (a, m)) = _
  rw [term_accountPositions t hzero, term_accountPositions s hzero, hin, hin]

/-- Sum of the signed sizes in a market. -/
def netSize : State → ℕ → ℤ := marketSum (·.baseSize)

/-- Sum of the absolute sizes in a market. -/
def grossSize : State → ℕ → ℤ := marketSum fun p => |p.baseSize|

theorem grossSize_nonneg (s : State) (m : ℕ) : 0 ≤ grossSize s m := by
  unfold grossSize marketSum Table.sum
  refine KVStore.sum_nonneg fun k p _ => ?_
  dsimp only
  split
  · exact abs_nonneg _
  · exact le_refl 0

theorem netSize_sub_netSize {m : ℕ} (F : Finset ℕ)
    (h : ∀ a ∉ F, (getPosition t a m).baseSize = (getPosition s a m).baseSize) :
    netSize t m - netSize s m
      = ∑ a ∈ F, ((getPosition t a m).baseSize - (getPosition s a m).baseSize) :=
  marketSum_sub_marketSum (fun _ _ => rfl) F h

theorem grossSize_sub_grossSize {m : ℕ} (F : Finset ℕ)
    (h : ∀ a ∉ F, (getPosition t a m).baseSize = (getPosition s a m).baseSize) :
    grossSize t m - grossSize s m
      = ∑ a ∈ F, (|(getPosition t a m).baseSize| - |(getPosition s a m).baseSize|) :=
  marketSum_sub_marketSum (fun _ _ => abs_zero) F fun a ha => by rw [h a ha]

/-! ### The invariant -/

/-- Longs and shorts of a market cancel and its open interest counts every unit once. -/
structure MarketNeutral (s : State) (m : ℕ) : Prop where
  net : netSize s m = 0
  gross : grossSize s m = 2 * (detailsOf s m).openInterest

/-- The stored open interest is a 64-bit integer. -/
def OpenInterestFits (s : State) (m : ℕ) : Prop := (detailsOf s m).openInterest ≤ maxInt64

theorem MarketNeutral.of_sizes {m : ℕ} (h : MarketNeutral s m)
    (hsize : ∀ a, (getPosition t a m).baseSize = (getPosition s a m).baseSize)
    (hinterest : (detailsOf t m).openInterest = (detailsOf s m).openInterest) :
    MarketNeutral t m := by
  have hnet := netSize_sub_netSize ∅ fun a (_ : a ∉ (∅ : Finset ℕ)) => hsize a
  have hgross := grossSize_sub_grossSize ∅ fun a (_ : a ∉ (∅ : Finset ℕ)) => hsize a
  rw [Finset.sum_empty] at hnet hgross
  have h₁ := h.net
  have h₂ := h.gross
  exact ⟨by omega, by omega⟩

/-! ### Fills -/

/-- Two sizes move by opposite amounts to sizes of at most `maxPositionSize`.  If their total and the
open interest are in step before, and the update is accepted, then half of the word that holds the sum
of both changes is exactly half of that sum. -/
theorem two_mul_oiDelta {x y n oi gross : ℤ}
    (hx : |x + n| ≤ maxPositionSize) (hy : |y - n| ≤ maxPositionSize)
    (hxr : minInt64 ≤ |x + n| - |x|) (hyr : minInt64 ≤ |y - n| - |y|)
    (hgross : gross = 2 * oi) (hafter : 0 ≤ gross + (|x + n| - |x| + (|y - n| - |y|)))
    (hfits : oi ≤ maxInt64)
    (hnext : 0 < (Arith.wrap64 (|x + n| - |x| + (|y - n| - |y|))).tdiv 2 →
      oi + (Arith.wrap64 (|x + n| - |x| + (|y - n| - |y|))).tdiv 2 ≤ maxInt64) :
    2 * (Arith.wrap64 (|x + n| - |x| + (|y - n| - |y|))).tdiv 2
      = |x + n| - |x| + (|y - n| - |y|) := by
  have heven := Arith.even_abs_sub x y n
  have hx0 := abs_nonneg x
  have hy0 := abs_nonneg y
  generalize hS : |x + n| - |x| + (|y - n| - |y|) = S at *
  unfold maxPositionSize at hx hy
  unfold minInt64 at hxr hyr
  unfold maxInt64 at hfits hnext
  by_cases hlow : -2 ^ 63 ≤ S
  · rw [Arith.wrap64_of_mem hlow (by omega)]
    exact Arith.two_mul_tdiv_two heven
  · -- a wrapped sum would push the open interest out of its range
    exfalso
    rw [Arith.wrap64_of_lt_min (by omega) (by omega)] at hnext
    have hhalf := Arith.two_mul_tdiv_two (show (S + 2 ^ 64) % 2 = 0 by omega)
    have hpos : 0 < (S + 2 ^ 64).tdiv 2 := by omega
    have := hnext hpos
    omega

/-- In the market of a fill the sums change by what the two sides change, once both positions are
written. -/
theorem Fill.sums_of_nextPosition (f : Fill) {d : MarketDetails}
    (hne : f.makerAccountIndex ≠ f.takerAccountIndex)
    (hsize : ∀ a, (getPosition t a f.marketIndex).baseSize
      = (f.nextPosition s d a f.marketIndex).baseSize) :
    netSize t f.marketIndex = netSize s f.marketIndex ∧
      grossSize t f.marketIndex = grossSize s f.marketIndex +
        ((f.makerChange s d).oiDelta + (f.takerChange s d).oiDelta) := by
  have hmaker : (getPosition t f.makerAccountIndex f.marketIndex).baseSize
      = (f.makerFill s d).position.baseSize := by
    rw [hsize, Fill.nextPosition, if_pos rfl, if_pos rfl]
  have htaker : (getPosition t f.takerAccountIndex f.marketIndex).baseSize
      = (f.takerFill s d).position.baseSize := by
    rw [hsize, Fill.nextPosition, if_pos rfl, if_neg hne.symm, if_pos rfl]
  have hrest : ∀ a ∉ ({f.makerAccountIndex, f.takerAccountIndex} : Finset ℕ),
      (getPosition t a f.marketIndex).baseSize = (getPosition s a f.marketIndex).baseSize := by
    intro a ha
    simp only [Finset.mem_insert, Finset.mem_singleton, not_or] at ha
    rw [hsize, Fill.nextPosition, if_pos rfl, if_neg ha.1, if_neg ha.2]
  have hnet := netSize_sub_netSize _ hrest
  have hgross := grossSize_sub_grossSize _ hrest
  rw [Finset.sum_pair hne, hmaker, htaker] at hnet hgross
  rw [← f.makerChange_oiDelta, ← f.takerChange_oiDelta] at hgross
  rw [f.makerFill_baseSize, f.takerFill_baseSize] at hnet
  exact ⟨by omega, by omega⟩

namespace FillEffect

variable {f : Fill} {d : MarketDetails} {c al : ℕ → ℤ}

theorem baseSize (h : FillEffect f d c al s t) (a m : ℕ) :
    (getPosition t a m).baseSize =
      if m = f.marketIndex then
        if a = f.makerAccountIndex then (f.makerFill s d).position.baseSize
        else if a = f.takerAccountIndex then (f.takerFill s d).position.baseSize
        else (getPosition s a m).baseSize
      else (getPosition s a m).baseSize := by
  rw [h.position]
  show (f.nextPosition s d a m).baseSize = _
  unfold Fill.nextPosition
  split_ifs <;> rfl

theorem detailsOf_eq (h : FillEffect f d c al s t) (m : ℕ) :
    detailsOf t m = if m = f.marketIndex then
        { d with openInterest :=
            d.openInterest + oiDeltaOf (f.makerChange s d) (f.takerChange s d) }
      else detailsOf s m := by
  have hkey := Table.key_of_get h.details
  unfold detailsOf
  rw [h.market]
  simp only [State.putDetails, Table.get_put, hkey]
  split
  · rfl
  · rfl

theorem sums (h : FillEffect f d c al s t) (hne : f.makerAccountIndex ≠ f.takerAccountIndex) :
    netSize t f.marketIndex = netSize s f.marketIndex ∧
      grossSize t f.marketIndex = grossSize s f.marketIndex +
        ((f.makerChange s d).oiDelta + (f.takerChange s d).oiDelta) :=
  f.sums_of_nextPosition hne fun a => by rw [h.position]; rfl

theorem oiDelta_exact (h : FillEffect f d c al s t)
    (hne : f.makerAccountIndex ≠ f.takerAccountIndex) (hn : MarketNeutral s f.marketIndex)
    (hfits : OpenInterestFits s f.marketIndex) :
    2 * oiDeltaOf (f.makerChange s d) (f.takerChange s d)
      = (f.makerChange s d).oiDelta + (f.takerChange s d).oiDelta := by
  have hsd : detailsOf s f.marketIndex = d := by
    rw [detailsOf, h.details]
    rfl
  have hafter := grossSize_nonneg t f.marketIndex
  rw [(h.sums hne).2] at hafter
  have hgross := hn.gross
  rw [OpenInterestFits, hsd] at hfits
  rw [hsd] at hgross
  have hmr := h.makerRange
  have htr := h.takerRange
  have hmb := h.makerInBounds.baseSize_le
  have htb := h.takerInBounds.baseSize_le
  have hmax := h.openInterest.le_max
  rw [oiDeltaOf] at hmax ⊢
  simp only [f.makerChange_oiDelta, f.takerChange_oiDelta, f.makerFill_baseSize,
    f.takerFill_baseSize] at *
  exact two_mul_oiDelta hmb htb hmr htr hgross hafter hfits hmax

theorem marketNeutral (h : FillEffect f d c al s t)
    (hne : f.makerAccountIndex ≠ f.takerAccountIndex) {m : ℕ} (hn : MarketNeutral s m)
    (hfits : OpenInterestFits s m) : MarketNeutral t m ∧ OpenInterestFits t m := by
  by_cases hm : m = f.marketIndex
  · subst hm
    have hsd : detailsOf s f.marketIndex = d := by
      rw [detailsOf, h.details]
      rfl
    have htd : (detailsOf t f.marketIndex).openInterest
        = d.openInterest + oiDeltaOf (f.makerChange s d) (f.takerChange s d) := by
      rw [h.detailsOf_eq, if_pos rfl]
    have hhalf := h.oiDelta_exact hne hn hfits
    obtain ⟨hnet, hgross⟩ := h.sums hne
    have hbefore := hn.gross
    rw [OpenInterestFits, hsd] at hfits
    rw [hsd] at hbefore
    refine ⟨⟨hnet.trans hn.net, by omega⟩, ?_⟩
    have hmax := h.openInterest.le_max
    rw [OpenInterestFits, htd]
    omega
  · have hsize : ∀ a, (getPosition t a m).baseSize = (getPosition s a m).baseSize := by
      intro a
      rw [h.baseSize, if_neg hm]
    have hdetails := h.detailsOf_eq m
    rw [if_neg hm] at hdetails
    refine ⟨hn.of_sizes hsize (congrArg _ hdetails), ?_⟩
    rw [OpenInterestFits, hdetails]
    exact hfits

end FillEffect

theorem apply_baseSize {f : Fill} {r : Unit} (hne : f.makerAccountIndex ≠ f.takerAccountIndex)
    (h : (apply f).run s = .ok r t) :
    (getPosition t f.makerAccountIndex f.marketIndex).baseSize
        = (getPosition s f.makerAccountIndex f.marketIndex).baseSize + f.baseAmount * f.makerSign ∧
      (getPosition t f.takerAccountIndex f.marketIndex).baseSize
        = (getPosition s f.takerAccountIndex f.marketIndex).baseSize
          - f.baseAmount * f.makerSign := by
  obtain ⟨d, ct, alt, cm, alm, heffect, -⟩ := apply_ok hne h
  rw [heffect.baseSize, heffect.baseSize, if_pos rfl, if_pos rfl, if_pos rfl, if_neg hne.symm,
    if_pos rfl, f.makerFill_baseSize, f.takerFill_baseSize]
  exact ⟨rfl, rfl⟩

/-! ### Steps and runs -/

variable [AddressCodec]

/-- One successful operation on positions. -/
inductive PositionStep (s t : State) : Prop where
  | fill (f : Fill) (hne : f.makerAccountIndex ≠ f.takerAccountIndex)
      (h : (apply f).run s = .ok () t)
  | settleFunding (a m : ℕ) (h : (settlePositionFunding a m).run s = .ok () t)
  | updateMargin (msg : MsgUpdateMargin) (h : (PerpDex.updateMargin msg).run s = .ok () t)
  | updateLeverage (msg : MsgUpdateLeverage) (h : (PerpDex.updateLeverage msg).run s = .ok () t)

theorem PositionStep.marketNeutral {m : ℕ} (h : PositionStep s t) (hn : MarketNeutral s m)
    (hfits : OpenInterestFits s m) : MarketNeutral t m ∧ OpenInterestFits t m := by
  -- the last three kinds of steps only differ in why sizes and markets stay
  have keep : (∀ a, (getPosition t a m).baseSize = (getPosition s a m).baseSize) →
      t.market = s.market → MarketNeutral t m ∧ OpenInterestFits t m := by
    intro hsize hmarket
    have hdetails : detailsOf t m = detailsOf s m := by simp only [detailsOf, hmarket]
    refine ⟨hn.of_sizes hsize (congrArg _ hdetails), ?_⟩
    rw [OpenInterestFits, hdetails]
    exact hfits
  cases h with
  | fill f hne h =>
    obtain ⟨d, ct, alt, cm, alm, heffect, -⟩ := apply_ok hne h
    exact heffect.marketNeutral hne hn hfits
  | settleFunding a m' h =>
    have hsettled := (settlePositionFunding_keeps a m').ok h
    exact keep (fun b => hsettled.baseSize b m) hsettled.market
  | updateMargin msg h =>
    obtain ⟨s₁, c, al, hsettle, hmove⟩ := updateMargin_ok h
    have hsettled := (settlePositionFunding_keeps _ _).ok hsettle
    refine keep (fun b => ?_) (hmove.market.trans hsettled.market)
    rw [hmove.baseSize, hsettled.baseSize]
  | updateLeverage msg h =>
    obtain ⟨-, rfl⟩ := updateLeverage_ok h
    refine keep (fun b => ?_) rfl
    rw [getPosition_putPosition]
    split
    · rename_i hb
      simp only [getPosition_accountIndex, getPosition_marketIndex] at hb
      rw [hb.1, hb.2]
    · rfl

theorem PositionStep.markets (h : PositionStep s t) : t.market.markets = s.market.markets := by
  cases h with
  | fill f hne h =>
    obtain ⟨d, ct, alt, cm, alm, heffect, -⟩ := apply_ok hne h
    rw [heffect.market]
    rfl
  | settleFunding a m h => rw [((settlePositionFunding_keeps a m).ok h).market]
  | updateMargin msg h =>
    obtain ⟨s₁, c, al, hsettle, hmove⟩ := updateMargin_ok h
    have hsettled := (settlePositionFunding_keeps _ _).ok hsettle
    rw [hmove.market, hsettled.market]
  | updateLeverage msg h =>
    obtain ⟨-, rfl⟩ := updateLeverage_ok h
    rfl

def IsPerp (s : State) (m : ℕ) : Prop :=
  ∃ market, s.market.markets.get m = some market ∧ market.marketType = .perps

/-- **Market neutrality.**  Neutral markets stay neutral over every sequence of fills between different
accounts, funding settlements, margin updates and leverage updates. -/
theorem marketNeutral_of_run (hfits : ∀ m, IsPerp s m → OpenInterestFits s m)
    (hstart : ∀ m, IsPerp s m → MarketNeutral s m)
    (hrun : Relation.ReflTransGen PositionStep s t) :
    ∀ m, IsPerp t m → MarketNeutral t m := by
  have hinv : ∀ m, IsPerp t m → MarketNeutral t m ∧ OpenInterestFits t m := by
    induction hrun with
    | refl => exact fun m hm => ⟨hstart m hm, hfits m hm⟩
    | @tail u v _ hstep ih =>
      intro m hm
      have hm' : IsPerp u m := by
        rw [IsPerp, hstep.markets] at hm
        exact hm
      obtain ⟨hn, hf⟩ := ih m hm'
      exact hstep.marketNeutral hn hf
  exact fun m hm => (hinv m hm).1

omit [AddressCodec]

/-- One perpetual market and two funded traders without positions. -/
def twoTraders : State where
  account := { accounts := Table.ofRows [
    { accountIndex := 0 }, { accountIndex := 1 },
    { accountIndex := 2, collateral := 1000000 }, { accountIndex := 3, collateral := 1000000 }] }
  market := {
    markets := Table.ofRows [{ marketIndex := 0, takerFee := 500 }]
    marketDetails := Table.ofRows [{
      marketIndex := 0, markPrice := 100, defaultInitialMarginFraction := 1000,
      minInitialMarginFraction := 500, maintenanceMarginFraction := 400,
      closeOutMarginFraction := 200 }] }

/-- Trader 3 sells 50 units to trader 2. -/
def firstTrade : Fill where
  makerAccountIndex := 2
  takerAccountIndex := 3
  marketIndex := 0
  price := 100
  baseAmount := 50
  isTakerAsk := true
  takerFee := 500

/-- Trader 3 buys 70 units back, which turns both positions around. -/
def secondTrade : Fill where
  makerAccountIndex := 2
  takerAccountIndex := 3
  marketIndex := 0
  price := 100
  baseAmount := 70
  isTakerAsk := false
  takerFee := 500

theorem isPerp_twoTraders {m : ℕ} (h : IsPerp twoTraders m) : m = 0 := by
  obtain ⟨market, hget, -⟩ := h
  have hput : ((Table.empty : Table Market.marketIndex).put
      { marketIndex := 0, takerFee := 500 }).get m = some market := hget
  rw [Table.get_put] at hput
  by_contra hm
  rw [if_neg hm] at hput
  simp at hput

theorem marketNeutral_after_two_trades :
    let s₁ := Txn.after (apply firstTrade) twoTraders
    let s₂ := Txn.after (apply secondTrade) s₁
    (detailsOf s₁ 0).openInterest = 50 ∧ (detailsOf s₂ 0).openInterest = 20 ∧
      MarketNeutral s₂ 0 := by
  let _ := AddressCodec.acceptAll
  intro s₁ s₂
  have hfirst : PositionStep twoTraders s₁ :=
    .fill firstTrade (by decide) (Txn.run_of_succeeds (by decide +kernel))
  have hsecond : PositionStep s₁ s₂ :=
    .fill secondTrade (by decide) (Txn.run_of_succeeds (by decide +kernel))
  have hperp : IsPerp s₂ 0 :=
    ⟨{ marketIndex := 0, takerFee := 500 }, by decide +kernel, rfl⟩
  refine ⟨by decide +kernel, by decide +kernel, ?_⟩
  refine marketNeutral_of_run ?_ ?_ (.tail (.single hfirst) hsecond) 0 hperp
  · intro m hm
    rw [isPerp_twoTraders hm]
    show (0 : ℤ) ≤ maxInt64
    decide
  · intro m hm
    rw [isPerp_twoTraders hm]
    exact ⟨rfl, rfl⟩

end PerpDex
