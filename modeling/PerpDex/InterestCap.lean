/-
The cap on open interest and fills that do not raise it.

Main results: `derisking_admitted_iff`, `lowered_cap_blocks_close`.

The update compares the open interest after the fill with the cap, whatever the sign of the change.
-/
import PerpDex.ForcedFills
import PerpDex.MarketMsgs
import PerpDex.OpenInterest

namespace PerpDex

open Txn

variable {s t u : State} {f : Fill} {mr tr : PositionChangeResult}

/-! ### The update -/

theorem nextOpenInterest_ok_iff {d : MarketDetails} {delta : ℤ} (hdelta : delta ≤ 0)
    (hnonneg : 0 ≤ d.openInterest + delta) :
    (∃ d', nextOpenInterest d delta = .ok d') ↔
      d.openInterestLimit = 0 ∨ d.openInterest + delta ≤ d.openInterestLimit := by
  have hadd : checkedAddInt64 d.openInterest delta = .ok (d.openInterest + delta) := by
    unfold checkedAddInt64
    rw [if_neg (by omega), if_neg (by unfold minInt64; omega)]
  simp only [nextOpenInterest, hadd]
  rw [if_neg hnonneg.not_gt]
  split
  · rename_i hover
    simp only [reduceCtorEq, exists_false, false_iff]
    omega
  · rename_i hwithin
    simp only [Except.ok.injEq, exists_eq', true_iff]
    omega

theorem updateOpenInterest_succeeds_iff {m : ℕ} {delta : ℤ} {d : MarketDetails}
    (hd : s.market.marketDetails.get m = some d) (hdelta : delta ≤ 0)
    (hnonneg : 0 ≤ d.openInterest + delta) :
    succeeds (updateOpenInterest m delta) s = true ↔
      d.openInterestLimit = 0 ∨ d.openInterest + delta ≤ d.openInterestLimit := by
  rw [← nextOpenInterest_ok_iff hdelta hnonneg]
  have hread : getMarketDetails m s = .ok d := getMarketDetails_eq_ok.mpr hd
  have hrun : (updateOpenInterest m delta).run s = match nextOpenInterest d delta with
      | .ok d' => .ok () (s.putDetails d')
      | .error e => .error e s := by
    rw [updateOpenInterest, EStateM.run_bind, run_read, hread]
    dsimp only
    rw [EStateM.run_bind, run_read]
    cases nextOpenInterest d delta <;> rfl
  unfold Txn.succeeds
  rw [hrun]
  cases nextOpenInterest d delta <;> simp

/-! ### A fill on its way -/

/-- The fill has written both positions and routed the margin; `u` is the state in which it updates
the open interest. -/
def Fill.ReachesInterest (f : Fill) (s : State) (mr tr : PositionChangeResult) (u : State) : Prop :=
  ∃ pre s₁ s₂ s₃, (prepareFill f).run s = .ok pre s₁ ∧ (makerPositionChange f).run s₁ = .ok mr s₂ ∧
    (takerPositionChange f).run s₂ = .ok tr s₃ ∧ (routeMargin f mr tr).run s₃ = .ok () u

theorem Fill.ReachesInterest.unfold (h : f.ReachesInterest s mr tr u)
    (hne : f.makerAccountIndex ≠ f.takerAccountIndex) :
    ∃ d, s.market.marketDetails.get f.marketIndex = some d ∧ u.market = s.market ∧
      mr = f.makerChange s d ∧ tr = f.takerChange s d ∧
      (f.makerFill s d).InBounds ∧ (f.takerFill s d).InBounds ∧
      minInt64 ≤ mr.oiDelta ∧ minInt64 ≤ tr.oiDelta ∧
      ∀ a, (getPosition u a f.marketIndex).baseSize
        = (f.nextPosition s d a f.marketIndex).baseSize := by
  obtain ⟨pre, s₁, s₂, s₃, hprep, hmaker, htaker, hroute⟩ := h
  obtain ⟨d, hd, rfl, -, -⟩ := prepareFill_ok hprep
  obtain ⟨hmb, rfl, hmrange, rfl⟩ := makerPositionChange_ok hmaker
  obtain ⟨htb, rfl, htrange, rfl⟩ := takerPositionChange_ok hne htaker
  obtain ⟨ct, alt, cm, alm, hmove, -⟩ := routeMargin_ok rfl rfl hroute
  refine ⟨d, hd, ?_, rfl, rfl, hmb, htb, hmrange.1, htrange.1, fun a => ?_⟩
  · rw [hmove.frame]
    rfl
  · rw [hmove.position, Fill.getPosition_filledState hne]
    rfl

theorem Fill.ReachesInterest.apply_fails (h : f.ReachesInterest s mr tr u)
    (hrefused : succeeds (updateOpenInterest f.marketIndex (oiDeltaOf mr tr)) u = false) :
    succeeds (apply f) s = false := by
  obtain ⟨⟨makerPre, takerPre⟩, s₁, s₂, s₃, hprep, hmaker, htaker, hroute⟩ := h
  obtain ⟨e, he⟩ := run_of_not_succeeds hrefused
  have hfinish : (finishFill f makerPre takerPre mr tr).run s₃ = .error e _ := run_bind_error.mpr (Or.inr ⟨(), u, hroute, run_bind_error.mpr (Or.inl he)⟩)
  have hrun : (apply f).run s = .error e _ := run_bind_error.mpr (Or.inr ⟨_, s₁, hprep,
    run_bind_error.mpr (Or.inr ⟨mr, s₂, hmaker,
      run_bind_error.mpr (Or.inr ⟨tr, s₃, htaker, hfinish⟩)⟩)⟩)
  unfold Txn.succeeds
  rw [hrun]

theorem Fill.reachesInterest_of_apply {v : Unit} (h : (apply f).run s = .ok v t) :
    ∃ mr tr u, f.ReachesInterest s mr tr u := by
  simp only [apply, finishFill, run_bind_ok] at h
  obtain ⟨pre, s₁, hprep, mr, s₂, hmaker, tr, s₃, htaker, w, u, hroute, -⟩ := h
  exact ⟨mr, tr, u, pre, s₁, s₂, s₃, hprep, hmaker, htaker, hroute⟩

theorem Fill.ReachesInterest.nonneg (h : f.ReachesInterest s mr tr u)
    (hne : f.makerAccountIndex ≠ f.takerAccountIndex) (hn : MarketNeutral s f.marketIndex)
    (hfits : OpenInterestFits s f.marketIndex) (hdelta : oiDeltaOf mr tr ≤ 0) :
    0 ≤ (detailsOf s f.marketIndex).openInterest + oiDeltaOf mr tr := by
  obtain ⟨d, hd, -, rfl, rfl, hmb, htb, hmr, htr, hsize⟩ := h.unfold hne
  have hafter := grossSize_nonneg u f.marketIndex
  rw [(f.sums_of_nextPosition hne hsize).2] at hafter
  have hgross := hn.gross
  rw [OpenInterestFits] at hfits
  have hmb := hmb.baseSize_le
  have htb := htb.baseSize_le
  have hmax : 0 < oiDeltaOf (f.makerChange s d) (f.takerChange s d) →
      (detailsOf s f.marketIndex).openInterest + oiDeltaOf (f.makerChange s d) (f.takerChange s d)
        ≤ maxInt64 := fun hpos => absurd hpos hdelta.not_gt
  have hhalf : 2 * oiDeltaOf (f.makerChange s d) (f.takerChange s d)
      = (f.makerChange s d).oiDelta + (f.takerChange s d).oiDelta := by
    rw [oiDeltaOf] at hmax ⊢
    simp only [f.makerChange_oiDelta, f.takerChange_oiDelta, f.makerFill_baseSize,
      f.takerFill_baseSize] at *
    exact two_mul_oiDelta hmb htb hmr htr hgross hafter hfits hmax
  omega

/-! ### Runs -/

section Runs

variable [AddressCodec] {authority : String}

/-- An operation on positions, the message that sets the cap of a market, or anything that leaves
sizes and open interest alone. -/
inductive CapStep (authority : String) (s t : State) : Prop
  | position (h : PositionStep s t)
  | updateDetails (msg : MsgUpdateMarketDetails)
      (h : (MarketServer.updateMarketDetails authority msg).run s = .ok () t)
  | other (hsize : ∀ a m, (getPosition t a m).baseSize = (getPosition s a m).baseSize)
      (hinterest : ∀ m, (detailsOf t m).openInterest = (detailsOf s m).openInterest)

theorem updateMarketDetails_ok {msg : MsgUpdateMarketDetails}
    (h : (MarketServer.updateMarketDetails authority msg).run s = .ok () t) :
    (∀ a m, getPosition t a m = getPosition s a m) ∧
      ∀ m, (detailsOf t m).openInterest = (detailsOf s m).openInterest ∧
        (detailsOf t m).openInterestLimit = if m = msg.marketIndex then msg.newOpenInterestLimit
          else (detailsOf s m).openInterestLimit := by
  simp only [MarketServer.updateMarketDetails, run_bind_lift_ok, run_bind_require_ok,
    run_bind_read_ok, setMarketDetails, run_write] at h
  obtain ⟨-, -, -, d, hread, hput⟩ := h
  cases hput
  have hd := getMarketDetails_eq_ok.mp hread
  have hkey : d.marketIndex = msg.marketIndex := Table.key_of_get hd
  refine ⟨fun _ _ => rfl, fun m => ?_⟩
  simp only [detailsOf, State.putDetails, Table.get_put, hkey]
  by_cases hm : m = msg.marketIndex
  · simp [hm, hd]
  · simp [hm]

theorem CapStep.marketNeutral {m : ℕ} (h : CapStep authority s t) (hn : MarketNeutral s m)
    (hfits : OpenInterestFits s m) : MarketNeutral t m ∧ OpenInterestFits t m := by
  have hkeep : (∀ a m, (getPosition t a m).baseSize = (getPosition s a m).baseSize) →
      (∀ m, (detailsOf t m).openInterest = (detailsOf s m).openInterest) →
      MarketNeutral t m ∧ OpenInterestFits t m := by
    intro hsize hinterest
    refine ⟨hn.of_sizes (fun a => hsize a m) (hinterest m), ?_⟩
    rw [OpenInterestFits, hinterest]
    exact hfits
  cases h with
  | position h => exact h.marketNeutral hn hfits
  | updateDetails msg h =>
    obtain ⟨hpos, hdetails⟩ := updateMarketDetails_ok h
    exact hkeep (fun a m => by rw [hpos]) fun m => (hdetails m).1
  | other hsize hinterest => exact hkeep hsize hinterest

theorem marketNeutral_of_capRun {s₀ : State} {m : ℕ} (hn : MarketNeutral s₀ m)
    (hfits : OpenInterestFits s₀ m) (hrun : Relation.ReflTransGen (CapStep authority) s₀ s) :
    MarketNeutral s m ∧ OpenInterestFits s m := by
  induction hrun with
  | refl => exact ⟨hn, hfits⟩
  | tail _ hstep ih => exact hstep.marketNeutral ih.1 ih.2

/-- **Which fills that do not raise the open interest the cap lets through**, in every state reached by
operations on positions and changes of the cap: those that leave it within the cap, and all of them
where there is none.  The others are refused as a whole. -/
theorem derisking_admitted_iff {s₀ : State} (hn : MarketNeutral s₀ f.marketIndex)
    (hfits : OpenInterestFits s₀ f.marketIndex)
    (hrun : Relation.ReflTransGen (CapStep authority) s₀ s)
    (hne : f.makerAccountIndex ≠ f.takerAccountIndex) (hreach : f.ReachesInterest s mr tr u)
    (hdelta : oiDeltaOf mr tr ≤ 0) :
    let d := detailsOf s f.marketIndex
    let admitted := succeeds (updateOpenInterest f.marketIndex (oiDeltaOf mr tr)) u
    (admitted = true ↔
      d.openInterestLimit = 0 ∨ d.openInterest + oiDeltaOf mr tr ≤ d.openInterestLimit) ∧
    (admitted = false → succeeds (apply f) s = false) := by
  obtain ⟨hn, hfits⟩ := marketNeutral_of_capRun hn hfits hrun
  have hnonneg := hreach.nonneg hne hn hfits hdelta
  obtain ⟨d, hd, hmarket, -⟩ := hreach.unfold hne
  have hdetails : detailsOf s f.marketIndex = d := by
    rw [detailsOf, hd]
    rfl
  rw [hdetails] at hnonneg
  refine ⟨?_, hreach.apply_fails⟩
  rw [hdetails]
  exact updateOpenInterest_succeeds_iff (hmarket ▸ hd) hdelta hnonneg

end Runs

/-- Governance sets the cap of market 0 to 20 and leaves the margin fractions as they are. -/
def lowerCap : MsgUpdateMarketDetails where
  authority := "gov"
  marketIndex := 0
  newDefaultImf := 1000
  newMinImf := 500
  newMaintenanceMf := 400
  newCloseOutMf := 200
  newFundingClampSmall := 0
  newFundingClampBig := 0
  newInterestRate := 0
  newOpenInterestLimit := 20

/-- Trader 3 buys back some of the units it has sold to trader 2. -/
def buyBack (base : ℕ) : Fill where
  makerAccountIndex := 2
  takerAccountIndex := 3
  marketIndex := 0
  price := 100
  baseAmount := base
  isTakerAsk := false

/-- Closing 30 units brings the open interest down to the cap. -/
theorem derisking_admitted_iff_at_cap :
    let _ := AddressCodec.acceptAll
    let s := after (MarketServer.updateMarketDetails "gov" lowerCap) (after (apply firstTrade) twoTraders)
    ∃ mr tr u, (buyBack 30).ReachesInterest s mr tr u ∧ oiDeltaOf mr tr = -30 ∧
      succeeds (updateOpenInterest 0 (oiDeltaOf mr tr)) u = true := by
  let _ := AddressCodec.acceptAll
  intro _ s
  have hrun : Relation.ReflTransGen (CapStep "gov") twoTraders s :=
    .tail (.single (.position (.fill firstTrade (by decide) (run_of_succeeds (by decide +kernel)))))
      (.updateDetails lowerCap (run_of_succeeds (by decide +kernel)))
  obtain ⟨mr, tr, u, hreach⟩ := Fill.reachesInterest_of_apply
    (run_of_succeeds (show succeeds (apply (buyBack 30)) s = true by decide +kernel))
  have hdelta : oiDeltaOf mr tr = -30 := by
    obtain ⟨d, hd, -, rfl, rfl, -⟩ := hreach.unfold (by decide)
    obtain rfl : d = detailsOf s 0 := by
      rw [detailsOf, show s.market.marketDetails.get 0 = some d from hd]
      rfl
    decide +kernel
  have hneutral : MarketNeutral twoTraders 0 := ⟨rfl, rfl⟩
  have hfits : OpenInterestFits twoTraders 0 := by
    show (0 : ℤ) ≤ maxInt64
    decide
  refine ⟨mr, tr, u, hreach, hdelta, (derisking_admitted_iff hneutral hfits hrun (by decide) hreach
    (by omega)).1.mpr (Or.inr ?_)⟩
  rw [hdelta]
  decide +kernel

/-- With 50 units open and the cap at 20, closing 10 is refused: 40 units would be left. -/
theorem lowered_cap_blocks_close :
    let _ := AddressCodec.acceptAll
    let s := after (MarketServer.updateMarketDetails "gov" lowerCap) (after (apply firstTrade) twoTraders)
    Txn.succeeds (apply firstTrade) twoTraders = true ∧
    Txn.succeeds (MarketServer.updateMarketDetails "gov" lowerCap)
      (after (apply firstTrade) twoTraders) = true ∧
    (detailsOf s 0).openInterest = 50 ∧ (detailsOf s 0).openInterestLimit = 20 ∧
    Txn.succeeds (apply (buyBack 10)) s = false ∧
    Txn.succeeds (updateOpenInterest 0 (-10)) s = false ∧
    Txn.succeeds (apply (buyBack 30)) s = true := by
  decide +kernel

end PerpDex
