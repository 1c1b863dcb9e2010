/-
Fills that block hooks force on accounts, and what a failed one leaves behind.

Main results: `apply_error`, `ledgerUnchanged_iff`.

The matching loop runs each fill on a branch of the state that it discards on an error.  The hooks call
the engine on the state itself.
-/
import PerpDex.Liquidation

namespace PerpDex

variable {f : Fill} {s t : State}

/-- The fills that the hooks attempt; a victim is never its own counterparty and no fill is
empty. -/
inductive ForcedFill : Fill → Prop where
  | llp (victim market price base : ℕ) (takerIsAsk : Bool)
      (hne : victim ≠ insuranceFundOperatorAccountIdx) (hbase : base ≠ 0) :
      ForcedFill (deleverageFill victim insuranceFundOperatorAccountIdx market price base takerIsAsk)
  | adl (victim candidate market price base : ℕ) (takerIsAsk : Bool) (hne : victim ≠ candidate)
      (hbase : base ≠ 0) : ForcedFill (adlFill victim candidate market price base takerIsAsk)
  | exit (account market price base : ℕ) (takerIsAsk : Bool)
      (hne : account ≠ insuranceFundOperatorAccountIdx) (hbase : base ≠ 0) :
      ForcedFill (exitFill account market price base takerIsAsk)

theorem ForcedFill.ne (h : ForcedFill f) : f.makerAccountIndex ≠ f.takerAccountIndex := by
  cases h with
  | llp victim market price base takerIsAsk hne hbase => exact hne
  | adl victim candidate market price base takerIsAsk hne hbase => exact hne
  | exit account market price base takerIsAsk hne hbase => exact hne

theorem ForcedFill.base_ne (h : ForcedFill f) : f.baseAmount ≠ 0 := by
  cases h with
  | llp victim market price base takerIsAsk hne hbase => exact hbase
  | adl victim candidate market price base takerIsAsk hne hbase => exact hbase
  | exit account market price base takerIsAsk hne hbase => exact hbase

/-! ### How a fill fails -/

def Fill.ComparesMaker (f : Fill) : Prop := f.noRiskCheck = false ∧ f.skipMakerRiskCheck = false

def Fill.ComparesTaker (f : Fill) : Prop := f.noRiskCheck = false ∧ f.skipTakerRiskCheck = false

/-- A compared side has no readable risk, or the maker's position cannot be stored. -/
def Fill.FailsEarly (f : Fill) (s : State) (d : MarketDetails) : Prop :=
  (f.ComparesMaker ∧ ¬ SnapshotReadable s f.makerAccountIndex) ∨
    (f.ComparesTaker ∧ ¬ SnapshotReadable s f.takerAccountIndex) ∨ ¬ (f.makerFill s d).InBounds

theorem Settled.snapshotReadable_iff (h : Settled s t) (a : ℕ) :
    SnapshotReadable t a ↔ SnapshotReadable s a := by
  have hmark : ∀ m, getMarkPriceAndDetails m t = getMarkPriceAndDetails m s := by
    intro m
    rw [h.frame]
    rfl
  constructor
  · intro ht
    refine ⟨h.accounts ▸ ht.account, fun m hsize => ?_⟩
    rw [← hmark]
    exact ht.marks m (by rwa [h.baseSize])
  · intro hs
    refine ⟨h.accounts.symm ▸ hs.account, fun m hsize => ?_⟩
    rw [hmark]
    exact hs.marks m (by rwa [h.baseSize] at hsize)

theorem settled_settledState {d : MarketDetails}
    (hd : s.market.marketDetails.get f.marketIndex = some d) : Settled s (f.settledState s d) := by
  have hrun := settleSides_run f s
  rw [hd] at hrun
  exact (settleSides_keeps f).ok hrun

theorem snapshotSide_error {skip : Bool} {acc : ℕ} {e : Err}
    (h : (snapshotSide skip acc).run s = .error e t) :
    skip = false ∧ ¬ SnapshotReadable s acc ∧ t = s := by
  rw [snapshotSide] at h
  split at h
  · simp [EStateM.run_pure] at h
  · rename_i hskip
    obtain ⟨herr, rfl⟩ := Txn.run_read_error.mp h
    refine ⟨by simpa using hskip, fun hread => ?_, rfl⟩
    obtain ⟨pre, hpre⟩ := snapshotRisk_ok_iff.mpr hread
    rw [hpre] at herr
    simp at herr

theorem snapshotSide_readable {skip : Bool} {acc : ℕ} {pre : PreRiskSnapshot}
    (h : (snapshotSide skip acc).run s = .ok pre t) (hskip : skip = false) :
    SnapshotReadable s acc := by
  rw [snapshotSide, hskip] at h
  exact snapshotRisk_ok_iff.mp ⟨pre, (Txn.run_read_ok.mp h).1⟩

def SameSizes (a : ℕ) (s t : State) : Prop :=
  ∀ m, (getPosition t a m).baseSize = (getPosition s a m).baseSize

instance (a : ℕ) : IsPreorder State (SameSizes a) where
  refl _ _ := rfl
  trans _ _ _ h h' m := (h' m).trans (h m)

theorem applyPositionChange_sameSizes {a acc : ℕ} (hne : a ≠ acc) (m price base : ℕ) (sign : ℤ) :
    Txn.Keeps (SameSizes a) (applyPositionChange acc m price base sign) := by
  refine Txn.Keeps.read.bind fun old => Txn.Keeps.bind ?_ fun p => ?_
  · intro s
    rw [Txn.after, updatePosition_run, boundedFill_eq]
    by_cases hin : ((getPosition s acc m).applyFill (base * sign) price).InBounds
    · rw [if_pos hin]
      intro m'
      show (getPosition (s.putPosition _) a m').baseSize = _
      rw [getPosition_putPosition, if_neg (by simp [hne])]
    · rw [if_neg hin]
      exact refl_of (SameSizes a) s
  · exact Txn.Keeps.require.bind fun _ => Txn.Keeps.pure

theorem prepareFill_error {e : Err}
    (h : (prepareFill f).run s = .error e t) :
    (s.market.marketDetails.get f.marketIndex = none ∧ t = s) ∨
      ∃ d, s.market.marketDetails.get f.marketIndex = some d ∧ t = f.settledState s d ∧
        f.FailsEarly s d := by
  rw [prepareFill, Txn.run_bind_error, settleSides_run] at h
  rcases hd : s.market.marketDetails.get f.marketIndex with _ | d
  · rw [hd] at h
    simp only [EStateM.Result.error.injEq, reduceCtorEq, false_and, exists_false, or_false] at h
    exact Or.inl ⟨rfl, h.2.symm⟩
  · have hread := fun a => (settled_settledState hd).snapshotReadable_iff a
    rw [hd] at h
    simp only [reduceCtorEq, false_or, EStateM.Result.ok.injEq, Txn.run_bind_error] at h
    obtain ⟨_, s₁, ⟨-, rfl⟩, hmaker | ⟨mpre, s₂, hmaker, htaker | ⟨tpre, s₃, -, hret⟩⟩⟩ := h
    · obtain ⟨hskip, hunread, rfl⟩ := snapshotSide_error hmaker
      refine Or.inr ⟨d, rfl, rfl, Or.inl ⟨?_, (hread _).not.mp hunread⟩⟩
      simpa [Fill.ComparesMaker] using hskip
    · obtain rfl := snapshotSide_ok hmaker
      obtain ⟨hskip, hunread, rfl⟩ := snapshotSide_error htaker
      refine Or.inr ⟨d, rfl, rfl, Or.inr (Or.inl ⟨?_, (hread _).not.mp hunread⟩)⟩
      simpa [Fill.ComparesTaker] using hskip
    · simp [EStateM.run_pure] at hret

theorem prepareFill_ok
    {pre : PreRiskSnapshot × PreRiskSnapshot} (h : (prepareFill f).run s = .ok pre t) :
    ∃ d, s.market.marketDetails.get f.marketIndex = some d ∧ t = f.settledState s d ∧
      (f.ComparesMaker → SnapshotReadable s f.makerAccountIndex) ∧
      (f.ComparesTaker → SnapshotReadable s f.takerAccountIndex) := by
  simp only [prepareFill, Txn.run_bind_ok, settleSides_run] at h
  obtain ⟨_, s₁, hsettle, mpre, s₂, hmaker, tpre, s₃, htaker, hret⟩ := h
  rcases hd : s.market.marketDetails.get f.marketIndex with _ | d
  · rw [hd] at hsettle
    simp at hsettle
  · rw [hd] at hsettle
    cases hsettle
    obtain rfl := snapshotSide_ok hmaker
    obtain rfl := snapshotSide_ok htaker
    cases hret
    have hread := fun a => (settled_settledState hd).snapshotReadable_iff a
    refine ⟨d, rfl, rfl, fun hc => (hread _).mp ?_, fun hc => (hread _).mp ?_⟩
    · exact snapshotSide_readable hmaker (by simp [hc.1, hc.2])
    · exact snapshotSide_readable htaker (by simp [hc.1, hc.2])

/-- **How a fill fails.**  Without market details nothing is written.  If a compared side has
no readable risk or the maker's position cannot be stored, the funding of both sides has been
settled.  In every other case the maker's new position stays. -/
theorem apply_error (hne : f.makerAccountIndex ≠ f.takerAccountIndex) {e : Err}
    (h : (apply f).run s = .error e t) :
    (s.market.marketDetails.get f.marketIndex = none ∧ t = s) ∨
      ∃ d, s.market.marketDetails.get f.marketIndex = some d ∧
        ((t = f.settledState s d ∧ f.FailsEarly s d) ∨
          (¬ f.FailsEarly s d ∧ (getPosition t f.makerAccountIndex f.marketIndex).baseSize
            = (f.makerFill s d).position.baseSize)) := by
  rw [apply, Txn.run_bind_error] at h
  rcases h with hprep | ⟨pre, s₁, hprep, h⟩
  · rcases prepareFill_error hprep with hnone | ⟨d, hd, rfl, hearly⟩
    · exact Or.inl hnone
    · exact Or.inr ⟨d, hd, Or.inl ⟨rfl, hearly⟩⟩
  obtain ⟨d, hd, rfl, hmread, htread⟩ := prepareFill_ok hprep
  refine Or.inr ⟨d, hd, ?_⟩
  have hold : getPosition (f.settledState s d) f.makerAccountIndex f.marketIndex = f.makerOld s d := by
    rw [Fill.getPosition_settledState, if_pos rfl, if_pos rfl]
  have hnew : (getPosition ((f.settledState s d).putPosition (f.makerFill s d).position)
      f.makerAccountIndex f.marketIndex).baseSize = (f.makerFill s d).position.baseSize := by
    rw [getPosition_putPosition, if_pos]
    simp [Fill.makerFill, Fill.makerOld]
  have hlate : (f.makerFill s d).InBounds → ¬ f.FailsEarly s d := by
    rintro hin (⟨hc, hunread⟩ | ⟨hc, hunread⟩ | hout)
    · exact hunread (hmread hc)
    · exact hunread (htread hc)
    · exact hout hin
  rw [Txn.run_bind_error] at h
  rcases h with hmaker | ⟨mr, s₂, hmaker, hrest⟩
  · -- the maker's position does not fit, or the word for its change does not
    obtain ⟨e', hrun, -⟩ := Txn.run_mapError_error.mp hmaker
    rw [applyPositionChange_run, hold] at hrun
    dsimp only at hrun
    split at hrun
    · rename_i hin
      split at hrun
      · simp at hrun
      · obtain ⟨-, rfl⟩ := EStateM.Result.error.inj hrun
        exact Or.inr ⟨hlate hin, hnew⟩
    · rename_i hout
      obtain ⟨-, rfl⟩ := EStateM.Result.error.inj hrun
      exact Or.inl ⟨rfl, Or.inr (Or.inr hout)⟩
  · obtain ⟨hin, -, -, rfl⟩ := makerPositionChange_ok hmaker
    refine Or.inr ⟨hlate hin, ?_⟩
    have hkeep : Txn.Keeps (SameSizes f.makerAccountIndex) (takerPositionChange f >>= fun tr =>
        finishFill f pre.1 pre.2 mr tr) :=
      (applyPositionChange_sameSizes hne _ _ _ _).mapError.bind fun tr =>
        (finishFill_keeps f pre.1 pre.2 mr tr).mono fun _ _ hr m => hr.baseSize _ m
    rw [← hnew]
    exact hkeep.error hrest f.marketIndex

/-! ### Atomicity -/

/-- No collateral, no position and no open interest differs. -/
structure LedgerUnchanged (s t : State) : Prop where
  collateral : ∀ a, collateralOf t a = collateralOf s a
  position : ∀ a m, getPosition t a m = getPosition s a m
  openInterest : ∀ m, (detailsOf t m).openInterest = (detailsOf s m).openInterest

/-- Neither side has funding to settle. -/
def Fill.FundingSettled (f : Fill) (s : State) (d : MarketDetails) : Prop :=
  (getPosition s f.makerAccountIndex f.marketIndex).lastFundingRatePrefixSum
      = d.fundingRatePrefixSum ∧
    (getPosition s f.takerAccountIndex f.marketIndex).lastFundingRatePrefixSum
      = d.fundingRatePrefixSum

/-- The market has no details; or no funding is pending and the fill fails before the maker's
position is written. -/
def Fill.AbortsCleanly (f : Fill) (s : State) : Prop :=
  ∀ d, s.market.marketDetails.get f.marketIndex = some d → f.FundingSettled s d ∧ f.FailsEarly s d

theorem ledgerUnchanged_settledState (hne : f.makerAccountIndex ≠ f.takerAccountIndex)
    {d : MarketDetails} (hd : s.market.marketDetails.get f.marketIndex = some d) :
    LedgerUnchanged s (f.settledState s d) ↔ f.FundingSettled s d := by
  have hsettled := settled_settledState hd
  constructor
  · intro h
    have hmaker := h.position f.makerAccountIndex f.marketIndex
    have htaker := h.position f.takerAccountIndex f.marketIndex
    rw [Fill.getPosition_settledState, if_pos rfl, if_pos rfl] at hmaker
    rw [Fill.getPosition_settledState, if_pos rfl, if_neg hne.symm, if_pos rfl] at htaker
    exact ⟨(AccountPosition.settleFunding_eq_self_iff _ d).mp hmaker,
      (AccountPosition.settleFunding_eq_self_iff _ d).mp htaker⟩
  · rintro ⟨hmaker, htaker⟩
    refine ⟨hsettled.collateralOf_eq, fun a m => ?_, fun m => ?_⟩
    · rw [Fill.getPosition_settledState, Fill.makerOld, Fill.takerOld,
        (AccountPosition.settleFunding_eq_self_iff _ d).mpr hmaker,
        (AccountPosition.settleFunding_eq_self_iff _ d).mpr htaker]
      split_ifs with hm ha ha'
      · rw [hm, ha]
      · rw [hm, ha']
      · rfl
      · rfl
    · simp only [detailsOf, hsettled.market]

/-- **What a failed forced fill leaves behind.**  Collateral, positions and open interest are what they
were exactly when the market has no details, or no funding was pending and the fill failed at a
snapshot or at the maker's bounds. -/
theorem ledgerUnchanged_iff (hf : ForcedFill f)
    (hfail : Txn.succeeds (applyPerpsMatching f) s = false) :
    LedgerUnchanged s (Txn.after (applyPerpsMatching f) s) ↔ f.AbortsCleanly s := by
  obtain ⟨e, hrun⟩ := Txn.run_of_not_succeeds hfail
  generalize Txn.after (applyPerpsMatching f) s = t at hrun
  have hne := hf.ne
  rcases apply_error hne hrun with ⟨hnone, rfl⟩ | ⟨d, hd, ⟨rfl, hearly⟩ | ⟨hlate, hsize⟩⟩
  · refine iff_of_true ⟨fun _ => rfl, fun _ _ => rfl, fun _ => rfl⟩ fun d hd => ?_
    rw [hnone] at hd
    simp at hd
  · rw [ledgerUnchanged_settledState hne hd]
    constructor
    · intro hfund d' hd'
      cases hd.symm.trans hd'
      exact ⟨hfund, hearly⟩
    · intro h
      exact (h d hd).1
  · refine iff_of_false (fun h => ?_) fun h => hlate (h d hd).2
    -- the maker's size has moved by the size of the fill
    have hmoved := f.makerFill_baseSize s d
    rw [← hsize, h.position] at hmoved
    have hbase : (f.baseAmount : ℤ) ≠ 0 := by exact_mod_cast hf.base_ne
    unfold Fill.makerSign at hmoved
    split at hmoved
    · omega
    · omega

/-- Account 2 is long in market 0 and holds a position in market 1, which has no mark price;
account 3 is short in market 0. -/
def halfPriced : State where
  account := {
    accounts := Table.ofRows [{ accountIndex := 2 }, { accountIndex := 3 }]
    accountPositions := Table.ofRows [
      { accountIndex := 2, marketIndex := 0, baseSize := 10, entryQuote := 1000 },
      { accountIndex := 2, marketIndex := 1, baseSize := 1, entryQuote := 7 },
      { accountIndex := 3, marketIndex := 0, baseSize := -10, entryQuote := -1000 }] }
  market := { marketDetails := Table.ofRows [
    { marketIndex := 0, markPrice := 100, openInterest := 10 }, { marketIndex := 1 }] }

theorem ledgerUnchanged_iff_halfPriced :
    Txn.succeeds (applyPerpsMatching (adlFill 2 3 0 100 10 false)) halfPriced = false ∧
    LedgerUnchanged halfPriced
      (Txn.after (applyPerpsMatching (adlFill 2 3 0 100 10 false)) halfPriced) := by
  have hfail : Txn.succeeds (applyPerpsMatching (adlFill 2 3 0 100 10 false)) halfPriced = false := by
    decide
  refine ⟨hfail, (ledgerUnchanged_iff (.adl 2 3 0 100 10 false (by decide) (by decide)) hfail).mpr ?_⟩
  intro d hd
  obtain rfl : { marketIndex := 0, markPrice := 100, openInterest := 10 } = d :=
    Option.some.inj hd
  refine ⟨⟨by decide, by decide⟩, Or.inl ⟨⟨rfl, rfl⟩, fun h => ?_⟩⟩
  obtain ⟨r, hr⟩ := h.marks 1 (by decide)
  obtain ⟨hget, -, hgate⟩ := getMarkPriceAndDetails_eq_ok.mp hr
  have hdetails : { marketIndex := 1 } = r.2 := Option.some.inj hget
  refine gateMarkPrice_pos hgate ?_
  rw [← hdetails]

/-- The insurance fund is long 10⁷ at a price of 4·10⁹, account 2 is long 10⁷ as well and
account 3 is short both. -/
def crowdedExit : State where
  account := {
    accounts := Table.ofRows [{ accountIndex := 0 },
      { accountIndex := 1, accountType := .insuranceFund, publicPoolInfo := some {} },
      { accountIndex := 2, collateral := 10 ^ 16 }, { accountIndex := 3, collateral := 10 ^ 16 }]
    accountPositions := Table.ofRows [
      { accountIndex := 1, marketIndex := 0, baseSize := 10 ^ 7, entryQuote := 4 * 10 ^ 16 },
      { accountIndex := 2, marketIndex := 0, baseSize := 10 ^ 7, entryQuote := 4 * 10 ^ 16 },
      { accountIndex := 3, marketIndex := 0, baseSize := -2 * 10 ^ 7,
        entryQuote := -8 * 10 ^ 16 }] }
  market := { marketDetails := Table.ofRows [
    { marketIndex := 0, markPrice := 4 * 10 ^ 9, openInterest := 2 * 10 ^ 7 }] }

/-- When the market expires, taking over account 2 would push the fund's entry quote out of bounds.
The fill fails after account 2 has been closed: its collateral is not settled, and nobody holds the
size. -/
theorem failed_exit_erases_position :
    let f := exitFill 2 0 (4 * 10 ^ 9) (10 ^ 7) false
    let t := Txn.after (applyPerpsMatching f) crowdedExit
    ForcedFill f ∧ Txn.succeeds (applyPerpsMatching f) crowdedExit = false ∧
      (getPosition crowdedExit 2 0).baseSize = 10 ^ 7 ∧ (getPosition t 2 0).baseSize = 0 ∧
      (getPosition t 1 0).baseSize = 10 ^ 7 ∧ collateralOf t 2 = collateralOf crowdedExit 2 ∧
      (getPosition (Txn.after (applyExitPosition 0) crowdedExit) 2 0).baseSize = 0 ∧
      ¬ LedgerUnchanged crowdedExit t := by
  refine ⟨.exit 2 0 _ _ false (by decide) (by decide), by decide +kernel, by decide +kernel,
    by decide +kernel, by decide +kernel, by decide +kernel, by decide +kernel, fun h => ?_⟩
  have hsize := congrArg AccountPosition.baseSize (h.position 2 0)
  revert hsize
  decide +kernel

end PerpDex
