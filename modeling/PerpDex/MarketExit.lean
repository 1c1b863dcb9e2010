/-
The exit from an expiring market.

Main result: `exit_closes_market`.

Each fill keeps longs and shorts equal, so what the fund has in the end is minus the sum of all others.
-/
import PerpDex.Hooks
import PerpDex.OpenInterest

namespace PerpDex

open Txn

variable {s t : State} {m price : ℕ}

/-- The attempt to close the position of an account. -/
def closeOut (marketIdx closePrice : ℕ) (a : Account) : Tx Unit := do
  let pos ← Txn.read fun s => .ok (getPosition s a.accountIndex marketIdx)
  let baseAmount ← uint64Of |pos.baseSize|
  applyPerpsMatching (exitFill a.accountIndex marketIdx closePrice baseAmount pos.openingIsAsk)

/-- Every attempt of the exit goes through. -/
def exitsSucceed (marketIdx closePrice : ℕ) : List Account → State → Bool
  | [], _ => true
  | a :: rest, s =>
    (decide (a.accountIndex = insuranceFundOperatorAccountIdx) ||
      decide ((getPosition s a.accountIndex marketIdx).baseSize = 0) ||
      succeeds (closeOut marketIdx closePrice a) s) &&
    exitsSucceed marketIdx closePrice rest (after (exitAccount marketIdx closePrice a) s)

/-! ### One account -/

theorem exitFill_closes {account : ℕ} {pos : AccountPosition} {base : ℕ}
    (hbase : (base : ℤ) = |pos.baseSize|) :
    pos.baseSize + (exitFill account m price base pos.openingIsAsk).baseAmount
      * (exitFill account m price base pos.openingIsAsk).makerSign = 0 := by
  simp only [exitFill, Fill.makerSign, AccountPosition.openingIsAsk, AccountPosition.isShort, hbase]
  rcases lt_or_ge pos.baseSize 0 with hneg | hpos
  · simp [hneg, abs_of_neg hneg]
  · simp [not_lt.mpr hpos, abs_of_nonneg hpos]

theorem closeOut_ok {a : Account} (hfund : a.accountIndex ≠ insuranceFundOperatorAccountIdx)
    (hneutral : MarketNeutral s m) (hfits : OpenInterestFits s m) {u : Unit}
    (h : (closeOut m price a).run s = .ok u t) :
    MarketNeutral t m ∧ OpenInterestFits t m ∧ (getPosition t a.accountIndex m).baseSize = 0 ∧
      ∀ b, b ≠ a.accountIndex → b ≠ insuranceFundOperatorAccountIdx →
        (getPosition t b m).baseSize = (getPosition s b m).baseSize := by
  obtain ⟨pos, hpos, h⟩ := run_bind_read_ok.mp h
  cases hpos
  obtain ⟨base, s₁, hword, h⟩ := run_bind_ok.mp h
  obtain ⟨hrange, hret⟩ := run_bind_require_ok.mp hword
  cases hret
  obtain ⟨d, ct, alt, cm, alm, heffect, -⟩ := apply_ok hfund h
  obtain ⟨hneutral', hfits'⟩ := heffect.marketNeutral hfund hneutral hfits
  refine ⟨hneutral', hfits', ?_, fun b hb hfund' => ?_⟩
  · refine (heffect.baseSize _ m).trans ((if_pos rfl).trans ((if_pos rfl).trans ?_))
    rw [Fill.makerFill_baseSize]
    exact exitFill_closes (Int.toNat_of_nonneg hrange.1)
  · exact (heffect.baseSize b m).trans ((if_pos rfl).trans ((if_neg hb).trans (if_neg hfund')))

theorem exitAccount_run {a : Account} (hfund : a.accountIndex ≠ insuranceFundOperatorAccountIdx)
    (hopen : (getPosition s a.accountIndex m).baseSize ≠ 0) {u : Unit}
    (h : (closeOut m price a).run s = .ok u t) : (exitAccount m price a).run s = .ok () t := by
  obtain ⟨pos, hpos, h⟩ := run_bind_read_ok.mp h
  cases hpos
  obtain ⟨base, s₁, hword, h⟩ := run_bind_ok.mp h
  rw [exitAccount, if_neg hfund, run_bind_read]
  dsimp only
  rw [if_neg hopen]
  exact run_bind_ok.mpr ⟨base, s₁, hword,
    run_bind_ok.mpr ⟨.ok u, t, run_attempt_ok.mpr (.inl ⟨u, rfl, h⟩), rfl⟩⟩

/-- The market is neutral, the accounts `closed` have no position, and those of the others, but for the
fund's, are as before. -/
structure Exited (m : ℕ) (closed : List ℕ) (s t : State) : Prop where
  neutral : MarketNeutral t m
  fits : OpenInterestFits t m
  sizes : ∀ b, b ≠ insuranceFundOperatorAccountIdx →
    (getPosition t b m).baseSize = if b ∈ closed then 0 else (getPosition s b m).baseSize

theorem exitAccount_closes {a : Account} (hneutral : MarketNeutral s m)
    (hfits : OpenInterestFits s m)
    (hsucceeds : a.accountIndex ≠ insuranceFundOperatorAccountIdx →
      (getPosition s a.accountIndex m).baseSize ≠ 0 → succeeds (closeOut m price a) s = true) :
    ∃ t, (exitAccount m price a).run s = .ok () t ∧ Exited m [a.accountIndex] s t := by
  have hskip : ∀ b, (b = a.accountIndex → (getPosition s b m).baseSize = 0) →
      (getPosition s b m).baseSize
        = if b ∈ [a.accountIndex] then 0 else (getPosition s b m).baseSize := by
    intro b hzero
    split
    · rename_i hb
      exact hzero (List.mem_singleton.mp hb)
    · rfl
  by_cases hfund : a.accountIndex = insuranceFundOperatorAccountIdx
  · refine ⟨s, by rw [exitAccount, if_pos hfund]; rfl, hneutral, hfits, fun b hb => ?_⟩
    exact hskip b fun heq => absurd (heq.trans hfund) hb
  · by_cases hflat : (getPosition s a.accountIndex m).baseSize = 0
    · refine ⟨s, ?_, hneutral, hfits, fun b _ => hskip b fun heq => heq ▸ hflat⟩
      rw [exitAccount, if_neg hfund, run_bind_read]
      dsimp only
      rw [if_pos hflat]
      rfl
    · have hrun := run_of_succeeds (hsucceeds hfund hflat)
      obtain ⟨hneutral', hfits', hclosed, hothers⟩ := closeOut_ok hfund hneutral hfits hrun
      refine ⟨_, exitAccount_run hfund hflat hrun, hneutral', hfits', fun b hb => ?_⟩
      split
      · rename_i hmem
        rw [List.mem_singleton.mp hmem]
        exact hclosed
      · rename_i hmem
        exact hothers b (fun heq => hmem (List.mem_singleton.mpr heq)) hb

/-! ### All accounts -/

theorem exitAccounts_close {l : List Account} (hneutral : MarketNeutral s m)
    (hfits : OpenInterestFits s m) (hsucceed : exitsSucceed m price l s = true) :
    ∃ t, (l.forM (exitAccount m price)).run s = .ok () t ∧
      Exited m (l.map Account.accountIndex) s t := by
  induction l generalizing s with
  | nil => exact ⟨s, rfl, hneutral, hfits, fun b _ => rfl⟩
  | cons a rest ih =>
    rw [exitsSucceed, Bool.and_eq_true] at hsucceed
    obtain ⟨hfirst, hrest⟩ := hsucceed
    have hclose : a.accountIndex ≠ insuranceFundOperatorAccountIdx →
        (getPosition s a.accountIndex m).baseSize ≠ 0 → succeeds (closeOut m price a) s = true := by
      intro hfund hopen
      simpa [hfund, hopen] using hfirst
    obtain ⟨s₁, hrun, hexit⟩ := exitAccount_closes hneutral hfits hclose
    rw [after_of_ok hrun] at hrest
    obtain ⟨t, hruns, hexits⟩ := ih hexit.neutral hexit.fits hrest
    refine ⟨t, run_bind_ok.mpr ⟨(), s₁, hrun, hruns⟩, hexits.neutral, hexits.fits, fun b hb => ?_⟩
    rw [hexits.sizes b hb, hexit.sizes b hb, List.map_cons]
    by_cases hlater : b ∈ rest.map Account.accountIndex
    · rw [if_pos hlater, if_pos (List.mem_cons_of_mem _ hlater)]
    · simp only [List.mem_cons, hlater, List.not_mem_nil, or_false, if_false]

theorem MarketNeutral.flat (h : MarketNeutral s m) {i : ℕ}
    (hothers : ∀ b, b ≠ i → (getPosition s b m).baseSize = 0) : Flat m s := by
  -- compared with a state without positions, the sums are those of this account
  have hoff : ∀ b ∉ ({i} : Finset ℕ), (getPosition s b m).baseSize = (getPosition {} b m).baseSize :=
    fun b hb => hothers b (by simpa using hb)
  have hnet := netSize_sub_netSize _ hoff
  have hgross := grossSize_sub_grossSize _ hoff
  rw [Finset.sum_singleton] at hnet hgross
  have hempty : ∀ b, (getPosition {} b m).baseSize = 0 := fun b => rfl
  have hnet₀ : netSize {} m = 0 := rfl
  have hgross₀ : grossSize {} m = 0 := rfl
  have hzero : (getPosition s i m).baseSize = 0 := by
    rw [h.net, hnet₀, hempty] at hnet
    omega
  rw [h.gross, hgross₀, hempty, hzero] at hgross
  refine ⟨fun b => ?_, by simpa using hgross⟩
  by_cases hb : b = i
  · rw [hb, hzero]
  · exact hothers b hb

/-- **The exit closes the market.**  If every attempt goes through, no account has a position
afterwards, whatever the fund held before, and the open interest is zero. -/
theorem exit_closes_market {md : MarketDetails} (hmd : getMarketDetails m s = .ok md)
    (hprice : md.markPrice ≠ 0) (hneutral : MarketNeutral s m) (hfits : OpenInterestFits s m)
    (hheld : ∀ a, (getPosition s a m).baseSize ≠ 0 → a ≠ insuranceFundOperatorAccountIdx →
      ∃ acc, s.account.accounts.get a = some acc)
    (hsucceed : exitsSucceed m md.markPrice (accountsOf s) s = true) :
    ∃ t, (applyExitPosition m).run s = .ok () t ∧ Flat m t := by
  obtain ⟨t, hrun, hexit⟩ := exitAccounts_close hneutral hfits hsucceed
  refine ⟨t, ?_, hexit.neutral.flat (i := insuranceFundOperatorAccountIdx) fun b hb => ?_⟩
  · refine run_bind_read_ok.mpr ⟨md, hmd, ?_⟩
    rw [if_neg hprice]
    exact run_bind_read_ok.mpr ⟨_, rfl, hrun⟩
  · rw [hexit.sizes b hb]
    split
    · rfl
    · rename_i hmem
      by_contra hopen
      obtain ⟨acc, hacc⟩ := hheld b hopen hb
      refine hmem (List.mem_map.mpr ⟨acc, Table.mem_toList hacc, ?_⟩)
      exact Table.key_of_get hacc

/-- The fund and account 2 are long 3 and 7 units, account 3 is short both. -/
def smallExit : State where
  account := {
    accounts := Table.ofRows [{ accountIndex := 0 },
      { accountIndex := 1, accountType := .insuranceFund, publicPoolInfo := some {} },
      { accountIndex := 2, collateral := 1000 }, { accountIndex := 3, collateral := 1000 }]
    accountPositions := Table.ofRows [
      { accountIndex := 1, marketIndex := 0, baseSize := 3, entryQuote := 300 },
      { accountIndex := 2, marketIndex := 0, baseSize := 7, entryQuote := 700 },
      { accountIndex := 3, marketIndex := 0, baseSize := -10, entryQuote := -1000 }] }
  market := { marketDetails := Table.ofRows [
    { marketIndex := 0, markPrice := 120, openInterest := 10 }] }

theorem exit_closes_market_small :
    (getPosition smallExit 1 0).baseSize = 3 ∧
    ∃ t, (applyExitPosition 0).run smallExit = .ok () t ∧ Flat 0 t := by
  have hmd : getMarketDetails 0 smallExit
      = .ok { marketIndex := 0, markPrice := 120, openInterest := 10 } := by decide +kernel
  have hfits : OpenInterestFits smallExit 0 := by
    unfold OpenInterestFits
    decide +kernel
  refine ⟨rfl, exit_closes_market hmd (by decide) ⟨by decide +kernel, by decide +kernel⟩ hfits
    (fun a hopen _ => ?_) (by decide +kernel)⟩
  have hrows : ∀ p ∈ smallExit.account.accountPositions.toList,
      (smallExit.account.accounts.get p.accountIndex).isSome = true := by decide +kernel
  rw [getPosition] at hopen
  cases hget : smallExit.account.accountPositions.get (toLex (a, 0)) with
  | none =>
    rw [hget] at hopen
    exact absurd rfl hopen
  | some p =>
    have hkey : p.key = toLex (a, 0) := Table.key_of_get hget
    have hacc := hrows p (Table.mem_toList hget)
    rw [(Prod.mk.inj (toLex.injective hkey)).1] at hacc
    exact Option.isSome_iff_exists.mp hacc

end PerpDex
