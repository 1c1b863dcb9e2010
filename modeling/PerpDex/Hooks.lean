/-
What the hooks that close positions by force leave alone.

Main results: `liquidationEndBlocker_rule`, `marketEndBlocker_rule`, `ForcedHook.flat`,
`ForcedHook.forced`.

Hooks go on after errors of single trades, so relations are kept on every outcome.  `Quiet` tells a
market that a hook does not trade in apart from one whose trades keep the relation.
-/
import PerpDex.Liquidation

namespace PerpDex

open Txn

variable {s t : State}

/-! ### The rule -/

theorem getMarket_stored {m : ℕ} {mk : Market} (h : getMarket m s = .ok mk) :
    s.market.markets.get mk.marketIndex = some mk := by
  unfold getMarket at h
  cases hget : s.market.markets.get m with
  | none => simp [hget] at h
  | some mk' =>
    simp only [hget, Except.ok.injEq] at h
    subst h
    rw [Table.key_of_get hget]
    exact hget

section Rule

variable {R : State → State → Prop} [IsPreorder State R] {m : ℕ}

/-- Trades in market `m` keep the relation from `s` on, or there is no position to be closed, or
nothing left to break. -/
def Quiet (R : State → State → Prop) (m : ℕ) (s : State) : Prop :=
  (∀ f : Fill, f.marketIndex = m → Keeps R (apply f)) ∨
    (∀ a, (getPosition s a m).baseSize = 0) ∨ ∀ t, R s t

theorem uint64Of_keeps (x : ℤ) : Keeps R (uint64Of x) := Keeps.require.bind fun _ => Keeps.pure

theorem deleverage_keeps (hfill : ∀ f : Fill, f.marketIndex = m → Keeps R (apply f))
    (victim deleverager base : ℕ) : Keeps R (deleverage victim m deleverager base) := by
  refine Keeps.read.bind fun snap => Keeps.require.bind fun _ => Keeps.read.bind fun status => ?_
  refine Keeps.require.bind fun _ => Keeps.require.bind fun _ => Keeps.require.bind fun _ => ?_
  refine Keeps.require.bind fun _ => Keeps.read.bind fun dAcc => ?_
  refine (Keeps.when fun _ => Keeps.read).bind fun _ => (Keeps.when fun _ => Keeps.read).bind ?_
  exact fun _ => (hfill _ rfl).bind fun _ => Keeps.when fun _ => Keeps.read

theorem deleverage_rule (hquiet : Quiet R m s) (victim deleverager base : ℕ) :
    R s (after (deleverage victim m deleverager base) s) := by
  rcases hquiet with hfill | hflat | hany
  · exact deleverage_keeps hfill victim deleverager base s
  · -- a victim without position is refused
    rw [deleverage, after_bind_read]
    cases hsnap : getZeroPriceSnapshot victim m s with
    | error e => exact refl_of R s
    | ok snap =>
      dsimp only
      rw [after_bind_require]
      · exact refl_of R s
      · rw [getZeroPriceSnapshot_position hsnap, not_not]
        exact hflat victim
  · exact hany _

theorem tryLLPAbsorb_keeps (hfill : ∀ f : Fill, f.marketIndex = m → Keeps R (apply f))
    (victim attempts : ℕ) : Keeps R (tryLLPAbsorb victim m attempts) := by
  refine Keeps.ite (fun _ => Keeps.pure) fun _ => Keeps.read.bind fun llp => ?_
  cases llp with
  | error e => exact Keeps.pure
  | ok llp =>
    dsimp only
    split
    · exact Keeps.pure
    refine Keeps.read.bind fun snap => Keeps.ite (fun _ => Keeps.pure) fun _ => ?_
    refine Keeps.read.bind fun postRP => Keeps.ite (fun _ => Keeps.pure) fun _ => ?_
    exact (uint64Of_keeps _).bind fun size =>
      (deleverage_keeps hfill _ _ _).bind fun _ => Keeps.pure

theorem tryLLPAbsorb_rule (hquiet : Quiet R m s) (victim attempts : ℕ) :
    R s (after (tryLLPAbsorb victim m attempts) s) := by
  rcases hquiet with hfill | hflat | hany
  · exact tryLLPAbsorb_keeps hfill victim attempts s
  · unfold tryLLPAbsorb
    split
    · exact refl_of R s
    rw [after_bind_read]
    dsimp only
    split
    · exact refl_of R s
    split
    · exact refl_of R s
    rw [after_bind_read]
    cases hsnap : getLiquidationRiskSnapshot victim m s with
    | error e => exact refl_of R s
    | ok snap =>
      dsimp only
      rw [if_pos]
      · exact refl_of R s
      · rw [getLiquidationRiskSnapshot_position hsnap]
        exact hflat victim
  · exact hany _

theorem adlLoop_keeps (hfill : ∀ f : Fill, f.marketIndex = m → Keeps R (apply f)) (victim : ℕ)
    (long ask : Bool) (cands : List ADLCandidate) :
    ∀ (attempts victimZP : ℕ) (remaining : ℤ),
      Keeps R (adlLoop victim m long ask cands attempts victimZP remaining) := by
  induction cands with
  | nil =>
    intro attempts victimZP remaining
    exact Keeps.pure
  | cons c rest ih =>
    intro attempts victimZP remaining
    refine Keeps.ite (fun _ => Keeps.pure) fun _ => Keeps.ite (fun _ => ih _ _ _) fun _ => ?_
    refine Keeps.ite (fun _ => ih _ _ _) fun _ => (uint64Of_keeps _).bind fun base => ?_
    refine (hfill _ rfl).attempt.bind fun done => ?_
    cases done with
    | error e => exact ih _ _ _
    | ok _ =>
      refine Keeps.read.bind fun snap => ?_
      cases snap with
      | error e => exact Keeps.pure
      | ok snap =>
        exact Keeps.ite (fun _ => Keeps.pure) fun _ =>
          Keeps.ite (fun _ => Keeps.pure) fun _ => ih _ _ _

theorem autoADL_rule (hquiet : Quiet R m s) (victim candCap attempts : ℕ) :
    R s (after (autoADL victim m candCap attempts) s) := by
  unfold autoADL
  split
  · exact refl_of R s
  rw [after_bind_read]
  dsimp only
  split
  · exact refl_of R s
  rename_i snap hsnap
  split
  · exact refl_of R s
  rename_i hsize
  split
  · exact refl_of R s
  rcases hquiet with hfill | hflat | hany
  · exact Keeps.read.bind (fun cands => adlLoop_keeps hfill _ _ _ cands _ _ _) s
  · rw [getLiquidationRiskSnapshot_position hsnap] at hsize
    exact absurd (hflat victim) hsize
  · exact hany _

theorem exitAccount_rule (hquiet : Quiet R m s) (closePrice : ℕ) (a : Account) :
    R s (after (exitAccount m closePrice a) s) := by
  unfold exitAccount
  split
  · exact refl_of R s
  rw [after_bind_read]
  dsimp only
  split
  · exact refl_of R s
  rename_i hsize
  rcases hquiet with hfill | hflat | hany
  · exact ((uint64Of_keeps _).bind fun base => (hfill _ rfl).attempt.bind fun _ => Keeps.pure) s
  · exact absurd (hflat a.accountIndex) hsize
  · exact hany _

variable (hquiet : ∀ m s, Quiet R m s)

include hquiet

theorem processRanked_rule (accountIdx candCap : ℕ) (ranked : List RankedPosition) :
    ∀ attempts, Keeps R (processRanked accountIdx candCap ranked attempts) := by
  induction ranked with
  | nil => exact fun attempts => Keeps.pure
  | cons rp rest ih =>
    intro attempts
    unfold processRanked
    split
    · exact Keeps.pure
    refine Keeps.read.bind fun status => ?_
    cases status with
    | error e => exact Keeps.pure
    | ok status =>
      dsimp only
      split
      · exact ih _
      have habsorb : Keeps R (tryLLPAbsorb accountIdx rp.marketIndex attempts) :=
        fun s => tryLLPAbsorb_rule (hquiet _ s) _ _
      have hadl : Keeps R (autoADL accountIdx rp.marketIndex candCap attempts >>= fun r =>
          processRanked accountIdx candCap rest r.1) :=
        Keeps.bind (fun s => autoADL_rule (hquiet _ s) _ _ _) fun r => ih _
      refine habsorb.attempt.bind fun absorbed => ?_
      cases absorbed with
      | error e => exact hadl
      | ok done =>
        cases done with
        | false => exact hadl
        | true => exact ih _

theorem processAccounts_rule (candCap : ℕ) (accounts : List Account) :
    ∀ attempts, Keeps R (processAccounts candCap accounts attempts) := by
  induction accounts with
  | nil => exact fun attempts => Keeps.pure
  | cons a rest ih =>
    intro attempts
    unfold processAccounts
    split
    · exact ih _
    refine Keeps.bind ?_ fun attempts => ih _
    refine Keeps.read.bind fun ranked => ?_
    cases ranked with
    | error e => exact Keeps.pure
    | ok ranked => exact processRanked_rule hquiet _ _ ranked _

/-- **The waterfall keeps what the trades in markets with positions keep.** -/
theorem liquidationEndBlocker_rule : Keeps R liquidationEndBlocker :=
  Keeps.read.bind fun _ => Keeps.read.bind fun accounts => processAccounts_rule hquiet _ accounts _

theorem applyExitPosition_rule (marketIdx : ℕ) : Keeps R (applyExitPosition marketIdx) := by
  refine Keeps.read.bind fun md => ?_
  split
  · exact Keeps.pure
  · refine Keeps.read.bind fun accounts => Keeps.forM fun a _ s => ?_
    exact exitAccount_rule (hquiet _ s) _ a

/-- **So does the expiry of markets**, if changing the status and the expiry index does. -/
theorem marketEndBlocker_rule
    (hexpire : ∀ s mk, s.market.markets.get mk.marketIndex = some mk → mk.status = .active →
      R s (after (updateMarket mk { mk with status := .expired }) s))
    (hindex : ∀ key, Keeps R (Txn.write fun s : State => { s with market := { s.market with
      expiryIndex := s.market.expiryIndex.remove key } } : Tx Unit)) :
    Keeps R marketEndBlocker := by
  have hmarket : ∀ s mk, s.market.markets.get mk.marketIndex = some mk → mk.status = .active →
      R s (after (logged (expireMarket mk)) s) := by
    intro s mk hmk hst
    have hall : R s (after (expireMarket mk) s) := by
      exact after_bind_keeps (hexpire s mk hmk hst) fun _ =>
        (applyExitPosition_rule hquiet _).attempt.bind fun _ => Keeps.pure
    have hlogged := after_attempt (x := expireMarket mk) (s := s) Err.isValue
    rw [logged, hlogged]
    exact hall
  refine Keeps.read.bind fun budget => Keeps.read.bind fun due => ?_
  induction due generalizing budget with
  | nil => exact Keeps.pure
  | cons key rest ih =>
    cases budget with
    | zero => exact Keeps.pure
    | succ budget =>
      intro s
      rw [iterateExpired, after_bind_read]
      dsimp only
      cases hmk : getMarket (ofLex key).2 s with
      | error e => exact ((hindex key).bind fun _ => ih _) s
      | ok mk =>
        dsimp only
        split
        · exact ((hindex key).bind fun _ => ih _) s
        · rename_i hst
          have hst : mk.status = .active := not_not.mp hst
          refine after_bind_keeps (hmarket s mk (getMarket_stored hmk) hst) fun visited => ?_
          cases visited with
          | error e => exact ih _
          | ok _ => exact ih _

end Rule

/-! ### Markets without positions -/

/-- Nobody holds a position in market `m`, and none is counted. -/
structure Flat (m : ℕ) (s : State) : Prop where
  sizes : ∀ a, (getPosition s a m).baseSize = 0
  openInterest : (detailsOf s m).openInterest = 0

structure Elsewhere (m : ℕ) (s t : State) : Prop where
  sizes : ∀ a, (getPosition t a m).baseSize = (getPosition s a m).baseSize
  openInterest : (detailsOf t m).openInterest = (detailsOf s m).openInterest

instance (m : ℕ) : IsPreorder State (Elsewhere m) where
  refl _ := ⟨fun _ => rfl, rfl⟩
  trans _ _ _ h h' :=
    ⟨fun a => (h'.sizes a).trans (h.sizes a), h'.openInterest.trans h.openInterest⟩

/-- A market without positions is still without. -/
def StaysFlat (m : ℕ) (s t : State) : Prop := Flat m s → Flat m t

instance (m : ℕ) : IsPreorder State (StaysFlat m) where
  refl _ h := h
  trans _ _ _ h h' hs := h' (h hs)

theorem Elsewhere.staysFlat {m : ℕ} (h : Elsewhere m s t) : StaysFlat m s t := fun hs =>
  ⟨fun a => (h.sizes a).trans (hs.sizes a), h.openInterest.trans hs.openInterest⟩

section Elsewhere

variable {m : ℕ}

theorem Elsewhere.of_market (hsizes : ∀ a, (getPosition t a m).baseSize
    = (getPosition s a m).baseSize) (hmarket : t.market = s.market) : Elsewhere m s t :=
  ⟨hsizes, by simp only [detailsOf, hmarket]⟩

theorem addCollateral_elsewhere (a : ℕ) (δ : ℤ) : Keeps (Elsewhere m) (addCollateral a δ) := by
  intro s
  rw [after, addCollateral_run]
  cases s.account.accounts.get a with
  | none => exact refl_of (Elsewhere m) s
  | some r => exact ⟨fun _ => rfl, rfl⟩

theorem updatePosition_allocate_elsewhere (a m' : ℕ) (δ : ℤ) :
    Keeps (Elsewhere m) (updatePosition a m' fun p => .ok (p.allocate δ)) := by
  intro s
  have hrouted := updatePosition_allocate_keeps a m' δ s
  refine Elsewhere.of_market (fun b => hrouted.baseSize b m) ?_
  rw [after, updatePosition_run]
  rfl

theorem updateOpenInterest_elsewhere {m' : ℕ} (hm : m' ≠ m) (δ : ℤ) :
    Keeps (Elsewhere m) (updateOpenInterest m' δ) := by
  intro s
  rcases hrun : (updateOpenInterest m' δ).run s with ⟨u, t⟩ | ⟨e, t⟩
  · rw [after_of_ok hrun]
    obtain ⟨d, hd, -, rfl⟩ := updateOpenInterest_ok hrun
    have hkey : d.marketIndex = m' := Table.key_of_get hd
    refine ⟨fun _ => rfl, ?_⟩
    simp only [detailsOf, State.putDetails, Table.get_put, hkey]
    rw [if_neg hm.symm]
  · rw [after_of_error hrun, updateOpenInterest_error hrun]
    exact refl_of (Elsewhere m) s

theorem applyPositionChange_elsewhere {m' : ℕ} (hm : m' ≠ m) (acc price base : ℕ) (sign : ℤ) :
    Keeps (Elsewhere m) (applyPositionChange acc m' price base sign) := by
  refine Keeps.read.bind fun old => Keeps.bind ?_ fun p => ?_
  · intro s
    rw [after, updatePosition_run, boundedFill_eq]
    by_cases hin : ((getPosition s acc m').applyFill (base * sign) price).InBounds
    · rw [if_pos hin]
      refine Elsewhere.of_market (fun b => ?_) rfl
      show (getPosition (s.putPosition _) b m).baseSize = _
      rw [getPosition_putPosition, if_neg (by simp [hm.symm])]
    · rw [if_neg hin]
      exact refl_of (Elsewhere m) s
  · exact Keeps.require.bind fun _ => Keeps.pure

theorem apply_elsewhere {f : Fill} (hm : f.marketIndex ≠ m) : Keeps (Elsewhere m) (apply f) := by
  have hsettled : ∀ s t, Settled s t → Elsewhere m s t := fun s t h =>
    Elsewhere.of_market (fun a => h.baseSize a m) h.market
  refine ((prepareFill_keeps f).mono hsettled).bind fun pre => ?_
  refine (applyPositionChange_elsewhere hm _ _ _ _).mapError.bind fun mr => ?_
  refine (applyPositionChange_elsewhere hm _ _ _ _).mapError.bind fun tr => ?_
  exact finishFill_rule addCollateral_elsewhere (fun _ => updatePosition_allocate_elsewhere _ _)
    (fun _ => updatePosition_allocate_elsewhere _ _) (updateOpenInterest_elsewhere hm) pre.1 pre.2

theorem quiet_staysFlat (m m' : ℕ) (s : State) : Quiet (StaysFlat m) m' s := by
  by_cases hm : m' = m
  · subst hm
    by_cases hflat : Flat m' s
    · exact Or.inr (Or.inl hflat.sizes)
    · exact Or.inr (Or.inr fun t h => absurd h hflat)
  · refine Or.inl fun f hf => ?_
    subst hf
    exact (apply_elsewhere hm).mono fun _ _ h => h.staysFlat

end Elsewhere

/-! ### What the hooks leave alone -/

/-- Nothing but collateral, positions, open interest, the status of markets and the index of
their expiry differs, and no market comes back from its expiry. -/
structure Forced (s t : State) : Prop where
  details : ∀ m, (t.market.marketDetails.get m).map ({ · with openInterest := 0 })
    = (s.market.marketDetails.get m).map ({ · with openInterest := 0 })
  markets : ∀ m, (t.market.markets.get m).map ({ · with status := .active })
    = (s.market.markets.get m).map ({ · with status := .active })
  expired : ∀ m mk, s.market.markets.get m = some mk → mk.status = .expired →
    t.market.markets.get m = some mk
  frame : t = { s with
    account := { s.account with
      accounts := t.account.accounts, accountPositions := t.account.accountPositions }
    market := { s.market with
      marketDetails := t.market.marketDetails, markets := t.market.markets
      expiryIndex := t.market.expiryIndex } }

instance : IsPreorder State Forced where
  refl s := ⟨fun _ => rfl, fun _ => rfl, fun _ _ h _ => h, rfl⟩
  trans s t u h h' := by
    refine ⟨fun m => (h'.details m).trans (h.details m),
      fun m => (h'.markets m).trans (h.markets m), fun m mk hmk hst => ?_, ?_⟩
    · exact h'.expired m mk (h.expired m mk hmk hst) hst
    · rw [h'.frame, h.frame]

theorem Traded.forced (h : Traded s t) : Forced s t := by
  have hmarkets : t.market.markets = s.market.markets := by rw [h.frame]
  refine ⟨h.details, fun m => by rw [hmarkets], fun m mk hmk _ => by rw [hmarkets]; exact hmk, ?_⟩
  rw [h.frame]

theorem updateMarket_after (old mk : Market) (s : State) : ∃ index,
    after (updateMarket old mk) s = { s with market := { s.market with
      markets := s.market.markets.put mk, expiryIndex := index } } := by
  unfold updateMarket
  simp only [after, Txn.when, EStateM.run_bind, run_write]
  split_ifs
  · exact ⟨_, rfl⟩
  · exact ⟨_, rfl⟩
  · exact ⟨_, rfl⟩
  · exact ⟨_, rfl⟩

theorem expire_forced {mk : Market} (hmk : s.market.markets.get mk.marketIndex = some mk)
    (hst : mk.status = .active) :
    Forced s (after (updateMarket mk { mk with status := .expired }) s) := by
  obtain ⟨index, heq⟩ := updateMarket_after mk { mk with status := .expired } s
  rw [heq]
  refine ⟨fun _ => rfl, fun m => ?_, fun m mk' hmk' hst' => ?_, rfl⟩
  · dsimp only
    rw [Table.get_put]
    split
    · rename_i hm
      rw [hm, hmk]
      simp
    · rfl
  · dsimp only
    rw [Table.get_put, if_neg]
    · exact hmk'
    · rintro rfl
      rw [hmk] at hmk'
      cases hmk'
      rw [hst] at hst'
      cases hst'

/-- One run of a hook or message that closes positions by force. -/
inductive ForcedHook (s : State) : State → Prop
  | liquidation {t : State} (h : liquidationEndBlocker.run s = .ok () t) : ForcedHook s t
  | expiry {t : State} (h : marketEndBlocker.run s = .ok () t) : ForcedHook s t
  /-- The exit of a market that governance delists; its error is logged. -/
  | exit (m : ℕ) : ForcedHook s (after (applyExitPosition m) s)
  | deleverage {t : State} (victim m deleverager base : ℕ)
      (h : (PerpDex.deleverage victim m deleverager base).run s = .ok () t) : ForcedHook s t

theorem expire_staysFlat (m : ℕ) (mk : Market) (s : State) :
    StaysFlat m s (after (updateMarket mk { mk with status := .expired }) s) := by
  obtain ⟨index, heq⟩ := updateMarket_after mk { mk with status := .expired } s
  rw [heq]
  exact fun h => ⟨h.sizes, h.openInterest⟩

/-- **Hooks that close positions leave markets without positions alone.** -/
theorem ForcedHook.flat (h : ForcedHook s t) {m : ℕ} (hs : Flat m s) : Flat m t := by
  cases h with
  | liquidation h => exact (liquidationEndBlocker_rule (quiet_staysFlat m)).ok h hs
  | expiry h =>
    have hkeeps : Keeps (StaysFlat m) marketEndBlocker :=
      marketEndBlocker_rule (quiet_staysFlat m) (fun s mk _ _ => expire_staysFlat m mk s)
        fun key => Keeps.write fun s h => ⟨h.sizes, h.openInterest⟩
    exact hkeeps.ok h hs
  | exit m' => exact applyExitPosition_rule (quiet_staysFlat m) m' s hs
  | deleverage victim m' deleverager base h =>
    rw [← after_of_ok h]
    exact deleverage_rule (quiet_staysFlat m m' s) victim deleverager base hs

theorem quiet_forced (m : ℕ) (s : State) : Quiet Forced m s :=
  Or.inl fun f _ => (apply_keeps f).mono fun _ _ h => h.forced

/-- **They touch no order, no balance of an asset, and not what a market trades.** -/
theorem ForcedHook.forced (h : ForcedHook s t) : Forced s t := by
  cases h with
  | liquidation h => exact (liquidationEndBlocker_rule quiet_forced).ok h
  | expiry h =>
    have hkeeps : Keeps Forced marketEndBlocker :=
      marketEndBlocker_rule quiet_forced (fun s mk hmk hst => expire_forced hmk hst)
        fun key => Keeps.write fun s => ⟨fun _ => rfl, fun _ => rfl, fun _ _ h _ => h, rfl⟩
    exact hkeeps.ok h
  | exit m => exact applyExitPosition_rule quiet_forced m s
  | deleverage victim m deleverager base h =>
    rw [← after_of_ok h]
    exact deleverage_rule (quiet_forced m s) victim deleverager base

end PerpDex
