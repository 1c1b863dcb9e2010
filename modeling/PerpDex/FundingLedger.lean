/-
Funding is charged once for every round.

A round owes each open position its size times the increment of the prefix sum; positions are charged
when they are settled.  `FundingStep` follows one position through rounds, fills, margin updates and
settlements.

* `FundingStep.refines` — each of these operations is a run of the prefix-sum ledger.

Main result: `funding_charged_once`.

A fill in which both sides are the same account settles it twice; the second settlement does nothing.
-/
import PerpDex.ForcedFills
import PerpDex.AccountMsgs
import PerpDex.PrefixLedger

namespace PerpDex

open PrefixLedger

variable {s t : State} {l : Ledger} {f : Fill}
variable {a m : ℕ} {d : MarketDetails}

/-- What funding sees of the position of `a` in market `m`. -/
def holdingOf (s : State) (a m : ℕ) : Holding where
  size := (getPosition s a m).baseSize
  prefixSum := (detailsOf s m).fundingRatePrefixSum
  snapshot := (getPosition s a m).lastFundingRatePrefixSum

/-- Enter the settlement of a position; without market details there is none. -/
def bookSettlement (s : State) (a m : ℕ) (l : Ledger) : Ledger :=
  match s.market.marketDetails.get m with
  | none => l
  | some d =>
    let p := getPosition s a m
    l.settle ((p.settleFunding d).entryQuote - p.entryQuote)
      (decide (p.lastFundingRatePrefixSum ≠ d.fundingRatePrefixSum))

/-- Enter a round: the size held is owed the increment of the prefix sum. -/
def bookRound (s t : State) (a m : ℕ) (l : Ledger) : Ledger :=
  l.round (getPosition s a m).baseSize
    ((detailsOf t m).fundingRatePrefixSum - (detailsOf s m).fundingRatePrefixSum)

def Fill.Touches (f : Fill) (a m : ℕ) : Prop :=
  m = f.marketIndex ∧ (a = f.makerAccountIndex ∨ a = f.takerAccountIndex)

instance (f : Fill) (a m : ℕ) : Decidable (f.Touches a m) := by
  unfold Fill.Touches
  infer_instance

/-- One operation, with the ledger of the position of `a` in market `m`. -/
inductive FundingStep [AddressCodec] (a m : ℕ) : State × Ledger → State × Ledger → Prop where
  | round (s : State) (l : Ledger) (marketIdx : ℕ) (params : FundingParams) :
      FundingStep a m (s, l) (Txn.after (settleMarket marketIdx params) s,
        bookRound s (Txn.after (settleMarket marketIdx params) s) a m l)
  | settle (s : State) (l : Ledger) (acc marketIdx : ℕ) :
      FundingStep a m (s, l) (Txn.after (settlePositionFunding acc marketIdx) s,
        if a = acc ∧ m = marketIdx then bookSettlement s a m l else l)
  | fill (s : State) (l : Ledger) (f : Fill) :
      FundingStep a m (s, l) (Txn.after (apply f) s,
        if f.Touches a m then bookSettlement s a m l else l)
  | updateMargin (s t : State) (l : Ledger) (msg : MsgUpdateMargin)
      (h : (PerpDex.updateMargin msg).run s = .ok () t) :
      FundingStep a m (s, l)
        (t, if a = msg.accountIndex ∧ m = msg.marketIndex then bookSettlement s a m l else l)
  | updateLeverage (s t : State) (l : Ledger) (msg : MsgUpdateLeverage)
      (h : (PerpDex.updateLeverage msg).run s = .ok () t) : FundingStep a m (s, l) (t, l)

/-! ### Settlements -/

theorem AccountPosition.settleFunding_entryQuote (p : AccountPosition) (d : MarketDetails) :
    (p.settleFunding d).entryQuote - p.entryQuote =
      (p.baseSize * (d.fundingRatePrefixSum - p.lastFundingRatePrefixSum)).tdiv
        fundingRateTick := by
  simp only [settleFunding]
  split
  · rename_i hzero
    simp [hzero]
  · split
    · rename_i hdelta
      simp [hdelta]
    · simp

theorem AccountPosition.settleFunding_snapshot (p : AccountPosition) (d : MarketDetails) :
    (p.settleFunding d).lastFundingRatePrefixSum = d.fundingRatePrefixSum := by
  obtain ⟨q, hq⟩ := p.settleFunding_eq d
  rw [hq]

theorem detailsOf_eq_of_get (hd : s.market.marketDetails.get m = some d) : detailsOf s m = d := by
  rw [detailsOf, hd]
  rfl

theorem bookSettlement_step (hd : s.market.marketDetails.get m = some d) :
    Step fundingRateTick (holdingOf s a m, l) ((holdingOf s a m).settled, bookSettlement s a m l) := by
  have hbook : bookSettlement s a m l =
      l.settle ((holdingOf s a m).pending.tdiv fundingRateTick)
        (decide ((holdingOf s a m).snapshot ≠ (holdingOf s a m).prefixSum)) := by
    simp only [bookSettlement, hd, AccountPosition.settleFunding_entryQuote, Holding.pending,
      holdingOf, detailsOf_eq_of_get hd]
  rw [hbook]
  exact Step.settle _ _

theorem holdingOf_congr (hmarket : t.market = s.market)
    (hpos : getPosition t a m = getPosition s a m) : holdingOf t a m = holdingOf s a m := by
  simp only [holdingOf, detailsOf, hmarket, hpos]

theorem holdingOf_of_settled (hmarket : t.market = s.market)
    (hd : s.market.marketDetails.get m = some d)
    (hpos : getPosition t a m = (getPosition s a m).settleFunding d) :
    holdingOf t a m = (holdingOf s a m).settled := by
  have hdetails := detailsOf_eq_of_get hd
  ext
  · simp [holdingOf, hpos, Holding.settled]
  · simp [holdingOf, detailsOf, hmarket, Holding.settled]
  · simp [holdingOf, hpos, AccountPosition.settleFunding_snapshot, Holding.settled, hdetails]

theorem holdingOf_putPosition_settled {acc marketIdx : ℕ}
    (hd : s.market.marketDetails.get marketIdx = some d) (a m : ℕ) :
    holdingOf (s.putPosition ((getPosition s acc marketIdx).settleFunding d)) a m =
      if a = acc ∧ m = marketIdx then (holdingOf s a m).settled else holdingOf s a m := by
  by_cases h : a = acc ∧ m = marketIdx
  · obtain ⟨rfl, rfl⟩ := h
    rw [if_pos ⟨rfl, rfl⟩]
    refine holdingOf_of_settled rfl hd ?_
    rw [getPosition_putPosition, if_pos (by simp)]
  · rw [if_neg h]
    refine holdingOf_congr rfl ?_
    rw [getPosition_putPosition, if_neg (by simpa using h)]

theorem settlePositionFunding_refines (a m acc marketIdx : ℕ) :
    Relation.ReflTransGen (Step fundingRateTick) (holdingOf s a m, l)
      (holdingOf (Txn.after (settlePositionFunding acc marketIdx) s) a m,
        if a = acc ∧ m = marketIdx then bookSettlement s a m l else l) := by
  rw [Txn.after, settlePositionFunding_run]
  rcases hd : s.market.marketDetails.get marketIdx with _ | d
  · dsimp only
    split
    · rename_i h
      obtain ⟨-, rfl⟩ := h
      rw [bookSettlement, hd]
    · exact Relation.ReflTransGen.refl
  · dsimp only
    rw [holdingOf_putPosition_settled hd]
    split
    · rename_i h
      obtain ⟨-, rfl⟩ := h
      exact Relation.ReflTransGen.single (bookSettlement_step hd)
    · exact Relation.ReflTransGen.refl

/-! ### Rounds -/

theorem settleMarket_run (marketIdx : ℕ) (params : FundingParams) (s : State) :
    (settleMarket marketIdx params).run s = .ok ()
      (match s.market.marketDetails.get marketIdx with
      | none => s
      | some d => if d.totalPremiumSamples ≠ 0 then s.putDetails (d.closeRound params) else s) := by
  rw [settleMarket, Txn.run_bind_read]
  rcases s.market.marketDetails.get marketIdx with _ | d
  · rfl
  · dsimp only
    rw [Txn.run_when]
    split
    · rfl
    · rfl

theorem settleMarket_account (marketIdx : ℕ) (params : FundingParams) (s : State) :
    (Txn.after (settleMarket marketIdx params) s).account = s.account := by
  rw [Txn.after, settleMarket_run]
  dsimp only
  split
  · rfl
  · split
    · rfl
    · rfl

theorem settleMarket_refines (a m marketIdx : ℕ) (params : FundingParams) :
    Step fundingRateTick (holdingOf s a m, l)
      (holdingOf (Txn.after (settleMarket marketIdx params) s) a m,
        bookRound s (Txn.after (settleMarket marketIdx params) s) a m l) := by
  set t := Txn.after (settleMarket marketIdx params) s with ht
  have hpos : getPosition t a m = getPosition s a m := by
    rw [getPosition, settleMarket_account]
    rfl
  have hadvanced : holdingOf t a m = (holdingOf s a m).advanced
      ((detailsOf t m).fundingRatePrefixSum - (detailsOf s m).fundingRatePrefixSum) := by
    ext
    · simp [holdingOf, hpos, Holding.advanced]
    · simp [holdingOf, Holding.advanced]
    · simp [holdingOf, hpos, Holding.advanced]
  rw [hadvanced]
  exact Step.round _ _ _

/-! ### Fills -/

def SameHoldings (s t : State) : Prop := ∀ a m, holdingOf t a m = holdingOf s a m

instance : IsPreorder State SameHoldings where
  refl _ _ _ := rfl
  trans _ _ _ h h' a m := (h' a m).trans (h a m)

/-- Sizes differ on the two sides of the fill only; nothing else that funding sees does. -/
structure Resized (f : Fill) (s t : State) : Prop where
  side : ∀ a m, holdingOf t a m = (holdingOf s a m).resized (getPosition t a m).baseSize
  other : ∀ a m, ¬ f.Touches a m → holdingOf t a m = holdingOf s a m

theorem SameHoldings.resized (h : SameHoldings s t) : Resized f s t where
  side a m := by
    have hsize := congrArg Holding.size (h a m)
    rw [h a m, Holding.resized]
    ext
    · exact hsize.symm
    · rfl
    · rfl
  other a m _ := h a m

instance (f : Fill) : IsPreorder State (Resized f) where
  refl s := SameHoldings.resized (refl_of SameHoldings s)
  trans s t u h h' := by
    refine ⟨fun a m => ?_, fun a m hne => (h'.other a m hne).trans (h.other a m hne)⟩
    rw [h'.side, h.side]
    rfl

theorem detailsOf_prefixSum_of_traded (h : Traded s t) (m : ℕ) :
    (detailsOf t m).fundingRatePrefixSum = (detailsOf s m).fundingRatePrefixSum := by
  have hm := h.details m
  unfold detailsOf
  cases hs : s.market.marketDetails.get m with
  | none =>
    rw [hs] at hm
    have ht : t.market.marketDetails.get m = none := by simpa using hm
    rw [ht]
  | some d =>
    rw [hs] at hm
    obtain ⟨d', hd', heq⟩ := Option.map_eq_some_iff.mp hm
    have hprefix := congrArg MarketDetails.fundingRatePrefixSum heq
    rw [hd']
    exact hprefix

theorem SameHoldings.of_traded (h : Traded s t)
    (hpos : ∀ a m, (getPosition t a m).baseSize = (getPosition s a m).baseSize ∧
      (getPosition t a m).lastFundingRatePrefixSum
        = (getPosition s a m).lastFundingRatePrefixSum) : SameHoldings s t := by
  intro a m
  ext
  · exact (hpos a m).1
  · exact detailsOf_prefixSum_of_traded h m
  · exact (hpos a m).2

theorem addCollateral_sameHoldings (a : ℕ) (δ : ℤ) :
    Txn.Keeps SameHoldings (addCollateral a δ) := by
  intro s
  rw [Txn.after, addCollateral_run]
  cases s.account.accounts.get a with
  | none => exact refl_of SameHoldings s
  | some r => exact fun _ _ => rfl

theorem updatePosition_allocate_sameHoldings (a m : ℕ) (δ : ℤ) :
    Txn.Keeps SameHoldings (updatePosition a m fun p => .ok (p.allocate δ)) := by
  intro s
  rw [Txn.after, updatePosition_run]
  refine SameHoldings.of_traded (Traded.of_putPosition s _) fun b m' => ?_
  rw [getPosition_putPosition]
  split
  · rename_i hb
    obtain ⟨rfl, rfl⟩ : b = a ∧ m' = m := by simpa using hb
    exact ⟨rfl, rfl⟩
  · exact ⟨rfl, rfl⟩

theorem updateOpenInterest_sameHoldings (m : ℕ) (δ : ℤ) :
    Txn.Keeps SameHoldings (updateOpenInterest m δ) := by
  intro s
  refine SameHoldings.of_traded (updateOpenInterest_keeps m δ s).toTraded fun a m' => ?_
  rcases hrun : (updateOpenInterest m δ).run s with ⟨u, t⟩ | ⟨e, t⟩
  · rw [Txn.after_of_ok hrun]
    obtain ⟨d, -, -, rfl⟩ := updateOpenInterest_ok hrun
    exact ⟨rfl, rfl⟩
  · rw [Txn.after_of_error hrun, updateOpenInterest_error hrun]
    exact ⟨rfl, rfl⟩

theorem finishFill_sameHoldings (f : Fill) (makerPre takerPre : PreRiskSnapshot)
    (mr tr : PositionChangeResult) :
    Txn.Keeps SameHoldings (finishFill f makerPre takerPre mr tr) :=
  finishFill_rule addCollateral_sameHoldings (fun _ => updatePosition_allocate_sameHoldings _ _)
    (fun _ => updatePosition_allocate_sameHoldings _ _)
    (updateOpenInterest_sameHoldings f.marketIndex) makerPre takerPre

theorem applyPositionChange_resized {acc : ℕ}
    (hacc : acc = f.makerAccountIndex ∨ acc = f.takerAccountIndex) (price base : ℕ) (sign : ℤ) :
    Txn.Keeps (Resized f) (applyPositionChange acc f.marketIndex price base sign) := by
  refine Txn.Keeps.read.bind fun old => Txn.Keeps.bind ?_ fun p => ?_
  · intro s
    rw [Txn.after, updatePosition_run, boundedFill_eq]
    by_cases hin : ((getPosition s acc f.marketIndex).applyFill (base * sign) price).InBounds
    · rw [if_pos hin]
      dsimp only
      refine ⟨fun a m => ?_, fun a m hne => ?_⟩
      · ext
        · rfl
        · rfl
        · simp only [holdingOf, Holding.resized, getPosition_putPosition]
          split
          · rename_i hb
            obtain ⟨rfl, rfl⟩ : a = acc ∧ m = f.marketIndex := by simpa using hb
            rfl
          · rfl
      · have hother : ¬ (a = acc ∧ m = f.marketIndex) := by
          rintro ⟨rfl, rfl⟩
          exact hne ⟨rfl, hacc⟩
        simp only [holdingOf, getPosition_putPosition]
        rw [if_neg (by simpa using hother)]
        rfl
    · rw [if_neg hin]
      exact refl_of (Resized f) s
  · exact Txn.Keeps.require.bind fun _ => Txn.Keeps.pure

theorem afterPrepare_resized (f : Fill) (pre : PreRiskSnapshot × PreRiskSnapshot) :
    Txn.Keeps (Resized f) (do
      let makerRes ← makerPositionChange f
      let takerRes ← takerPositionChange f
      finishFill f pre.1 pre.2 makerRes takerRes) := by
  refine (applyPositionChange_resized (Or.inl rfl) _ _ _).mapError.bind fun mr => ?_
  refine (applyPositionChange_resized (Or.inr rfl) _ _ _).mapError.bind fun tr => ?_
  exact (finishFill_sameHoldings f pre.1 pre.2 mr tr).mono fun _ _ h => h.resized

theorem holdingOf_settledState (hd : s.market.marketDetails.get f.marketIndex = some d) (a m : ℕ) :
    holdingOf (f.settledState s d) a m =
      if f.Touches a m then (holdingOf s a m).settled else holdingOf s a m := by
  have hpos := Fill.getPosition_settledState (f := f) (s := s) (d := d) a m
  by_cases h : f.Touches a m
  · rw [if_pos h]
    obtain ⟨rfl, hside⟩ := h
    refine holdingOf_of_settled rfl hd ?_
    rw [hpos, if_pos rfl]
    rcases hside with rfl | rfl
    · rw [if_pos rfl]
      rfl
    · rw [if_pos rfl]
      split
      · rename_i hself
        rw [hself]
        rfl
      · rfl
  · rw [if_neg h]
    refine holdingOf_congr rfl ?_
    rw [hpos]
    split
    · rename_i hm
      rw [if_neg fun ha => h ⟨hm, Or.inl ha⟩, if_neg fun ha => h ⟨hm, Or.inr ha⟩]
    · rfl

theorem refines_of_resized (hd : s.market.marketDetails.get f.marketIndex = some d)
    (h : Resized f (f.settledState s d) t) (a m : ℕ) :
    Relation.ReflTransGen (Step fundingRateTick) (holdingOf s a m, l)
      (holdingOf t a m, if f.Touches a m then bookSettlement s a m l else l) := by
  have hsettled := holdingOf_settledState hd a m
  by_cases htouch : f.Touches a m
  · rw [if_pos htouch] at hsettled ⊢
    have hmarket : m = f.marketIndex := htouch.1
    subst hmarket
    rw [h.side, hsettled]
    exact (Relation.ReflTransGen.single (bookSettlement_step hd)).tail (Step.resize _ _ _ rfl)
  · rw [if_neg htouch] at hsettled ⊢
    rw [h.other a m htouch, hsettled]

theorem apply_refines (f : Fill) (a m : ℕ) :
    Relation.ReflTransGen (Step fundingRateTick) (holdingOf s a m, l)
      (holdingOf (Txn.after (apply f) s) a m,
        if f.Touches a m then bookSettlement s a m l else l) := by
  refine Txn.after_bind (P := fun t => Relation.ReflTransGen (Step fundingRateTick)
    (holdingOf s a m, l) (holdingOf t a m, _)) (fun pre u hprep => ?_) (fun e u hprep => ?_)
  · obtain ⟨d, hd, rfl, -⟩ := prepareFill_ok hprep
    exact refines_of_resized hd (afterPrepare_resized f pre _) a m
  · rcases prepareFill_error hprep with ⟨hnone, rfl⟩ | ⟨d, hd, rfl, -⟩
    · split
      · rename_i htouch
        obtain ⟨rfl, -⟩ := htouch
        rw [bookSettlement, hnone]
      · exact Relation.ReflTransGen.refl
    · exact refines_of_resized hd (refl_of (Resized f) _) a m

/-! ### Runs -/

variable [AddressCodec]

theorem FundingStep.refines {x y : State × Ledger} (h : FundingStep a m x y) :
    Relation.ReflTransGen (Step fundingRateTick) (holdingOf x.1 a m, x.2)
      (holdingOf y.1 a m, y.2) := by
  cases h with
  | round s l marketIdx params =>
    exact Relation.ReflTransGen.single (settleMarket_refines a m marketIdx params)
  | settle s l acc marketIdx => exact settlePositionFunding_refines a m acc marketIdx
  | fill s l f => exact apply_refines f a m
  | updateMargin s t l msg h =>
    obtain ⟨s₁, c, al, hsettle, hmove⟩ := updateMargin_ok h
    -- after the settlement only margin moves
    have hsame : holdingOf t a m = holdingOf s₁ a m := by
      have hmarket : t.market = s₁.market := hmove.market
      simp only [holdingOf, detailsOf, hmarket, hmove.position, AccountPosition.allocate]
    have hrefines := settlePositionFunding_refines (s := s) (l := l) a m msg.accountIndex
      msg.marketIndex
    rw [Txn.after_of_ok hsettle] at hrefines
    rw [hsame]
    exact hrefines
  | updateLeverage s t l msg h =>
    obtain ⟨-, rfl⟩ := updateLeverage_ok h
    have hsame : holdingOf (s.putPosition { getPosition s msg.accountIndex msg.marketIndex with
        marginMode := msg.newMarginMode
        initialMarginFraction := msg.newInitialMarginFraction }) a m = holdingOf s a m := by
      simp only [holdingOf, getPosition_putPosition]
      split
      · rename_i hb
        obtain ⟨rfl, rfl⟩ : a = msg.accountIndex ∧ m = msg.marketIndex := by simpa using hb
        rfl
      · rfl
    rw [hsame]

theorem refines_of_run {x y : State × Ledger} (hrun : Relation.ReflTransGen (FundingStep a m) x y) :
    Relation.ReflTransGen (Step fundingRateTick) (holdingOf x.1 a m, x.2)
      (holdingOf y.1 a m, y.2) := by
  induction hrun with
  | refl => exact Relation.ReflTransGen.refl
  | tail _ hstep ih => exact ih.trans hstep.refines

/-- **Funding is charged once.**  Follow a position from a moment at which it is empty or settled
through any sequence of rounds, fills, margin updates and settlements.  Whenever it is settled, what
was put on its entry quote differs from the sum of size times increment over the rounds by less than
one unit per settlement that moved the snapshot, and not at all if there was none. -/
theorem funding_charged_once {a m : ℕ}
    (hstart : (getPosition s a m).baseSize = 0 ∨
      (getPosition s a m).lastFundingRatePrefixSum = (detailsOf s m).fundingRatePrefixSum)
    (hrun : Relation.ReflTransGen (FundingStep a m) (s, {}) (t, l))
    (hsettled : (getPosition t a m).lastFundingRatePrefixSum
      = (detailsOf t m).fundingRatePrefixSum) :
    (0 < l.settlements → |(l.charged : ℚ) - l.owed / fundingRateTick| < l.settlements) ∧
      (l.settlements = 0 → (l.charged : ℚ) = l.owed / fundingRateTick) := by
  refine charged_of_steps (by decide) (refines_of_run hrun) ?_ ?_
  · rw [Holding.pending]
    rcases hstart with h | h
    · rw [holdingOf, h, zero_mul]
    · rw [holdingOf, h, sub_self, mul_zero]
  · rw [Holding.pending, holdingOf, hsettled, sub_self, mul_zero]

omit [AddressCodec]

/-- A long position of trader 2 in a market whose premium round is about to close. -/
def openRound : State where
  account := {
    accounts := Table.ofRows [{ accountIndex := 2, collateral := 1000000 }]
    accountPositions := Table.ofRows [{
      accountIndex := 2, marketIndex := 0, baseSize := 500000, entryQuote := 500000 }] }
  market := {
    markets := Table.ofRows [{ marketIndex := 0 }]
    marketDetails := Table.ofRows [{
      marketIndex := 0, markPrice := 1, fundingClampBig := 100,
      aggregatePremiumSum := 24, totalPremiumSamples := 1 }] }

def roundClosed : State := Txn.after (settleMarket 0 {}) openRound

def longSettled : State := Txn.after (settlePositionFunding 2 0) roundClosed

/-- The round owes a unit and a half, of which the settlement charges the unit. -/
theorem funding_charged_once_rounded :
    let _ := AddressCodec.acceptAll
    let l : Ledger := { owed := 1500000, charged := 1, settlements := 1 }
    Relation.ReflTransGen (FundingStep 2 0) (openRound, {}) (longSettled, l) ∧
      |(l.charged : ℚ) - l.owed / fundingRateTick| < l.settlements := by
  intro _ l
  have hround := FundingStep.round (a := 2) (m := 0) openRound {} 0 {}
  have hsettle := FundingStep.settle (a := 2) (m := 0) roundClosed
    (bookRound openRound roundClosed 2 0 {}) 2 0
  have hbook : bookSettlement roundClosed 2 0 (bookRound openRound roundClosed 2 0 {}) = l := by
    decide +kernel
  rw [if_pos ⟨rfl, rfl⟩, hbook] at hsettle
  have hrun : Relation.ReflTransGen (FundingStep 2 0) (openRound, {}) (longSettled, l) :=
    (Relation.ReflTransGen.single hround).tail hsettle
  exact ⟨hrun, (funding_charged_once (Or.inr (by decide +kernel)) hrun (by decide +kernel)).1
    (by decide)⟩

end PerpDex
