/-
Mark prices over many blocks.

* `MarksKept` — what everything but the hook leaves of the mark prices: new markets are fresh.

Main results: `mark_price_bounded`, `messages_keep_marks`.

A market is fresh if it was created with no time of a refresh: the message that creates it may carry one.
-/
import PerpDex.Chain
import PerpDex.MarketExpiry
import PerpDex.MarkPrice

namespace PerpDex

open Arith Txn

variable {s t u : State}

/-! ### Outside of the hook -/

/-- Mark prices and samples are kept, and new markets are fresh. -/
structure MarksKept (s t : State) : Prop where
  params : t.fundingParams = s.fundingParams
  round : t.lastFundingRoundTimestamp = s.lastFundingRoundTimestamp
  details : ∀ m d', t.market.marketDetails.get m = some d' →
    d'.Fresh ∨ ∃ d, s.market.marketDetails.get m = some d ∧ d.Kept d'

instance : IsPreorder State MarksKept where
  refl s := ⟨rfl, rfl, fun m d hd => .inr ⟨d, hd, .refl d⟩⟩
  trans s t u h h' := by
    refine ⟨h'.params.trans h.params, h'.round.trans h.round, fun m d'' hd'' => ?_⟩
    rcases h'.details m d'' hd'' with hfresh | ⟨d', hd', hk'⟩
    · exact .inl hfresh
    · rcases h.details m d' hd' with hfresh | ⟨d, hd, hk⟩
      · exact .inl (hk'.fresh hfresh)
      · exact .inr ⟨d, hd, hk.trans hk'⟩

namespace MarksKept

theorem of_same (hparams : t.fundingParams = s.fundingParams)
    (hround : t.lastFundingRoundTimestamp = s.lastFundingRoundTimestamp)
    (h : t.market.marketDetails = s.market.marketDetails) : MarksKept s t :=
  ⟨hparams, hround, fun _ d hd => .inr ⟨d, h ▸ hd, .refl d⟩⟩

theorem of_map {f : MarketDetails → MarketDetails} (hf : ∀ d d', f d' = f d → d.Kept d')
    (hparams : t.fundingParams = s.fundingParams)
    (hround : t.lastFundingRoundTimestamp = s.lastFundingRoundTimestamp)
    (h : ∀ m, (t.market.marketDetails.get m).map f = (s.market.marketDetails.get m).map f) :
    MarksKept s t := by
  refine ⟨hparams, hround, fun m d' hd' => .inr ?_⟩
  have hm := h m
  rw [hd', Option.map_some] at hm
  obtain ⟨d, hd, hfd⟩ := Option.map_eq_some_iff.mp hm.symm
  exact ⟨d, hd, hf d d' hfd.symm⟩

theorem of_put {d : MarketDetails}
    (h : d.Fresh ∨ ∃ d₀, s.market.marketDetails.get d.marketIndex = some d₀ ∧ d₀.Kept d) :
    MarksKept s (s.putDetails d) := by
  refine ⟨rfl, rfl, fun m d' hd' => ?_⟩
  by_cases hm : m = d.marketIndex
  · subst hm
    cases (Table.get_put_self _ _).symm.trans hd'
    exact h
  · exact .inr ⟨d', (Table.get_put_ne _ hm).symm.trans hd', .refl d'⟩

end MarksKept

theorem kept_of_static {d d' : MarketDetails} (h : d'.static = d.static) : d.Kept d' := by
  have hfield : ∀ {α : Type} (g : MarketDetails → α), g d'.static = g d.static :=
    fun g => congrArg g h
  exact ⟨hfield MarketDetails.markPrice, hfield MarketDetails.markPremiumEma,
    hfield MarketDetails.impactPrice, hfield MarketDetails.lastMarkPriceRefreshTimestamp,
    hfield MarketDetails.lastPremiumSampleTimestamp, (hfield MarketDetails.totalPremiumSamples).le⟩

theorem MarketFrame.marksKept (h : MarketFrame s t) : MarksKept s t :=
  .of_map (fun _ _ => kept_of_static) (by rw [h.frame]) (by rw [h.frame]) h.static

theorem Traded.marksKept (h : Traded s t) : MarksKept s t := by
  refine .of_map (f := fun d => { d with openInterest := 0 }) (fun d d' hd => ?_) (by rw [h.frame])
    (by rw [h.frame]) h.details
  have hstatic := congrArg MarketDetails.static hd
  exact kept_of_static hstatic

theorem tradingRule_marksKept : TradingRule MarksKept where
  order s t h := .of_same (by rw [h]) (by rw [h]) (by rw [h])
  market _ _ h := h.marksKept
  fill f := (apply_keeps f).mono fun _ _ h => h.marksKept

section Messages

variable [AddressCodec] {authority : String}

theorem TradingStep.marksKept (h : TradingStep s t) : MarksKept s t := h.rule tradingRule_marksKept

theorem AccountStep.marksKept (h : AccountStep authority s t) : MarksKept s t := by
  refine h.rule (fun s t hfunds => ?_) (fun a m => ?_) (fun msg hrun => ?_) fun msg hrun => ?_
  · exact .of_same (by rw [hfunds]) (by rw [hfunds]) (by rw [hfunds])
  · exact (settlePositionFunding_keeps a m).mono fun _ _ h => (Traded.of_settled h).marksKept
  · obtain ⟨s₁, c, al, hsettle, hmove⟩ := updateMargin_ok hrun
    have hsettle := (settlePositionFunding_keeps _ _).ok hsettle
    refine trans_of MarksKept (Traded.of_settled hsettle).marksKept ?_
    exact .of_same (by rw [hmove.frame]) (by rw [hmove.frame]) (by rw [hmove.frame])
  · obtain ⟨-, rfl⟩ := updateLeverage_ok hrun
    exact .of_same rfl rfl rfl

theorem MarketServer.updateMarketDetails_marksKept {msg : MsgUpdateMarketDetails} {v : Unit}
    (h : (MarketServer.updateMarketDetails authority msg).run s = .ok v t) : MarksKept s t := by
  simp only [MarketServer.updateMarketDetails, run_bind_lift_ok, run_bind_require_ok,
    run_bind_read_ok] at h
  obtain ⟨_, -, -, d, hd, h⟩ := h
  cases h
  refine .of_put (.inr ⟨d, ?_, ⟨rfl, rfl, rfl, rfl, rfl, le_rfl⟩⟩)
  have hget := getMarketDetails_eq_ok.mp hd
  rwa [← Table.key_of_get hget] at hget

theorem MarketServer.updateMarket_marksKept (msg : MsgUpdateMarket) :
    Keeps MarksKept (MarketServer.updateMarket authority msg) := by
  refine Keeps.read.bind fun _ => Keeps.require.bind fun _ => Keeps.read.bind fun market => ?_
  refine Keeps.require.bind fun _ => Keeps.read.bind fun _ => Keeps.require.bind fun _ => ?_
  refine Keeps.bind (fun s => ?_) fun _ => Keeps.when fun _ => ?_
  · obtain ⟨index, heq⟩ := updateMarket_after market (overlay msg market) s
    rw [heq]
    exact .of_same rfl rfl rfl
  · exact Keeps.bind (Keeps.attempt fun s => applyExitPosition_rule tradingRule_marksKept.quiet _ s)
      fun _ => Keeps.pure

/-- **A new market is fresh** if the message that creates it carries no time of a refresh, which is
neither checked nor reset. -/
theorem MarketServer.createMarket_marksKept {msg : MsgCreateMarket} {v : Unit}
    (h : (MarketServer.createMarket authority msg).run s = .ok v t)
    (hfirst : msg.marketDetails.lastMarkPriceRefreshTimestamp = 0) : MarksKept s t := by
  have hcreate : ∀ mk, Keeps MarksKept (PerpDex.createMarket mk) := by
    intro mk s
    unfold PerpDex.createMarket
    cases mk.isIndexed with
    | true => exact .of_same rfl rfl rfl
    | false => exact .of_same rfl rfl rfl
  have hkeeps : Keeps MarksKept (MarketServer.createMarket authority msg) := by
    refine Keeps.read.bind fun _ => Keeps.require.bind fun _ => Keeps.read.bind fun _ => ?_
    refine Keeps.require.bind fun _ => ?_
    refine ((MarketServer.checkIndexRange_same _).mono fun _ _ h => h ▸ refl_of MarksKept _).bind fun _ => ?_
    refine ((MarketServer.checkAssets_same _).mono fun _ _ h => h ▸ refl_of MarksKept _).bind fun _ => ?_
    refine (hcreate _).bind fun _ => Keeps.write fun s => .of_put (.inl ?_)
    exact ⟨rfl, rfl, rfl, hfirst⟩
  exact hkeeps.ok h

end Messages

/-! ### Blocks -/

/-- A block: the hook, then everything else, up to the time of the next block. -/
def BlockStep (s u : State) : Prop := ∃ o t, Readable o s ∧
  (fundingBeginBlocker .machine o).run s = .ok () t ∧ MarksKept t u ∧ IsBlockTime u.now

abbrev BlockRun : State → State → Prop := Relation.ReflTransGen BlockStep

/-- A chain on which no market has been sampled or refreshed, with parameters that are valid. -/
structure FreshChain (s : State) : Prop where
  now : IsBlockTime s.now
  round : IsBlockTime s.lastFundingRoundTimestamp
  valid : s.fundingParams.validate = .ok ()
  cap_le : s.fundingParams.maxPremiumSampleCount ≤ maxUint32
  fresh : ∀ m d, s.market.marketDetails.get m = some d → d.Fresh

theorem FundingParams.cap_pos {p : FundingParams} (h : p.validate = .ok ()) :
    0 < p.maxPremiumSampleCount := by
  unfold FundingParams.validate at h
  split_ifs at h
  omega

theorem FreshChain.calm (h : FreshChain s) : Calm s :=
  ⟨h.now, h.round, FundingParams.cap_pos h.valid, h.cap_le, fun m d hd => (h.fresh m d hd).tame _⟩

theorem FreshChain.marked (h : FreshChain s) : AllMarked s := fun m d hd hpos => by
  rw [(h.fresh m d hd).totalPremiumSamples] at hpos
  exact absurd hpos (lt_irrefl 0)

theorem BlockStep.calm (h : BlockStep s u) (hs : Calm s) (hmarked : AllMarked s) :
    Calm u ∧ AllMarked u := by
  obtain ⟨o, t, ho, hrun, hkept, hnow⟩ := h
  have heffect := (fundingBeginBlocker_exactly hs hmarked ho).post rfl hrun
  have hcalm := heffect.calm
  refine ⟨⟨hnow, ?_, ?_, ?_, fun m d' hd' => ?_⟩, fun m d' hd' => ?_⟩
  · rw [hkept.round]
    exact hcalm.round
  · rw [hkept.params]
    exact hcalm.cap_pos
  · rw [hkept.params]
    exact hcalm.cap_le
  · rcases hkept.details m d' hd' with hfresh | ⟨d, hd, hk⟩
    · exact hfresh.tame _
    · rw [hkept.params]
      exact hk.tame (hcalm.tame m d hd)
  · rcases hkept.details m d' hd' with hfresh | ⟨d, hd, hk⟩
    · intro hpos
      rw [hfresh.totalPremiumSamples] at hpos
      exact absurd hpos (lt_irrefl 0)
    · exact hk.marked (heffect.marked m d hd)

theorem BlockRun.calm (h : BlockRun s u) (hs : Calm s) (hmarked : AllMarked s) :
    Calm u ∧ AllMarked u := by
  induction h with
  | refl => exact ⟨hs, hmarked⟩
  | tail _ hstep ih => exact hstep.calm ih.1 ih.2

/-- **Mark prices cannot be moved beyond the oracle's prices.**  In every block of every run from a
chain with fresh markets, whatever the book holds: the hook does the same with words that refuse to
overflow; where a round may be closed, samples stand only next to a mark price; and each mark price
that it leaves is bounded or has not been written. -/
theorem mark_price_bounded (hs : FreshChain s) (hrun : BlockRun s u) {o : OracleStore}
    (ho : Readable o u) :
    (∀ e, (fundingBeginBlocker (.checked e) o).run u = (fundingBeginBlocker .machine o).run u) ∧
    (∀ t, (refreshMarkets .machine o u.fundingParams).run u = .ok () t →
      ∀ m d, t.market.marketDetails.get m = some d → 0 < d.totalPremiumSamples → 0 < d.markPrice) ∧
    ∀ t, (fundingBeginBlocker .machine o).run u = .ok () t →
      ∀ m d', t.market.marketDetails.get m = some d' →
        (∃ px, o.getPrice u.now m = .ok px ∧ MarkBound px d'.markPrice) ∨
          ∃ d, u.market.marketDetails.get m = some d ∧ d'.markPrice = d.markPrice ∧
            d'.lastMarkPriceRefreshTimestamp = d.lastMarkPriceRefreshTimestamp := by
  obtain ⟨hcalm, hmarked⟩ := hrun.calm hs.calm hs.marked
  have hhook := fundingBeginBlocker_exactly hcalm hmarked ho
  refine ⟨fun e => hhook.same rfl (Words.checked_exact e), fun t ht => ?_, fun t ht => ?_⟩
  · exact ((refreshMarkets_exactly hcalm hmarked ho).post rfl ht).marked
  · exact (hhook.post rfl ht).bounded

/-- A chain with one perp market that has just been created. -/
def newMarket : State where
  now := 1000000
  market := {
    markets := Table.ofRows [{ marketIndex := 0, marketType := .perps, status := .active }]
    marketDetails := Table.ofRows [{ marketIndex := 0, minInitialMarginFraction := 10000 }] }

def firstQuote : OracleStore where
  prices := Table.ofRows [{
    marketIndex := 0
    indexPrice := 1000
    markPrice := 1010
    lastUpdatedTimestamp := 999000
    lastUpdatedHeight := 1
    participantCount := 4
    totalVotingPower := 40 }]

/-- The first block of a market with an empty book: the mark price is the mean of the oracle's index
and mark price. -/
theorem mark_price_bounded_first_block :
    (∀ e, (fundingBeginBlocker (.checked e) firstQuote).run newMarket
      = (fundingBeginBlocker .machine firstQuote).run newMarket) ∧
    ((after (fundingBeginBlocker .machine firstQuote) newMarket).market.marketDetails.get 0).map
      MarketDetails.markPrice = some 1005 := by
  have hfresh : FreshChain newMarket := by
    refine ⟨by decide, by decide, rfl, by decide, fun m d hd => ?_⟩
    have hall : ∀ d ∈ newMarket.market.marketDetails.toList, d.Fresh := by decide +kernel
    exact hall d (Table.mem_toList hd)
  have hread : Readable firstQuote newMarket := .of_rows (by decide +kernel)
  exact ⟨(mark_price_bounded hfresh .refl hread).1, by decide +kernel⟩

/-! ### Messages between the hooks -/

/-- A message, or a hook other than that of funding.  A market is created without a time of a
refresh. -/
inductive MessageStep [AddressCodec] (authority : String) (s : State) : State → Prop
  | trading {t : State} (h : TradingStep s t) : MessageStep authority s t
  | account {t : State} (h : AccountStep authority s t) : MessageStep authority s t
  | createMarket {t : State} (msg : MsgCreateMarket)
      (hfirst : msg.marketDetails.lastMarkPriceRefreshTimestamp = 0)
      (h : (MarketServer.createMarket authority msg).run s = .ok () t) : MessageStep authority s t
  | updateMarket {t : State} (msg : MsgUpdateMarket)
      (h : (MarketServer.updateMarket authority msg).run s = .ok () t) : MessageStep authority s t
  | updateMarketDetails {t : State} (msg : MsgUpdateMarketDetails)
      (h : (MarketServer.updateMarketDetails authority msg).run s = .ok () t) :
      MessageStep authority s t

/-- **Only the funding hook writes mark prices.**  Over every run of messages to the exchange, to the
accounts and to the markets, with their hooks, every market has the mark price, premium, impact price
and times of a refresh and a sample that it had, and no more samples, or is fresh. -/
theorem messages_keep_marks [AddressCodec] {authority : String}
    (h : Relation.ReflTransGen (MessageStep authority) s t) : MarksKept s t := by
  induction h with
  | refl => exact refl_of MarksKept s
  | tail _ hstep ih =>
    refine trans_of MarksKept ih ?_
    cases hstep with
    | trading h => exact h.marksKept
    | account h => exact h.marksKept
    | createMarket msg hfirst h => exact MarketServer.createMarket_marksKept h hfirst
    | updateMarket msg h => exact (MarketServer.updateMarket_marksKept msg).ok h
    | updateMarketDetails msg h => exact MarketServer.updateMarketDetails_marksKept h

/-- Governance lowers the margins of a market whose mark price is 1005, and it still is. -/
theorem messages_keep_marks_new_margins :
    let _ := AddressCodec.acceptAll
    let s := after (fundingBeginBlocker .machine firstQuote) newMarket
    let msg : MsgUpdateMarketDetails := ⟨"gov", 0, 1000, 500, 400, 200, 1, 2, 0, 100⟩
    let t := after (MarketServer.updateMarketDetails "gov" msg) s
    MarksKept s t ∧ (t.market.marketDetails.get 0).map MarketDetails.markPrice = some 1005 := by
  intro _ s msg t
  have h : (MarketServer.updateMarketDetails "gov" msg).run s = .ok () t :=
    run_of_succeeds (by decide +kernel)
  exact ⟨messages_keep_marks (.single (.updateMarketDetails msg h)), by decide +kernel⟩

end PerpDex
