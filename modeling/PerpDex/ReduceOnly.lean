/-
Reduce-only orders only reduce.

Main result: `reduceOnly_fill_reduces`.

The guarantee comes from the look at the live position in the pass that makes the fill.  The loop ignores
the flag in spot markets; that no order with the flag gets there is an invariant of the exchange.
-/
import PerpDex.Desk
import PerpDex.LiquidationFee
import PerpDex.OpenInterest

namespace PerpDex

open Txn

variable {s t u v : State}

/-! ### Reduced positions -/

theorem reduced_of_reducedBy {pos : AccountPosition} {isAsk : Bool} {base : ℕ} {delta : ℤ}
    (hside : reducedBy pos isAsk = true) (hbase : base ≠ 0) (hle : (base : ℤ) ≤ |pos.baseSize|)
    (hdelta : delta = if isAsk then -(base : ℤ) else base) :
    Reduced pos.baseSize (pos.baseSize + delta) := by
  simp only [reducedBy, Bool.and_eq_true, decide_eq_true_eq] at hside
  obtain ⟨hne, hside⟩ := hside
  have hpos : (0 : ℤ) < base := by exact_mod_cast Nat.pos_of_ne_zero hbase
  cases isAsk with
  | true =>
    -- a sale reduces a long
    have hlong : 0 < pos.baseSize := by
      simp [AccountPosition.openingIsBid, AccountPosition.isLong] at hside
      omega
    rw [abs_of_pos hlong] at hle
    simp only [if_true] at hdelta
    exact reduced_of_nonneg (by omega) (by omega)
  | false =>
    -- a purchase reduces a short
    have hshort : pos.baseSize < 0 := by
      simpa [AccountPosition.openingIsAsk, AccountPosition.isShort] using hside
    rw [abs_of_neg hshort] at hle
    simp only [Bool.false_eq_true, if_false] at hdelta
    exact reduced_of_nonpos (by omega) (by omega)

/-! ### Reduce-only orders are orders of perp markets -/

section Flags

variable [AddressCodec]

omit [AddressCodec] in
theorem TradeOf.positions {k : Task} {o : Order} {maker : OrderBookEntry} {base : ℕ}
    {isPerp : Bool} {trade : Tx Unit} (h : TradeOf s k o maker base isPerp trade)
    (htrade : trade.run s = .ok () t) (m : ℕ) :
    Sidelined m s t ∨ (IsPerp s m ∧ t.market.markets = s.market.markets) := by
  have hperp : ∀ (f : Fill) (market : Market), f.marketIndex = o.marketIndex →
      getMarket o.marketIndex s = .ok market → market.marketType = .perps →
      (apply f).run s = .ok () t →
      Sidelined m s t ∨ (IsPerp s m ∧ t.market.markets = s.market.markets) := by
    intro f market hf hmarket hperps hrun
    by_cases hm : o.marketIndex = m
    · refine Or.inr ⟨⟨market, ?_, hperps⟩, by rw [((apply_keeps f).ok hrun).frame]⟩
      exact hm ▸ getMarket_eq_ok.mp hmarket
    · exact Or.inl ((apply_sidelined (by rw [hf]; exact hm)).ok hrun)
  cases h with
  | @user market hk hmarket =>
    unfold userTrade at htrade
    split_ifs at htrade with hperps
    · exact hperp _ market rfl hmarket hperps htrade
    · exact Or.inl (((applySpotMatching_frame _ _ _).ok htrade).sidelined m)
  | @liquidation market zeroPrice feeBps recipient hk hmarket hperps =>
    exact hperp _ market rfl hmarket hperps htrade

/-- What a move does to the positions of a market: nothing, or it trades in a perp market, or is a hook
or from outside. -/
theorem Move.positions {d d' : Desk} (h : Move d d') (m : ℕ) :
    Sidelined m d.state d'.state ∨
      (IsPerp d.state m ∧ d'.state.market.markets = d.state.market.markets) ∨
      ForcedHook d.state d'.state ∨ Outside d.state d'.state := by
  cases h with
  | @cancel s i => exact Or.inl ((cancelOrder_frame i s).sidelined m)
  | accept h htype => exact Or.inl ((prepareOrder_sidelined m _).ok h)
  | park h htype hpark =>
    exact Or.inl (trans_of (Sidelined m) ((prepareOrder_sidelined m _).ok h)
      (((openTriggerOrder_frame _).ok hpark).sidelined m))
  | activate ho hst hrem h => exact Or.inl (((activateTrigger_frame _).ok h).sidelined m)
  | seize victim m' isAsk zeroPrice base => exact Or.inl (refl_of (Sidelined m) _)
  | @evict s k o best hbest => exact Or.inl ((evictMakerOrder_frame _ _ s).sidelined m)
  | @fill s v k o maker base h =>
    obtain ⟨-, -, hkind, htrade, hfill⟩ := h
    have hmaker := ((fillMakerOrder_bookOnly _ _).ok hfill).orderFrame.sidelined m
    rcases hkind.positions htrade m with hside | ⟨hperp, hmarkets⟩
    · exact Or.inl (trans_of (Sidelined m) hside hmaker)
    · exact Or.inr (Or.inl ⟨hperp, hmaker.markets.trans hmarkets⟩)
  | store hk hst h => exact Or.inl (((openOrder_frame _).ok h).sidelined m)
  | @abandon s u o h =>
    have hleft : Sidelined m s u := by
      rcases h with rfl | ⟨st, e, -, hopen⟩
      · exact refl_of (Sidelined m) _
      · exact ((openOrder_frame _).error hopen).sidelined m
    exact Or.inl (trans_of (Sidelined m) hleft ((cancelOrder_frame _ u).sidelined m))
  | release => exact Or.inl (refl_of (Sidelined m) _)
  | forced h => exact Or.inr (Or.inr (Or.inl h))
  | outside h => exact Or.inr (Or.inr (Or.inr h))

theorem Move.isPerp {d d' : Desk} (h : Move d d') {m : ℕ} (hm : IsPerp d.state m) :
    IsPerp d'.state m := by
  have hsame : d'.state.market.markets = d.state.market.markets → IsPerp d'.state m := by
    intro hmarkets
    rw [IsPerp, hmarkets]
    exact hm
  obtain ⟨mk, hget, htype⟩ := hm
  rcases h.positions m with hside | ⟨-, hmarkets⟩ | hhook | hout
  · exact hsame hside.markets
  · exact hsame hmarkets
  · have hmap := hhook.forced.markets m
    rw [hget] at hmap
    obtain ⟨mk', hget', heq⟩ := Option.map_eq_some_iff.mp hmap
    refine ⟨mk', hget', ?_⟩
    have htypes := congrArg Market.marketType heq
    exact htypes.trans htype
  · obtain ⟨mk', hget', htype', -⟩ := hout.markets m mk hget
    exact ⟨mk', hget', htype'.trans htype⟩

theorem Move.flat {d d' : Desk} (h : Move d d') {m : ℕ} (hm : ¬ IsPerp d.state m)
    (hflat : Flat m d.state) : Flat m d'.state := by
  rcases h.positions m with hside | ⟨hperp, -⟩ | hhook | hout
  · exact hside.toElsewhere.staysFlat hflat
  · exact absurd hperp hm
  · exact hhook.flat hflat
  · exact (hout.positions m).staysFlat hflat

/-- Only markets that trade perpetuals have positions, and only their orders are reduce-only. -/
structure Desk.FlagsPerps (d : Desk) : Prop where
  flat : ∀ m, ¬ IsPerp d.state m → Flat m d.state
  stored : ∀ i o, (coreOf d.state).orders.get i = some o → o.reduceOnly = true →
    IsPerp d.state o.marketIndex
  hand : ∀ k o, d.hand = some (k, o) → k ≠ .liquidating → o.reduceOnly = true →
    IsPerp d.state o.marketIndex

/-- A reduce-only order that is accepted has a position to reduce, so its market has positions. -/
theorem Desk.FlagsPerps.accepted {msg : MsgCreateOrder} {prepared : Market × Order}
    {hand : Option (Task × Order)} (hd : Desk.FlagsPerps ⟨s, hand⟩)
    (h : (prepareOrder msg).run s = .ok prepared t) (hreduce : prepared.2.reduceOnly = true) :
    IsPerp s prepared.2.marketIndex := by
  obtain ⟨hadm, next, -, -, horder, -⟩ := prepareOrder_ok h
  rw [horder] at hreduce ⊢
  have hreduces := hadm.reduces hreduce
  by_contra hspot
  have hzero := (hd.flat msg.marketIndex hspot).sizes msg.accountIndex
  simp [reducedBy, hzero] at hreduces

theorem Move.flagsPerps {d d' : Desk} (h : Move d d') (hsound : d.Sound) (hd : d.FlagsPerps) :
    d'.FlagsPerps := by
  have hstored : ∀ i o, (coreOf d'.state).orders.get i = some o → o.reduceOnly = true →
      IsPerp d'.state o.marketIndex := by
    intro i o ho hreduce
    refine h.isPerp ?_
    cases h.row hsound ho with
    | @kept o₁ r st ho₁ heq =>
      rw [heq] at hreduce ⊢
      exact hd.stored i o₁ ho₁ hreduce
    | @inHand k o₁ st hhand hk heq =>
      rw [heq] at hreduce ⊢
      exact hd.hand k o₁ hhand hk hreduce
    | @parked msg prepared t hprepare htype heq =>
      rw [heq] at hreduce ⊢
      exact hd.accepted hprepare hreduce
  refine ⟨fun m hm => h.flat (fun hperp => hm (h.isPerp hperp)) (hd.flat m fun hperp =>
    hm (h.isPerp hperp)), hstored, ?_⟩
  intro k o hhand hk hreduce
  refine h.isPerp ?_
  cases h.handOf hhand hk with
  | @kept k₁ o₁ r hhand₁ hk₁ hr heq =>
    rw [heq] at hreduce ⊢
    exact hd.hand k₁ o₁ hhand₁ hk₁ hreduce
  | accepted hprepare heq =>
    rw [heq] at hreduce ⊢
    exact hd.accepted hprepare hreduce
  | @activated i o₁ ho₁ heq =>
    obtain ⟨ty, tif, p, -, htwin⟩ := executableTwin_eq { o₁ with status := .opened }
    rw [heq, htwin] at hreduce ⊢
    exact hd.stored i o₁ ho₁ hreduce

end Flags

/-- A fill that the matching loop commits in a perp market. -/
inductive PerpCommits (taker : Order) (s : State) (x : SweepState) (maker : OrderBookEntry)
    (base : ℕ) (u v : State) : Prop
  | order {market : Market} (maxFills : ℕ) (hmarket : getMarket taker.marketIndex s = .ok market)
      (hperps : market.marketType = .perps)
      (h : MatchOrderCommits taker maxFills s x maker base u v)
  | liquidation (maxFills zeroPrice feeBps recipient : ℕ)
      (h : MatchLiquidationCommits taker maxFills zeroPrice feeBps recipient s x maker base u v)

theorem PerpCommits.engine {taker : Order} {x : SweepState} {maker : OrderBookEntry} {base : ℕ}
    (h : PerpCommits taker s x maker base u v) :
    Attempts true x u maker base ∧ taker.ShrunkTo x.taker ∧
      ∃ f w o, f.makerAccountIndex = maker.ownerAccountIndex ∧
        f.takerAccountIndex = x.taker.ownerAccountIndex ∧ f.marketIndex = x.taker.marketIndex ∧
        f.baseAmount = base ∧ f.isTakerAsk = x.taker.isAsk ∧ (apply f).run u = .ok () w ∧
        (fillMakerOrder maker.orderIndex base).run w = .ok o v := by
  cases h with
  | order maxFills hmarket hperps h =>
    obtain ⟨market', hmarket', hreached, hattempts, hcommitted⟩ := h
    cases hmarket.symm.trans hmarket'
    rw [applyUserFill, if_pos hperps] at hcommitted
    rw [decide_eq_true hperps] at hattempts
    obtain ⟨w, o, htrade, hfill⟩ := applyFill_committed hcommitted
    exact ⟨hattempts, shrunkTo_of_passes hreached, _, w, o, rfl, rfl, rfl, rfl, rfl, htrade, hfill⟩
  | liquidation maxFills zeroPrice feeBps recipient h =>
    obtain ⟨-, hreached, hattempts, hcommitted⟩ := h
    obtain ⟨w, o, htrade, hfill⟩ := applyFill_committed hcommitted
    exact ⟨hattempts, shrunkTo_of_passes hreached, _, w, o, rfl, rfl, rfl, rfl, rfl, htrade, hfill⟩

/-- The owner of a reduce-only side of a fill ends with less, and the flag of an entry is that of
its order. -/
theorem PerpCommits.reduces {taker : Order} {x : SweepState} {maker : OrderBookEntry}
    {base : ℕ} (h : PerpCommits taker s x maker base u v) :
    (taker.reduceOnly = true →
      Reduced (getPosition u taker.ownerAccountIndex taker.marketIndex).baseSize
        (getPosition v taker.ownerAccountIndex taker.marketIndex).baseSize) ∧
    (maker.reduceOnly = true →
      Reduced (getPosition u maker.ownerAccountIndex taker.marketIndex).baseSize
        (getPosition v maker.ownerAccountIndex taker.marketIndex).baseSize) ∧
    ((coreOf u).Inv → ∀ o, (coreOf u).orders.get maker.orderIndex = some o →
      o.reduceOnly = maker.reduceOnly) := by
  obtain ⟨hattempts, ⟨r, -, hx⟩, f, w, o, hmaker, htaker, hmarket, hbase, hside, htrade, hfill⟩ :=
    h.engine
  have hfound := nextMaker_found hattempts.search
  obtain ⟨hne0, -, -, htakerCap, hmakerCap⟩ := matchSize_some hattempts.size
  rw [hx] at hfound htakerCap hmakerCap htaker hmarket hside
  have hne : f.makerAccountIndex ≠ f.takerAccountIndex := by
    rw [hmaker, htaker]
    exact hfound.other
  have hbook : BookOnly w v := (fillMakerOrder_bookOnly _ _).ok hfill
  have hsame : ∀ a m, getPosition v a m = getPosition w a m := by
    intro a m
    rw [hbook]
    rfl
  obtain ⟨hmakerSize, htakerSize⟩ := apply_baseSize hne htrade
  rw [hmaker, hmarket, hbase] at hmakerSize
  rw [htaker, hmarket, hbase] at htakerSize
  have hsign : f.makerSign = if taker.isAsk then 1 else -1 := by
    rw [Fill.makerSign, hside]
  refine ⟨fun hreduce => ?_, fun hreduce => ?_, fun hc o ho => ?_⟩
  · rw [hsame, htakerSize, sub_eq_add_neg]
    refine reduced_of_reducedBy (hfound.takerReduces rfl hreduce) hne0 (htakerCap rfl hreduce) ?_
    rw [hsign]
    split_ifs <;> omega
  · rw [hsame, hmakerSize]
    refine reduced_of_reducedBy (hfound.makerReduces rfl hreduce) hne0 (hmakerCap rfl hreduce) ?_
    rw [hsign]
    cases taker.isAsk <;> simp
  · obtain ⟨sk, he, -⟩ := peekBest_spec hfound.best
    rw [← (hc.entry_of_order he ho).entry]
    rfl

/-- **Reduce-only safety.**  Whatever the state, a fill that the matching loop commits in a perp market
leaves the owner of a reduce-only taker or maker with a smaller position on the same side or with none.
And in every state that the exchange reaches, between any two of its operations, the orders with the
flag are orders of perp markets. -/
theorem reduceOnly_fill_reduces [AddressCodec] :
    (∀ taker s x maker base u v, PerpCommits taker s x maker base u v →
      (taker.reduceOnly = true →
        Reduced (getPosition u taker.ownerAccountIndex taker.marketIndex).baseSize
          (getPosition v taker.ownerAccountIndex taker.marketIndex).baseSize) ∧
      (maker.reduceOnly = true →
        Reduced (getPosition u maker.ownerAccountIndex taker.marketIndex).baseSize
          (getPosition v maker.ownerAccountIndex taker.marketIndex).baseSize) ∧
      ((coreOf u).Inv → ∀ o, (coreOf u).orders.get maker.orderIndex = some o →
        o.reduceOnly = maker.reduceOnly)) ∧
    (∀ s₀ d, FreshBook s₀ → (∀ m, Flat m s₀) → DeskRun ⟨s₀, none⟩ d →
      (∀ i o, (coreOf d.state).orders.get i = some o → o.reduceOnly = true →
        IsPerp d.state o.marketIndex) ∧
      (∀ k o, d.hand = some (k, o) → k ≠ .liquidating → o.reduceOnly = true →
        IsPerp d.state o.marketIndex)) := by
  refine ⟨fun _ _ _ _ _ _ _ h => h.reduces, fun s₀ d hfresh hflat hrun => ?_⟩
  have hstart : Desk.FlagsPerps ⟨s₀, none⟩ := by
    refine ⟨fun m _ => hflat m, fun i o ho => ?_, fun k o hhand => by simp at hhand⟩
    simp [coreOf, hfresh.book] at ho
  have hend := hrun.invariant (fun _ _ hsound hd hmove => hmove.flagsPerps hsound hd)
    (.idle hfresh.inv) hstart
  exact ⟨hend.2.stored, hend.2.hand⟩

/-- A liquidation order, which is reduce-only, closes half of a long. -/
theorem reduceOnly_fill_reduces_liquidated_long :
    let _ := AddressCodec.acceptAll
    let u := after (nextMaker aliceLiquidated true (entryCount bidRests + 1)) bidRests
    let v := after (applyLiquidationFill 97 10000 1 aliceLiquidated bobEntry 50) u
    (getPosition u 2 0).baseSize = 100 ∧ (getPosition v 2 0).baseSize = 50 ∧
      Reduced (getPosition u 2 0).baseSize (getPosition v 2 0).baseSize := by
  intro _ u v
  refine ⟨by decide +kernel, by decide +kernel, ?_⟩
  exact (reduceOnly_fill_reduces.1 _ _ _ _ _ _ _
    (.liquidation 100 97 10000 1 aliceLiquidated_commits)).1 rfl

end PerpDex
