/-
What an order gets from the book.

* `WellExecuted` — a fill at the price of the best live maker, which is another account's and within the
  limit of the taker.

Main result: `match_order_executes`.
-/
import PerpDex.LoopProgress
import PerpDex.Priority

namespace PerpDex

open Txn

variable {s t u v : State} {held : Option ℕ} {m : ℕ} {isAsk : Bool}
variable {market : Market} {taker : Order} {maker : OrderBookEntry}

/-! ### The best price -/

theorem BookRep.key_of_side {sk : SortKey} {e : OrderBookEntry} (h : BookRep s held)
    (he : (coreOf s).entries.get (toLex (m, sk)) = some e)
    (hside : onSide m isAsk (toLex (m, sk)) = true) :
    ∃ n, sk = sortableKey e.price n isAsk ∧ e.price ≤ maxUint32 := by
  obtain ⟨o, ho, -, hkey, rfl⟩ := h.shown_of_get he
  obtain rfl : o.sortKey = sk := congrArg (fun k => (ofLex k).2) hkey
  rw [Order.sortKey, onSide_sortableKey] at hside
  refine ⟨o.nonce, ?_, (h.typed o ho).price⟩
  rw [Order.sortKey, hside.2]
  rfl

theorem BookRep.best_price {best e : OrderBookEntry} (h : BookRep s held)
    (hbest : peekBest m isAsk s = some best) (he : OnBook s m isAsk e) :
    noWorse isAsk best.price e.price := by
  obtain ⟨sk, hget, hside, hmin⟩ := peekBest_spec hbest
  obtain ⟨sk', hget', hside'⟩ := he
  have hle := hmin sk' e hget' hside'
  obtain ⟨n, rfl, -⟩ := h.key_of_side hget hside
  obtain ⟨n', rfl, hprice⟩ := h.key_of_side hget' hside'
  cases isAsk with
  | true => exact price_le_of_askKey_le hle
  | false => exact price_le_of_bidKey_le hprice hle

/-! ### The fills of a loop -/

/-- The trade of a fill, at the price of the maker. -/
def TradesAt (market : Market) (taker : Order) (maker : OrderBookEntry) (base : ℕ) (s t : State) :
    Prop :=
  (market.marketType = .perps ∧ ∃ f : Fill, f.price = maker.price ∧ f.baseAmount = base ∧
    f.makerAccountIndex = maker.ownerAccountIndex ∧ f.takerAccountIndex = taker.ownerAccountIndex ∧
    f.marketIndex = taker.marketIndex ∧ f.isTakerAsk = taker.isAsk ∧
    (applyPerpsMatching f).run s = .ok () t) ∨
  (market.marketType ≠ .perps ∧ ∃ f : SpotFill, f.price = maker.price ∧ f.baseAmount = base ∧
    f.makerAccountIndex = maker.ownerAccountIndex ∧ f.takerAccountIndex = taker.ownerAccountIndex ∧
    f.marketIndex = taker.marketIndex ∧ f.isTakerAsk = taker.isAsk ∧
    (applySpotMatching f market.baseAssetId market.quoteAssetId).run s = .ok () t)

theorem tradesAt_of_userTrade {base : ℕ}
    (h : (userTrade market taker maker base).run s = .ok () t) :
    TradesAt market taker maker base s t := by
  unfold userTrade at h
  split_ifs at h with hperp
  · exact Or.inl ⟨hperp, _, rfl, rfl, rfl, rfl, rfl, rfl, h⟩
  · exact Or.inr ⟨hperp, _, rfl, rfl, rfl, rfl, rfl, rfl, h⟩

/-- A fill of the order `taker` as it should be. -/
structure WellExecuted (market : Market) (taker : Order) (f : LoopFill) : Prop where
  /-- Something is traded, at the price of the maker, and taken off the maker's order. -/
  positive : 0 < f.base
  traded : ∃ w o, TradesAt market taker f.maker f.base f.before w ∧
    (fillMakerOrder f.maker.orderIndex f.base).run w = .ok o f.after
  /-- The price is at least as good as the limit, unless there is none. -/
  limit : taker.orderType ≠ .marketOrder → noWorse (!taker.isAsk) f.maker.price taker.price
  best : peekBest taker.marketIndex (!taker.isAsk) f.before = some f.maker
  price : ∀ e, OnBook f.before taker.marketIndex (!taker.isAsk) e →
    noWorse (!taker.isAsk) f.maker.price e.price
  /-- It is live: its order is open and has not expired. -/
  live : f.maker.expiry ≤ 0 ∨ f.before.now < f.maker.expiry
  resting : ∃ o, f.before.book.orders.get f.maker.orderIndex = some o ∧
    o.status.isResting = true ∧ o.toEntry = f.maker
  /-- It belongs to another account. -/
  other : f.maker.ownerAccountIndex ≠ taker.ownerAccountIndex

theorem noWorse_of_priceAllows
    (h : priceAllows taker maker = true) (htype : taker.orderType ≠ .marketOrder) :
    noWorse (!taker.isAsk) maker.price taker.price := by
  simp only [priceAllows, Bool.or_eq_true, decide_eq_true_eq, htype, false_or, reaches] at h
  cases hask : taker.isAsk with
  | true =>
    rw [hask, if_pos rfl] at h
    simpa [noWorse] using h
  | false =>
    rw [hask] at h
    simpa [noWorse] using h

theorem Attempts.wellExecuted {isPerp : Bool} {x : SweepState} {base : ℕ}
    (ha : Attempts isPerp x u maker base)
    (hrun : (applyUserFill market x.taker maker base).run u = .ok .committed v)
    (h : BookRep x.state held) :
    WellExecuted market x.taker ⟨x.taker, maker, base, u, v⟩ := by
  obtain ⟨hrep, -, -, hbest, -⟩ := ha.rep h
  have hfound := nextMaker_found ha.search
  obtain ⟨-, o, -, -, -, ho, hshown, -, -, hentry⟩ := hrep.order_of_best hbest
  rw [applyUserFill_eq] at hrun
  obtain ⟨w, o', htrade, hfill⟩ := applyFill_committed hrun
  exact {
    positive := Nat.pos_of_ne_zero (matchSize_some ha.size).1
    traded := ⟨w, o', tradesAt_of_userTrade htrade, hfill⟩
    limit := noWorse_of_priceAllows hfound.price
    best := hbest
    price := fun e he => hrep.best_price hbest he
    live := nextMaker_live ha.search
    resting := ⟨o, ho, (Order.shown_eq_true.mp hshown).1, hentry⟩
    other := hfound.other }

theorem WellExecuted.of_remaining {f : LoopFill} {b : ℕ}
    (h : WellExecuted market { taker with remainingBaseAmount := b } f) :
    WellExecuted market taker f :=
  ⟨h.positive, h.traded, h.limit, h.best, h.price, h.live, h.resting, h.other⟩

/-- What the fills trade with the order `i` as their maker. -/
def filledOf (i : ℕ) (fills : List LoopFill) : ℕ :=
  filledBy (fills.filter fun f => f.maker.orderIndex = i)

theorem filledBy_cons (f : LoopFill) (fills : List LoopFill) :
    filledBy (f :: fills) = f.base + filledBy fills := by
  rw [filledBy, filledBy, List.map_cons, List.sum_cons]

theorem filledOf_cons (i : ℕ) (f : LoopFill) (fills : List LoopFill) :
    filledOf i (f :: fills) = (if i = f.maker.orderIndex then f.base else 0) + filledOf i fills := by
  rw [filledOf, filledOf, List.filter_cons]
  by_cases hi : f.maker.orderIndex = i
  · rw [if_pos (decide_eq_true hi), if_pos hi.symm, filledBy_cons]
  · rw [if_neg (by simpa using hi), if_neg (Ne.symm hi), Nat.zero_add]

/-- The fills lead from one place of the loop to another: they are what the taker and the makers
lose. -/
structure Accounts (market : Market) (x : SweepState) (fills : List LoopFill) (y : SweepState) :
    Prop where
  enough : filledBy fills ≤ x.taker.remainingBaseAmount
  taker : y.taker =
    { x.taker with remainingBaseAmount := x.taker.remainingBaseAmount - filledBy fills }
  count : fills.length + y.fillsLeft = x.fillsLeft
  makers : ∀ i, residueOf x.state i = residueOf y.state i + filledOf i fills
  fills : ∀ f ∈ fills, WellExecuted market x.taker f

theorem Accounts.nil (market : Market) (x : SweepState) : Accounts market x [] x where
  enough := Nat.zero_le _
  taker := rfl
  count := Nat.zero_add _
  makers _ := rfl
  fills f hf := by simp at hf

/-- **What the fills of a loop trade is what both sides lose.** -/
theorem Trace.accounts {isPerp : Bool} {x y : SweepState} {fills : List LoopFill}
    (h : Trace isPerp (applyUserFill market) (pure true) x fills y) (hrep : BookRep x.state held) :
    BookRep y.state held ∧ Accounts market x fills y := by
  induction h with
  | @nil x => exact ⟨hrep, .nil market x⟩
  | @evicted x y u v maker base fills ha hrun _ ih =>
    obtain ⟨hrep₁, -, hres, hbest, -⟩ := ha.rep hrep
    rw [applyUserFill_eq] at hrun
    obtain ⟨hrep₂, -, hres'⟩ := hrep₁.evicted hbest hrun
    obtain ⟨hrep', hacc⟩ := ih hrep₂
    refine ⟨hrep', hacc.enough, hacc.taker, hacc.count, fun i => ?_, hacc.fills⟩
    rw [← hres, ← hres']
    exact hacc.makers i
  | @committed x y u v w maker base fills ha hrun hgo _ ih =>
    obtain ⟨hrep₁, -, hres, hbest, hbase⟩ := ha.rep hrep
    have hwell := ha.wellExecuted hrun hrep
    obtain ⟨-, htaker, -⟩ := matchSize_some ha.size
    rw [applyUserFill_eq] at hrun
    obtain ⟨hrep₂, -, hres'⟩ :=
      hrep₁.committed hbest hbase ((userLoop market).leavesBook _ _ _) hrun
    obtain ⟨-, rfl⟩ := run_pure_ok.mp hgo
    obtain ⟨hrep', hacc⟩ := ih hrep₂
    have henough : filledBy fills ≤ x.taker.remainingBaseAmount - base := hacc.enough
    refine ⟨hrep', ?_, ?_, ?_, fun i => ?_, ?_⟩
    · rw [filledBy_cons]
      dsimp only
      omega
    · rw [hacc.taker, filledBy_cons, Nat.sub_sub]
    · have hcount : fills.length + y.fillsLeft = x.fillsLeft - 1 := hacc.count
      have hleft := ha.fillsLeft
      rw [List.length_cons]
      omega
    · have hmakers : residueOf w i = residueOf y.state i + filledOf i fills := hacc.makers i
      rw [← hres, hres', hmakers, filledOf_cons]
      dsimp only
      omega
    · intro f hf
      rcases List.mem_cons.mp hf with rfl | hf
      · exact hwell
      · exact (hacc.fills f hf).of_remaining

/-- **Execution of an order.**  When matching an order on a consistent book succeeds, what it says it
filled is the sum of the fills it committed, and that is what the order has lost; every fill is well
executed; there are at most as many as allowed; and every order on the book has lost exactly what was
filled of it. -/
theorem match_order_executes {taker : Order} {maxFills : ℕ} {r : SweepResult} (hrep : BookRep s held)
    (hrun : (matchOrder taker maxFills).run s = .ok r t) :
    ∃ market fills y, getMarket taker.marketIndex s = .ok market ∧
      Trace (decide (market.marketType = .perps)) (applyUserFill market) (pure true)
        ⟨taker, maxFills, s⟩ fills y ∧
      Returns (decide (market.marketType = .perps)) (applyUserFill market) (pure true) y
        (filledBy fills) (.ok r t) ∧
      r.totalFilled = filledBy fills ∧
      r.taker.remainingBaseAmount + r.totalFilled = taker.remainingBaseAmount ∧
      r.taker = { taker with remainingBaseAmount := r.taker.remainingBaseAmount } ∧
      fills.length ≤ maxFills ∧ (∀ f ∈ fills, WellExecuted market taker f) ∧
      ∀ i, residueOf s i = residueOf t i + filledOf i fills := by
  obtain ⟨market, hmarket, -⟩ := run_bind_read_ok.mp hrun
  have hends : LoopEnds (decide (market.marketType = .perps)) (applyUserFill market) (pure true)
      ⟨taker, maxFills, s⟩ 0 (.ok r t) := by
    rw [← hrun, matchOrder_run hmarket]
    exact runSweep_ends (userLoop market) hrep taker maxFills
  obtain ⟨fills, y, htrace, hret⟩ := hends
  obtain ⟨hrep', hacc⟩ := htrace.accounts hrep
  rw [Nat.zero_add] at hret
  -- whatever ends the loop, its taker and its total are those of the last pass
  have hlast : r.taker = y.taker ∧ r.totalFilled = filledBy fills ∧
      ∀ i, residueOf t i = residueOf y.state i := by
    cases hret with
    | drained h => exact ⟨rfl, rfl, fun _ => rfl⟩
    | fillCap hrem h => exact ⟨rfl, rfl, fun _ => rfl⟩
    | noMaker hrem hleft h hsearch => exact ⟨rfl, rfl, (hrep'.search h).2.2⟩
    | noSize hrem hleft h hsize => exact ⟨rfl, rfl, (hrep'.search h).2.2⟩
    | rejected ha h =>
      rw [applyUserFill_eq] at h
      obtain rfl := applyFill_rejected h
      exact ⟨rfl, rfl, (ha.rep hrep').2.2.1⟩
    | recovered ha h hgo => exact absurd (run_pure_ok.mp hgo).1 (by simp)
  obtain ⟨htaker, htotal, hres⟩ := hlast
  have henough : filledBy fills ≤ taker.remainingBaseAmount := hacc.enough
  refine ⟨market, fills, y, hmarket, htrace, hret, htotal, ?_, ?_, ?_, hacc.fills, fun i => ?_⟩
  · rw [htaker, hacc.taker, htotal]
    dsimp only
    omega
  · rw [htaker, hacc.taker]
  · have hcount : fills.length + y.fillsLeft = maxFills := hacc.count
    omega
  · rw [hres]
    exact hacc.makers i

/-- A spot market for asset 1 against asset 2.  Account 2 has 10 to sell, account 3 has 1000 to
spend. -/
def spotMarket : State where
  market := {
    markets := Table.ofRows
      [{ marketIndex := 0, marketType := .spot, baseAssetId := 1, quoteAssetId := 2 }] }
  account := {
    accountAssets := Table.ofRows [{ accountIndex := 2, assetIndex := 1, balance := 10 },
      { accountIndex := 3, assetIndex := 2, balance := 1000 }] }

def spotBid : Order where
  orderIndex := 2
  ownerAccountIndex := 3
  marketIndex := 0
  isAsk := false
  price := 105
  nonce := 2
  initialBaseAmount := 4
  remainingBaseAmount := 4

/-- The bid is filled by the ask at 100, of which 6 are left. -/
theorem match_order_executes_spot_bid :
    let s := after (openOrder restingAsk) spotMarket
    let t := after (matchOrder spotBid 8) s
    value (matchOrder spotBid 8) s = some ⟨{ spotBid with remainingBaseAmount := 0 }, 4, .drained⟩ ∧
      residueOf t 1 = 6 ∧ (getAccountAsset t 3 2).balance = 600 ∧
      ∃ market fills, filledBy fills = 4 ∧ (∀ f ∈ fills, WellExecuted market spotBid f) ∧
        residueOf s 1 = residueOf t 1 + filledOf 1 fills := by
  intro s t
  have hopen : (openOrder restingAsk).run spotMarket = .ok () s := run_of_succeeds (by decide +kernel)
  have hstorable : restingAsk.Storable spotMarket :=
    ⟨⟨by decide, by decide, by decide⟩, fun _ => by decide, fun o ho => by cases ho⟩
  have hrep : BookRep s none := (BookOp.opened rfl hstorable hopen).rep (.of_empty rfl)
  have hvalue : value (matchOrder spotBid 8) s
      = some ⟨{ spotBid with remainingBaseAmount := 0 }, 4, .drained⟩ := by decide +kernel
  obtain ⟨market, fills, -, -, -, -, htotal, -, -, -, hwell, hres⟩ :=
    match_order_executes hrep (run_of_value hvalue)
  exact ⟨hvalue, by decide +kernel, by decide +kernel, market, fills, htotal.symm, hwell, hres 1⟩

end PerpDex
