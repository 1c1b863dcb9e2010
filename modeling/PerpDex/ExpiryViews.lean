/-
Three places decide whether a resting order has expired.

Main results: `expiry_views_agree_iff`, `post_only_expires_in_one_place`.

The search for a maker reads the expiry of an entry, and entries have no time in force.  So a post-only
order is evicted by the first taker that comes to it late, but is never swept.
-/
import PerpDex.OrderIndexes

namespace PerpDex

open Txn

variable {s : State}

/-! ### The search for a maker -/

/-- What becomes of the best entry: the search ends with it, or goes on without it. -/
inductive Verdict where
  | answer (r : MakerSearch)
  /-- Evicted because its time has passed. -/
  | expired
  /-- Evicted because it no longer reduces a position. -/
  | idle
deriving DecidableEq, Repr

def verdict (s : State) (taker : Order) (isPerp : Bool) (best : OrderBookEntry) : Verdict :=
  if priceAllows taker best = false then .answer .unreachable
  else if best.ownerAccountIndex = taker.ownerAccountIndex then .answer .selfTrade
  else if 0 < best.expiry ∧ best.expiry ≤ s.now then .expired
  else if isPerp = true ∧ taker.reduceOnly = true ∧
      reducedBy (getPosition s taker.ownerAccountIndex taker.marketIndex) taker.isAsk = false then
    .answer .reduceOnly
  else if mustEvict s taker isPerp best then .idle
  else .answer (.found best)

theorem nextMaker_verdict {taker : Order} {isPerp : Bool} {best : OrderBookEntry}
    (hbest : peekBest taker.marketIndex (!taker.isAsk) s = some best) (fuel : ℕ) :
    (nextMaker taker isPerp (fuel + 1)).run s =
      match verdict s taker isPerp best with
      | .answer r => .ok r s
      | .expired | .idle => (evictMakerOrder best.orderIndex .cancelled >>= fun _ =>
          nextMaker taker isPerp fuel).run s := by
  rw [nextMaker_succ, hbest, verdict]
  dsimp only
  split_ifs <;> rfl

/-- The entry is one that the taker comes to. -/
structure Meets (taker : Order) (best : OrderBookEntry) : Prop where
  price : priceAllows taker best = true
  other : best.ownerAccountIndex ≠ taker.ownerAccountIndex

theorem Meets.verdict_expired {taker : Order} {best : OrderBookEntry} (h : Meets taker best)
    (isPerp : Bool) :
    verdict s taker isPerp best = .expired ↔ 0 < best.expiry ∧ best.expiry ≤ s.now := by
  rw [verdict, if_neg (by rw [h.price]; decide), if_neg h.other]
  constructor
  · intro hv
    by_contra hlate
    rw [if_neg hlate] at hv
    split_ifs at hv
  · intro hlate
    rw [if_pos hlate]

theorem exists_meets (best : OrderBookEntry) : ∃ taker, Meets taker best :=
  ⟨{
      orderIndex := 0
      ownerAccountIndex := best.ownerAccountIndex + 1
      marketIndex := 0
      isAsk := true
      orderType := .marketOrder
      price := 0
      nonce := 0
      initialBaseAmount := 1
      remainingBaseAmount := 1 }, by simp [priceAllows], Nat.ne_of_lt (Nat.lt_succ_self _)⟩

/-! ### The sweep -/

theorem mem_collectExpiredOrders {i : ℕ} : i ∈ collectExpiredOrders s ↔
    ∃ ms, s.book.expiryIndex.get (toLex (ms, i)) = some () ∧ ms ≤ s.now := by
  simp only [collectExpiredOrders, KVStore.range, List.mem_map, List.mem_filter, decide_eq_true_eq]
  constructor
  · rintro ⟨⟨k, ⟨⟩⟩, ⟨hmem, hle⟩, rfl⟩
    exact ⟨(ofLex k).1, KVStore.mem_entries.mp hmem, hle⟩
  · rintro ⟨ms, hget, hle⟩
    exact ⟨(toLex (ms, i), ()), ⟨KVStore.mem_entries.mpr hget, hle⟩, rfl⟩

theorem Desk.expiries_exact {d : Desk} {caps : ℕ → ℕ} (hd : d.Sound) (hx : d.Indexed caps) {m : ℕ}
    {sk : SortKey} {e : OrderBookEntry} {o : Order} (hrests : o.Rests (coreOf d.state).orders m sk e)
    (he : d.state.book.orderBookEntries.get (toLex (m, sk)) = some e) (ms : ℤ) :
    d.state.book.expiryIndex.get (toLex (ms, o.orderIndex)) = some () ↔
      indexExpiry o = true ∧ o.expiry = ms := by
  have hrow : d.state.book.orders.get o.orderIndex = some o := by
    rw [show o.orderIndex = e.orderIndex from congrArg OrderBookEntry.orderIndex hrests.entry]
    exact hrests.order
  -- the trigger in hand has no entry, so this is another order
  have hhand : d.firedIndex ≠ some o.orderIndex := by
    intro hfired
    unfold Desk.firedIndex at hfired
    split at hfired
    · rename_i o₁ hhand
      have hentry := (hd.detached _ _ hhand (by decide)).noEntry m sk e he
      exact hentry (((Option.some.inj hfired).trans
        (congrArg OrderBookEntry.orderIndex hrests.entry)).symm)
    · cases hfired
  refine (hx.exact.expiries.exact _ ()).trans ⟨?_, ?_⟩
  · rintro ⟨o₁, ho₁, hentry⟩
    unfold expiryEntry at hentry
    split at hentry
    · rename_i hlisted
      have hkey := congrArg (fun k => ofLex k.1) (Option.some.inj hentry)
      have hindex : o₁.orderIndex = o.orderIndex := congrArg Prod.snd hkey
      obtain rfl : o₁ = o := by
        rw [hindex] at ho₁
        exact Option.some.inj (ho₁.symm.trans hrow)
      exact ⟨hlisted.2.1, congrArg Prod.fst hkey⟩
    · cases hentry
  · rintro ⟨hexpires, rfl⟩
    refine ⟨o, hrow, if_pos ⟨OrderStatus.isLive_of_isResting hrests.status, hexpires, hhand⟩⟩

/-! ### The three views -/

/-- At any time, whichever taker comes to the entry, the order is expired for the search, by the
predicate and for the sweep alike. -/
structure ViewsAgree (s : State) (e : OrderBookEntry) (o : Order) : Prop where
  search : ∀ now taker isPerp, Meets taker e →
    (verdict { s with now := now } taker isPerp e = .expired ↔ isExpired o now = true)
  sweep : ∀ now, isExpired o now = true ↔
    o.orderIndex ∈ collectExpiredOrders { s with now := now }

theorem isExpired_iff {o : Order} {now : ℤ} :
    isExpired o now = true ↔ o.timeInForce = .gtt ∧ 0 < o.expiry ∧ o.expiry ≤ now := by
  unfold isExpired
  split
  · rename_i hkind
    simp [hkind]
  · rename_i hkind
    simp [not_not.mp hkind]

/-- **The views of expiry agree on an order of the book if and only if it is good-till-time or has no
expiry**, in every run in which no abandoned trigger resists its cancellation. -/
theorem expiry_views_agree_iff [AddressCodec] {s₀ : State} (hfresh : FreshBook s₀) {d : Desk}
    (hrun : Relation.ReflTransGen (fun d d' => Move d d' ∧ CleansUp d d') ⟨s₀, none⟩ d) {m : ℕ}
    {sk : SortKey} {e : OrderBookEntry} {o : Order}
    (he : d.state.book.orderBookEntries.get (toLex (m, sk)) = some e)
    (ho : d.state.book.orders.get e.orderIndex = some o) :
    ViewsAgree d.state e o ↔ o.timeInForce = .gtt ∨ o.expiry ≤ 0 := by
  have hkept : d.Sound ∧ d.Indexed fun _ => 0 := by
    clear he ho
    induction hrun with
    | refl => exact ⟨.idle hfresh.inv, hfresh.indexed⟩
    | tail _ hmove ih =>
      have hcaps : ∀ s, FixedCaps (fun _ => 0) s := fun s m market _ hm => absurd hm (Nat.lt_irrefl 0)
      exact ⟨hmove.1.sound ih.1, hmove.1.indexed hmove.2 (hcaps _) ih.1 ih.2⟩
  obtain ⟨hd, hx⟩ := hkept
  obtain ⟨⟨o', hrests⟩, -⟩ := hd.inv.entry m sk e he
  obtain rfl : o' = o := Option.some.inj (hrests.order.symm.trans ho)
  have hexpiry : e.expiry = o'.expiry := by rw [← hrests.entry]; rfl
  constructor
  · intro hagree
    by_contra hcond
    obtain ⟨hkind, hpos⟩ := not_or.mp hcond
    obtain ⟨taker, hmeets⟩ := exists_meets e
    have hlate := (hmeets.verdict_expired (s := { d.state with now := o'.expiry }) true).mpr
      ⟨by omega, hexpiry.le⟩
    exact hkind (isExpired_iff.mp ((hagree.search _ taker true hmeets).mp hlate)).1
  · intro hcond
    refine ⟨fun now taker isPerp hmeets => ?_, fun now => ?_⟩
    · rw [hmeets.verdict_expired, isExpired_iff, hexpiry]
      constructor
      · exact fun hlate => ⟨hcond.resolve_right (by omega), hlate⟩
      · exact fun h => h.2
    · rw [mem_collectExpiredOrders, isExpired_iff]
      have hlisted := Desk.expiries_exact hd hx hrests he
      constructor
      · rintro ⟨hkind, hpos, hle⟩
        exact ⟨o'.expiry, (hlisted _).mpr ⟨by simp [indexExpiry, hkind, hpos], rfl⟩, hle⟩
      · rintro ⟨ms, hget, hle⟩
        obtain ⟨hexpires, rfl⟩ := (hlisted ms).mp hget
        simp only [indexExpiry, Bool.and_eq_true, decide_eq_true_eq] at hexpires
        exact ⟨hexpires.1, hexpires.2, hle⟩

/-- A bid that expires comes to rest. -/
theorem expiry_views_agree_iff_resting_bid :
    let _ := AddressCodec.acceptAll
    let o := { bid.toOrder 1 firstBidNonce with status := .opened }
    let t := after (openOrder o) (after (prepareOrder bid) oneSlotMarket)
    o.expiry = 2000 ∧ ViewsAgree t o.toEntry o := by
  intro _ o t
  obtain ⟨hfresh, haccept, hstore⟩ := oneBid_moves
  have hrun : Relation.ReflTransGen (fun d d' => Move d d' ∧ CleansUp d d') ⟨oneSlotMarket, none⟩
      ⟨t, none⟩ :=
    .tail (.single ⟨haccept, fun o' u ho' => by simp at ho'⟩)
      ⟨hstore, fun o' u ho' => by simp at ho'⟩
  have hentry : t.book.orderBookEntries.get (toLex (0, o.sortKey)) = some o.toEntry := by
    decide +kernel
  have horder : t.book.orders.get o.toEntry.orderIndex = some o := by decide +kernel
  exact ⟨rfl, (expiry_views_agree_iff hfresh hrun hentry horder).mpr (.inl rfl)⟩

def postOnlyBid : MsgCreateOrder := { bid with timeInForce := .postOnly }

/-- A sale at the market by another user. -/
def marketSale : Order where
  orderIndex := 2
  ownerAccountIndex := 3
  marketIndex := 0
  isAsk := true
  orderType := .marketOrder
  price := 0
  nonce := 0
  initialBaseAmount := 1
  remainingBaseAmount := 1

/-- A post-only bid with an expiry rests.  When that has passed, the hook leaves the bid open, but the
first taker that comes to it evicts it as expired. -/
theorem post_only_expires_in_one_place :
    let _ := AddressCodec.acceptAll
    let t := after (createOrder postOnlyBid) oneSlotMarket
    let late := { t with now := 2000 }
    ∃ o, t.book.orders.get 1 = some o ∧ o.status = .opened ∧ o.expiry = 2000 ∧
      peekBest 0 false late = some o.toEntry ∧
      isExpired o 2000 = false ∧ collectExpiredOrders late = [] ∧
      ((after orderbookEndBlocker late).book.orders.get 1).map Order.status = some .opened ∧
      verdict late marketSale true o.toEntry = .expired ∧
      ((after (nextMaker marketSale true 2) late).book.orders.get 1).map Order.status
        = some .cancelled := by
  intro _ t late
  refine ⟨{ postOnlyBid.toOrder 1 firstBidNonce with status := .opened }, ?_⟩
  decide +kernel

end PerpDex
