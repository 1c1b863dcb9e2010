/-
What is locked is what the resting spot orders lock.

* `MovesLock` — a move changes the lock of one order, and the locked balances by just that;
* `LockSafe` — no fee and no cancellation of a trigger that could not be placed takes from the lock of
  another order.

Main results: `spot_locks_exact`, `maker_fee_drains_lock`.

Releases and drains are clamped to what is locked, so that a wrong amount goes unnoticed; that the clamps
do not bite is part of the same induction.
-/
import PerpDex.LoopProgress
import PerpDex.SpotSolvency

namespace PerpDex

open Txn

variable {s t u : State} {held held' : Option ℕ} {o : Order}
variable {dst i j src : ℕ} {o' : Order} {st : OrderStatus} {x : ℤ}

/-! ### What orders lock -/

/-- What the order locks of asset `i` for account `a` while it rests in the market. -/
def Order.lockFor (o : Order) (a i : ℕ) : Option Market → ℤ
  | none => 0
  | some market =>
    if market.marketType = .spot ∧ o.ownerAccountIndex = a ∧ (computeSpotLock o market).1 = i then
      (computeSpotLock o market).2
    else 0

/-- The order is open or partially filled, and its entry is on the book. -/
def onBook (s : State) (o : Order) : Bool :=
  o.status.isResting && (s.book.orderBookEntries.get (toLex (o.marketIndex, o.sortKey))).any
    fun e => e.orderIndex = o.orderIndex

def spotLockOf (s : State) (a i : ℕ) (o : Order) : ℤ :=
  if onBook s o then o.lockFor a i (s.market.markets.get o.marketIndex) else 0

def spotLocks (s : State) (a i : ℕ) : ℤ := s.book.orders.sum (spotLockOf s a i)

/-- What the order with index `j` locks. -/
def lockAt (s : State) (a i j : ℕ) : ℤ := (s.book.orders.get j).elim 0 (spotLockOf s a i)

def LocksExact (s : State) : Prop := ∀ a i, lockedOf s a i = spotLocks s a i

theorem Order.lockFor_nonneg (o : Order) (a i : ℕ) (found : Option Market) :
    0 ≤ o.lockFor a i found := by
  cases found with
  | none => exact le_rfl
  | some market =>
    rw [Order.lockFor]
    split
    · exact computeSpotLock_nonneg o market
    · exact le_rfl

theorem spotLockOf_nonneg (s : State) (a i : ℕ) (o : Order) : 0 ≤ spotLockOf s a i o := by
  unfold spotLockOf
  split
  · exact o.lockFor_nonneg a i _
  · exact le_rfl

theorem lockAt_le (s : State) (a i j : ℕ) : lockAt s a i j ≤ spotLocks s a i := by
  have hrest : 0 ≤ (s.book.orders.rows.remove j).sum fun _ o => spotLockOf s a i o :=
    KVStore.sum_nonneg fun _ _ _ => spotLockOf_nonneg s a i _
  rw [KVStore.sum_remove] at hrest
  exact sub_nonneg.mp hrest

theorem LocksExact.nonneg (h : LocksExact s) (a i : ℕ) : 0 ≤ lockedOf s a i := by
  have hsum : 0 ≤ s.book.orders.rows.sum fun _ o => spotLockOf s a i o :=
    KVStore.sum_nonneg fun _ _ _ => spotLockOf_nonneg s a i _
  rw [h a i]
  exact hsum

theorem LocksExact.lockAt_le (h : LocksExact s) (a i j : ℕ) : lockAt s a i j ≤ lockedOf s a i := by
  rw [h a i]
  exact PerpDex.lockAt_le s a i j

/-! ### One order at a time -/

/-- Only the order `j` was written, all others lock what they did, and the locked balances changed by
what its lock did. -/
structure MovesLock (j : ℕ) (s t : State) : Prop where
  rows : ∀ k, k ≠ j → t.book.orders.get k = s.book.orders.get k
  others : ∀ a i k, k ≠ j → lockAt t a i k = lockAt s a i k
  own : ∀ a i, lockedOf t a i - lockedOf s a i = lockAt t a i j - lockAt s a i j

theorem MovesLock.exact (h : MovesLock j s t) (hs : LocksExact s) : LocksExact t := by
  intro a i
  have hsum : spotLocks t a i - spotLocks s a i
      = ∑ k ∈ {j}, (lockAt t a i k - lockAt s a i k) :=
    KVStore.sum_sub_sum {j} fun k hk => h.others a i k fun hkj => hk (Finset.mem_singleton.mpr hkj)
  rw [Finset.sum_singleton] at hsum
  have hown := h.own a i
  have hexact := hs a i
  omega

theorem MarketsKeep.lockFor (h : MarketsKeep s t) {mk : Market}
    (hmk : s.market.markets.get o.marketIndex = some mk) (a i : ℕ) :
    o.lockFor a i (t.market.markets.get o.marketIndex)
      = o.lockFor a i (s.market.markets.get o.marketIndex) := by
  obtain ⟨mk', hmk', htype, hbase, hquote⟩ := h _ _ hmk
  have hlock : computeSpotLock o mk' = computeSpotLock o mk := by
    simp only [computeSpotLock, hbase, hquote]
  rw [hmk, hmk']
  simp only [Order.lockFor, htype, hlock]

/-! ### Orders on the book -/

/-- On a consistent book the orders with an entry are those that rest, apart from the one in hand. -/
theorem BookRep.onBook_eq (h : BookRep s held) (ho : s.book.orders.get o.orderIndex = some o) :
    onBook s o = o.shown held := by
  rw [Bool.eq_iff_iff, onBook, Bool.and_eq_true, Option.any_eq_true]
  constructor
  · rintro ⟨-, e, he, hidx⟩
    obtain ⟨o', ho', hshown, -, rfl⟩ := h.shown_of_get he
    have heq : o'.orderIndex = o.orderIndex := of_decide_eq_true hidx
    rw [heq, ho] at ho'
    rw [Option.some.inj ho']
    exact hshown
  · intro hshown
    have hfind := h.pages.find_shown ho hshown
    exact ⟨(Order.shown_eq_true.mp hshown).1, o.toEntry, (Pages.find_eq_some.mp hfind).2,
      decide_eq_true rfl⟩

section Rows

variable {a i j : ℕ}

theorem BookRep.lockAt_eq (h : BookRep s held) (ho : s.book.orders.get j = some o) :
    lockAt s a i j
      = if o.shown held then o.lockFor a i (s.market.markets.get o.marketIndex) else 0 := by
  obtain rfl := Table.key_of_get ho
  rw [lockAt, ho, Option.elim_some, spotLockOf, h.onBook_eq ho]

theorem BookRep.lockAt_hidden (h : BookRep s held)
    (hhidden : ∀ o, s.book.orders.get j = some o → o.shown held = false) : lockAt s a i j = 0 := by
  rcases ho : s.book.orders.get j with _ | o
  · rw [lockAt, ho, Option.elim_none]
  · rw [h.lockAt_eq ho, hhidden o ho]
    rfl

theorem lockAt_congr (hs : BookRep s held) (ht : BookRep t held') (hmarkets : MarketsKeep s t)
    (hexist : ∀ i o, s.book.orders.get i = some o → ∃ mk, s.market.markets.get o.marketIndex = some mk)
    (hrow : t.book.orders.get j = s.book.orders.get j) (hhand : held' = some j ↔ held = some j) :
    lockAt t a i j = lockAt s a i j := by
  rcases ho : s.book.orders.get j with _ | o
  · rw [lockAt, hrow, ho, lockAt, ho]
    rfl
  · obtain ⟨mk, hmk⟩ := hexist j o ho
    have hshown : o.shown held' = o.shown held := by
      obtain rfl := Table.key_of_get ho
      rw [Order.shown, Order.shown, decide_eq_decide.mpr (not_congr hhand)]
    rw [ht.lockAt_eq (hrow.trans ho), hs.lockAt_eq ho, hshown, hmarkets.lockFor hmk]

end Rows

/-! ### Locks and releases -/

section Effects

variable {r : Unit} {a i : ℕ}

theorem Order.lockFor_some {market : Market} (hspot : market.marketType = .spot) :
    o.lockFor a i (some market) = if i = (computeSpotLock o market).1
      then (Pi.single o.ownerAccountIndex (computeSpotLock o market).2 : ℕ → ℤ) a else 0 := by
  rw [Order.lockFor, Pi.single_apply]
  by_cases hi : i = (computeSpotLock o market).1
  · by_cases ha : a = o.ownerAccountIndex <;> simp [hspot, hi, ha, eq_comm]
  · simp [hi, eq_comm]

theorem Order.lockFor_perps {market : Market} (hperps : market.marketType ≠ .spot) :
    o.lockFor a i (some market) = 0 := if_neg fun h => hperps h.1

theorem applySpotLockOnOpen_locked (h : (applySpotLockOnOpen o).run s = .ok r t) :
    lockedOf t a i = lockedOf s a i + o.lockFor a i (s.market.markets.get o.marketIndex) := by
  obtain ⟨market, hmarket, h⟩ := run_bind_read_ok.mp h
  rw [getMarket_eq_ok.mp hmarket]
  rw [run_when] at h
  split_ifs at h with hspot
  · obtain ⟨hmove, -, -⟩ := SpotMove.of_increase h
    rw [hmove.locked, Order.lockFor_some hspot]
  · cases h
    rw [Order.lockFor_perps hspot, add_zero]

theorem openOrder_locked (h : (openOrder o).run s = .ok r t) :
    lockedOf t a i = lockedOf s a i +
      if o.status.isResting then o.lockFor a i (s.market.markets.get o.marketIndex) else 0 := by
  have hset : Keeps BookOnly (setOrder o) := Keeps.write fun _ => rfl
  unfold openOrder at h
  split at h
  · rename_i hst
    obtain ⟨_, s₁, hlock, h⟩ := run_bind_ok.mp h
    have hrest : BookOnly s₁ t := ((insertEntry_bookOnly _ _ _).bind fun _ =>
      (indexOpenOrder_bookOnly o).bind fun _ => hset).ok h
    rw [if_pos hst, (SameSpot.of_bookOnly hrest).locked, applySpotLockOnOpen_locked hlock]
  · rename_i hst
    have hrest : BookOnly s t := ((unindexOpenOrder_bookOnly o).bind fun _ => hset).ok h
    rw [if_neg hst, add_zero, (SameSpot.of_bookOnly hrest).locked]

theorem releaseSpotLockOnClose_locked (hlocks : ∀ a i, 0 ≤ lockedOf s a i)
    (h : (releaseSpotLockOnClose o).run s = .ok r t) :
    lockedOf t a i = lockedOf s a i -
      min (o.lockFor a i (s.market.markets.get o.marketIndex)) (lockedOf s a i) := by
  obtain ⟨market, hmarket, h⟩ := run_bind_read_ok.mp h
  rw [getMarket_eq_ok.mp hmarket]
  rw [run_when] at h
  split_ifs at h with hspot
  · obtain ⟨hmove, -⟩ := SpotMove.of_decrease (hlocks _ _) h
    rw [hmove.locked]
    by_cases hc : o.ownerAccountIndex = a ∧ (computeSpotLock o market).1 = i
    · obtain ⟨rfl, rfl⟩ := hc
      rw [if_pos rfl, Order.lockFor, if_pos ⟨hspot, rfl, rfl⟩, Pi.single_eq_same, sub_eq_add_neg]
    · have hzero : o.lockFor a i (some market) = 0 := if_neg fun hc' => hc hc'.2
      rw [hzero, min_eq_left (hlocks a i), sub_zero]
      split_ifs with hi
      · rw [Pi.single_eq_of_ne (M := fun _ => ℤ) fun ha => hc ⟨ha.symm, hi.symm⟩, add_zero]
      · rw [add_zero]
  · cases h
    rw [Order.lockFor_perps hspot, min_eq_left (hlocks a i), sub_zero]

theorem takeOff_locked (hlocks : ∀ a i, 0 ≤ lockedOf s a i)
    (h : (do
      removeEntry o.marketIndex o.isAsk o.orderIndex
      releaseSpotLockOnClose o
      closeOrder o st : Tx Order).run s = .ok o' t) :
    t.book.orders = s.book.orders.put { o with status := st } ∧ ∀ a i,
      lockedOf t a i = lockedOf s a i -
        min (o.lockFor a i (s.market.markets.get o.marketIndex)) (lockedOf s a i) := by
  obtain ⟨_, s₁, hremove, h⟩ := run_bind_ok.mp h
  obtain ⟨_, s₂, hrelease, hclose⟩ := run_bind_ok.mp h
  have hbook : BookOnly s s₁ := (removeEntry_bookOnly _ _ _).ok hremove
  have hspot := SameSpot.of_bookOnly hbook
  have hmarkets : s₁.market = s.market := by rw [hbook]
  constructor
  · have hclosed : t.book.orders = s₂.book.orders.put { o with status := st } :=
      congrArg Core.orders (closeOrder_ok hclose).2
    have hreleased : s₂.book = s₁.book := ((releaseSpotLockOnClose_book o).ok hrelease).book
    have hremoved : s₁.book.orders = s.book.orders := by
      have hcore := congrArg Core.orders (removeEntry_core o.marketIndex o.isAsk o.orderIndex s)
      rw [after_of_ok hremove, Core.dropOrder_orders] at hcore
      exact hcore
    rw [hclosed, hreleased, hremoved]
  · intro a i
    have hlocks₁ : ∀ a i, 0 ≤ lockedOf s₁ a i := fun a i => hspot.locked a i ▸ hlocks a i
    have hreleased := releaseSpotLockOnClose_locked (a := a) (i := i) hlocks₁ hrelease
    rw [hmarkets, hspot.locked] at hreleased
    rw [(SameSpot.of_bookOnly ((closeOrder_bookOnly _ _).ok hclose)).locked, hreleased]

end Effects

/-! ### Closing orders -/

/-- The order with index `j` was closed, and what it locked released. -/
def Closes (j : ℕ) (s t : State) : Prop := ∃ o st, s.book.orders.get j = some o ∧
  OrderStatus.isResting st = false ∧ t.book.orders = s.book.orders.put { o with status := st } ∧
    ∀ a i, lockedOf t a i = lockedOf s a i - lockAt s a i j

theorem BookRep.takeOff_closes (h : BookRep s held)
    (hexact : LocksExact s) (ho : s.book.orders.get o.orderIndex = some o)
    (hshown : o.shown held = true) (hend : st.isResting = false) (hrun : (do
      removeEntry o.marketIndex o.isAsk o.orderIndex
      releaseSpotLockOnClose o
      closeOrder o st : Tx Order).run s = .ok o' t) : Closes o.orderIndex s t := by
  have hlock : ∀ a i, lockAt s a i o.orderIndex
      = o.lockFor a i (s.market.markets.get o.marketIndex) := by
    intro a i
    rw [h.lockAt_eq ho, if_pos hshown]
  obtain ⟨hrows, hlocked⟩ := takeOff_locked (fun a i => hexact.nonneg a i) hrun
  refine ⟨o, st, ho, hend, hrows, fun a i => ?_⟩
  -- the release is not clamped
  rw [hlocked, ← hlock, min_eq_left (hexact.lockAt_le a i _)]

theorem evictMakerOrder_closes (h : BookRep s held)
    (hexact : LocksExact s) (ho : s.book.orders.get j = some o) (hshown : o.shown held = true)
    (hend : st.isResting = false) : Closes j s (after (evictMakerOrder j st) s) := by
  obtain ⟨t, hrun, -⟩ := evictMakerOrder_run h ho hshown hend
  obtain rfl := Table.key_of_get ho
  rw [after_of_ok hrun]
  rw [evictMakerOrder_eq ho] at hrun
  exact h.takeOff_closes hexact ho hshown hend hrun

theorem cancelOrder_closes (h : BookRep s none) (hexact : LocksExact s) (j : ℕ) :
    after (cancelOrder j) s = s ∨ Closes j s (after (cancelOrder j) s) := by
  rcases ho : s.book.orders.get j with _ | o
  · obtain ⟨text, hrun⟩ : ∃ text, (cancelOrder j).run s = .error ⟨.orderNotFound, text⟩ s :=
      run_getOrder_none ho
    exact .inl (after_of_error hrun)
  obtain rfl := Table.key_of_get ho
  cases hshown : o.shown none with
  | true =>
    obtain ⟨t, hrun, -⟩ := cancelOrder_run h ho hshown
    rw [after_of_ok hrun]
    rw [cancelOrder_eq ho (Order.shown_eq_true.mp hshown).1
      (h.backed o ho hshown).remaining.ne'] at hrun
    exact .inr (h.takeOff_closes hexact ho hshown rfl hrun)
  | false =>
    have hst : ¬ o.status.isResting = true := fun hst => by
      rw [Order.shown_eq_true.mpr ⟨hst, (Option.some_ne_none _).symm⟩] at hshown
      cases hshown
    by_cases hpending : o.status = .triggeredPending
    · -- a waiting trigger locks nothing
      obtain ⟨t, hrun, -⟩ := h.cancel_pending ho hpending fun _ _ => Iff.rfl
      obtain ⟨o₁, ho₁, -, hrows⟩ := cancelOrder_orders hrun
      cases ho.symm.trans ho₁
      have hbook : BookOnly s t := by
        have hremove : Keeps BookOnly (removeTrigger o.marketIndex o.triggerPrice o.orderIndex) :=
          Keeps.write fun _ => rfl
        rw [cancelOrder, run_getOrder ho, detachOrder, if_neg hst, if_pos hpending] at hrun
        exact (hremove.bind fun _ => closeOrder_bookOnly o _).ok hrun
      rw [after_of_ok hrun]
      refine .inr ⟨o, .cancelled, ho, rfl, hrows, fun a i => ?_⟩
      have hnone : lockAt s a i o.orderIndex = 0 :=
        h.lockAt_hidden fun o₂ ho₂ => by cases ho.symm.trans ho₂; exact hshown
      rw [(SameSpot.of_bookOnly hbook).locked, hnone, sub_zero]
    · have hsame : after (cancelOrder o.orderIndex) s = s := by
        rw [cancelOrder, after_getOrder ho, detachOrder, if_neg hst, if_neg hpending]
        rfl
      exact .inl hsame

/-! ### Fills -/

/-- What the maker of a fill gives, and of which asset. -/
def SpotFill.makerLeg (f : SpotFill) (baseAssetID quoteAssetID : ℕ) : ℕ × ℤ :=
  if f.isTakerAsk then (quoteAssetID, f.notional) else (baseAssetID, f.baseAmount)

/-- The maker pays no fee, or has nothing locked any more in the asset in which it is charged once
the maker's leg is settled. -/
def FeeSparesLock (s : State) (f : SpotFill) (baseAssetID quoteAssetID : ℕ) : Prop :=
  f.noFee = false → 0 < feeOf f.notional f.makerFee → f.makerAccountIndex ≠ treasuryAccountIndex →
    lockedOf s f.makerAccountIndex quoteAssetID =
      if quoteAssetID = (f.makerLeg baseAssetID quoteAssetID).1
        then (f.makerLeg baseAssetID quoteAssetID).2 else 0

section Fills

variable {r : Unit} {f : SpotFill} {base quote : ℕ}

theorem spotDebit_locked {shortfall : Sentinel} {drain : Bool}
    (hlock : 0 ≤ lockedOf s src i) (h : (spotDebit shortfall drain src dst i x).run s = .ok r t)
    (c j : ℕ) : lockedOf t c j = lockedOf s c j -
      if src ≠ dst ∧ c = src ∧ j = i then drained s src i x drain else 0 := by
  unfold spotDebit at h
  split at h
  · cases h
  · exact transfer_locked hlock (run_mapError_ok.mp h) c j

theorem spotTakerDebit_locked (hlock : 0 ≤ lockedOf s src i)
    (h : (spotTakerDebit src dst i x).run s = .ok r t) (c j : ℕ) :
    lockedOf t c j = lockedOf s c j := by
  rw [spotDebit_locked hlock h c j, drained, if_neg Bool.false_ne_true, ite_self, sub_zero]

theorem spotMakerDebit_locked (hlock : 0 ≤ lockedOf s src i)
    (h : (spotMakerDebit src dst i x).run s = .ok r t) (c j : ℕ) :
    lockedOf t c j = lockedOf s c j -
      if src ≠ dst ∧ c = src ∧ j = i then min x (lockedOf s src i) else 0 :=
  spotDebit_locked hlock h c j

theorem swapAssets_locked (hne : f.makerAccountIndex ≠ f.takerAccountIndex)
    (hlocks : ∀ c j, 0 ≤ lockedOf s c j)
    (hcover : (f.makerLeg base quote).2 ≤ lockedOf s f.makerAccountIndex (f.makerLeg base quote).1)
    (h : (swapAssets f base quote).run s = .ok r t) (c j : ℕ) :
    lockedOf t c j = lockedOf s c j -
      if c = f.makerAccountIndex ∧ j = (f.makerLeg base quote).1
        then (f.makerLeg base quote).2 else 0 := by
  have hlegs : ∀ (i i' : ℕ) (x x' : ℤ), x ≤ lockedOf s f.makerAccountIndex i →
      (spotMakerDebit f.makerAccountIndex f.takerAccountIndex i x >>= fun _ =>
        spotTakerDebit f.takerAccountIndex f.makerAccountIndex i' x').run s = .ok r t →
      lockedOf t c j = lockedOf s c j - if c = f.makerAccountIndex ∧ j = i then x else 0 := by
    intro i i' x x' hx hrun
    obtain ⟨_, s₁, hmaker, htaker⟩ := run_bind_ok.mp hrun
    have hmade := spotMakerDebit_locked (hlocks _ i) hmaker
    simp only [hne, ne_eq, not_false_eq_true, true_and, min_eq_left hx] at hmade
    have hleft : 0 ≤ lockedOf s₁ f.takerAccountIndex i' := by
      rw [hmade, if_neg fun hc => hne hc.1.symm, sub_zero]
      exact hlocks _ _
    rw [spotTakerDebit_locked hleft htaker, hmade]
  unfold swapAssets at h
  unfold SpotFill.makerLeg at hcover ⊢
  split at h
  · rename_i hask
    rw [if_pos hask] at hcover ⊢
    exact hlegs _ _ _ _ hcover h
  · rename_i hask
    rw [if_neg hask] at hcover ⊢
    exact hlegs _ _ _ _ hcover h

theorem chargeSpotFees_locked (hlocks : ∀ c j, 0 ≤ lockedOf s c j)
    (hfee : f.noFee = false → 0 < feeOf f.notional f.makerFee →
      f.makerAccountIndex ≠ treasuryAccountIndex → lockedOf s f.makerAccountIndex quote = 0)
    (h : (chargeSpotFees f quote).run s = .ok r t) (c j : ℕ) : lockedOf t c j = lockedOf s c j := by
  rw [chargeSpotFees, run_when] at h
  split_ifs at h with hno
  swap
  · cases h
    rfl
  obtain ⟨_, s₁, htaker, hmaker⟩ := run_bind_ok.mp h
  have htook : ∀ c j, lockedOf s₁ c j = lockedOf s c j := by
    rw [run_when] at htaker
    split_ifs at htaker
    · exact spotTakerDebit_locked (hlocks _ _) htaker
    · cases htaker
      exact fun _ _ => rfl
  rw [run_when] at hmaker
  split_ifs at hmaker with hpos
  · rw [spotMakerDebit_locked (htook _ _ ▸ hlocks _ _) hmaker, htook, htook]
    split_ifs with hc
    · rw [hfee hno hpos hc.1, min_eq_right hpos.le, sub_zero]
    · exact sub_zero _
  · cases hmaker
    exact htook c j

/-- **A fill takes the maker's leg out of the maker's lock, and nothing else**, if the fee spares
the lock. -/
theorem applySpotMatching_locked (hne : f.makerAccountIndex ≠ f.takerAccountIndex)
    (hlocks : ∀ c j, 0 ≤ lockedOf s c j)
    (hcover : (f.makerLeg base quote).2 ≤ lockedOf s f.makerAccountIndex (f.makerLeg base quote).1)
    (hspares : FeeSparesLock s f base quote) (h : (applySpotMatching f base quote).run s = .ok r t)
    (c j : ℕ) : lockedOf t c j = lockedOf s c j -
      if c = f.makerAccountIndex ∧ j = (f.makerLeg base quote).1
        then (f.makerLeg base quote).2 else 0 := by
  obtain ⟨_, s₁, hswap, hfees⟩ := run_bind_ok.mp h
  have hswapped := swapAssets_locked hne hlocks hcover hswap
  rw [chargeSpotFees_locked ?_ ?_ hfees, hswapped]
  · intro c j
    rw [hswapped]
    split_ifs with hc
    · rw [hc.1, hc.2]
      exact sub_nonneg.mpr hcover
    · rw [sub_zero]
      exact hlocks c j
  · intro hno hpos hmaker
    rw [hswapped, hspares hno hpos hmaker]
    simp only [true_and, sub_self]

end Fills

section Fills

variable {taker : Order} {market : Market} {base : ℕ}

/-- What a fill takes of what the order locks. -/
def Order.legOf (o : Order) (base : ℕ) : ℤ := if o.isAsk then base else (base : ℤ) * o.price

theorem makerLeg_eq (hside : o.isAsk = !taker.isAsk) :
    (userSpotFill market taker o.toEntry base).makerLeg market.baseAssetId market.quoteAssetId
      = ((computeSpotLock o market).1, o.legOf base) := by
  unfold SpotFill.makerLeg computeSpotLock userSpotFill Order.legOf
  cases htaker : taker.isAsk with
  | true =>
    have hask : o.isAsk = false := by rw [hside, htaker]; rfl
    simp only [hask, Bool.false_eq_true, if_false, if_true, SpotFill.notional]
    rfl
  | false =>
    have hask : o.isAsk = true := by rw [hside, htaker]; rfl
    simp only [hask, Bool.false_eq_true, if_false, if_true]

theorem computeSpotLock_residue (hbase : base ≤ o.remainingBaseAmount) :
    computeSpotLock (applyOrderResidue o base) market
      = ((computeSpotLock o market).1, (computeSpotLock o market).2 - o.legOf base) := by
  have hrest : ((o.remainingBaseAmount - min base o.remainingBaseAmount : ℕ) : ℤ)
      = (o.remainingBaseAmount : ℤ) - base := by
    rw [min_eq_left hbase]
    exact Nat.cast_sub hbase
  unfold computeSpotLock applyOrderResidue Order.legOf
  cases o.isAsk with
  | true => simp only [if_true, hrest]
  | false => simp only [Bool.false_eq_true, if_false, hrest, sub_mul]

theorem lockFor_residue {a : ℕ} (hspot : market.marketType = .spot)
    (hbase : base ≤ o.remainingBaseAmount) :
    (applyOrderResidue o base).lockFor a i (some market) = o.lockFor a i (some market) -
      if a = o.ownerAccountIndex ∧ i = (computeSpotLock o market).1 then o.legOf base else 0 := by
  have howner : (applyOrderResidue o base).ownerAccountIndex = o.ownerAccountIndex := rfl
  simp only [Order.lockFor, hspot, howner, computeSpotLock_residue hbase, true_and]
  by_cases hc : o.ownerAccountIndex = a ∧ (computeSpotLock o market).1 = i
  · rw [if_pos hc, if_pos hc, if_pos ⟨hc.1.symm, hc.2.symm⟩]
  · rw [if_neg hc, if_neg hc, if_neg fun h => hc ⟨h.1.symm, h.2.symm⟩, sub_zero]

theorem residue_hidden (hshown : o.shown held = true)
    (hhidden : (applyOrderResidue o base).shown held = false) (a i : ℕ) (found : Option Market) :
    (applyOrderResidue o base).lockFor a i found = 0 := by
  have hrest : (applyOrderResidue o base).remainingBaseAmount = 0 := by
    by_contra hne
    have hst : (applyOrderResidue o base).status = .partiallyFilled := if_neg hne
    have hnow : (applyOrderResidue o base).shown held = true :=
      Order.shown_eq_true.mpr ⟨by rw [hst]; rfl, (Order.shown_eq_true.mp hshown).2⟩
    rw [hnow] at hhidden
    cases hhidden
  cases found with
  | none => rfl
  | some market =>
    have hlock : (computeSpotLock (applyOrderResidue o base) market).2 = 0 := by
      unfold computeSpotLock
      rw [hrest]
      split <;> simp
    rw [Order.lockFor, hlock, ite_self]

/-- **A trade changes the locks by what the lock of the maker's order changes.** -/
theorem Trades.locked {k : Task} {maker : OrderBookEntry} {v : State}
    (h : Trades s k taker maker base v) (hrep : BookRep s held) (hexact : LocksExact s)
    (hc : (coreOf s).Inv)
    (hspares : ∀ market, s.market.markets.get taker.marketIndex = some market →
      market.marketType = .spot → FeeSparesLock s (userSpotFill market taker maker base)
        market.baseAssetId market.quoteAssetId) :
    ∃ o, s.book.orders.get maker.orderIndex = some o ∧ o.shown held = true ∧
      o.marketIndex = taker.marketIndex ∧
      v.book.orders = s.book.orders.put (applyOrderResidue o base) ∧ ∀ a i,
        lockedOf v a i = lockedOf s a i - o.lockFor a i (s.market.markets.get o.marketIndex) +
          (applyOrderResidue o base).lockFor a i (s.market.markets.get o.marketIndex) := by
  obtain ⟨-, -, o₁, sk, -, hrests, hbase, hrows⟩ := h.orders hc
  obtain @⟨u, o', isPerp, trade, hfound, -, hkind, htrade, hfill⟩ := h
  obtain ⟨-, o, -, -, -, ho, hshown, hm, hside, rfl⟩ := hrep.order_of_best hfound.best
  obtain rfl : o = o₁ := Option.some.inj (ho.symm.trans hrests.order)
  refine ⟨o, ho, hshown, hm, hrows, fun a i => ?_⟩
  rw [(SameSpot.of_bookOnly ((fillMakerOrder_bookOnly _ _).ok hfill)).locked]
  cases hkind with
  | liquidation _ _ _ _ hmarket hperps =>
    have hspot : ∀ mk : Market, mk.marketType = .perps → mk.marketType ≠ .spot := by
      intro mk hmk
      rw [hmk]
      decide
    rw [hm, getMarket_eq_ok.mp hmarket, Order.lockFor_perps (hspot _ hperps),
      Order.lockFor_perps (hspot _ hperps),
      (SameSpot.of_traded ((apply_keeps _).ok htrade)).locked, sub_zero, add_zero]
  | @user market hk hmarket =>
    have hget := getMarket_eq_ok.mp hmarket
    unfold userTrade at htrade
    split at htrade
    · rename_i hperps
      have hspot : market.marketType ≠ .spot := by
        rw [hperps]
        decide
      rw [hm, hget, Order.lockFor_perps hspot, Order.lockFor_perps hspot,
        (SameSpot.of_traded ((apply_keeps _).ok htrade)).locked, sub_zero, add_zero]
    · rename_i hperps
      have hspot : market.marketType = .spot := by
        cases htype : market.marketType with
        | spot => rfl
        | perps => exact absurd htype hperps
      -- what the order locks covers the leg
      have hlock : ∀ a i, o.lockFor a i (some market) ≤ lockedOf s a i := by
        intro a i
        have hat := hexact.lockAt_le a i o.toEntry.orderIndex
        rw [hrep.lockAt_eq ho, if_pos hshown, hm, hget] at hat
        exact hat
      have hleg := @makerLeg_eq _ _ market base hside
      have hcover : ((userSpotFill market taker o.toEntry base).makerLeg market.baseAssetId
          market.quoteAssetId).2 ≤ lockedOf s o.ownerAccountIndex
            ((userSpotFill market taker o.toEntry base).makerLeg market.baseAssetId
              market.quoteAssetId).1 := by
        have hown := hlock o.ownerAccountIndex (computeSpotLock o market).1
        rw [Order.lockFor, if_pos ⟨hspot, rfl, rfl⟩] at hown
        have hrest := computeSpotLock_nonneg (applyOrderResidue o base) market
        rw [computeSpotLock_residue hbase] at hrest
        rw [hleg]
        exact (sub_nonneg.mp hrest).trans hown
      have hmatched := applySpotMatching_locked hfound.other (fun c j => hexact.nonneg c j) hcover
        (hspares market hget hspot) htrade a i
      rw [hmatched, hleg, hm, hget, lockFor_residue hspot hbase, sub_add_sub_cancel]
      rfl

end Fills

/-! ### Activated triggers that cannot be placed -/

/-- Nothing is locked that the cancellation of the order could release. -/
def CleanupSpares (s : State) (o : Order) : Prop := ∀ a i,
  o.lockFor a i (s.market.markets.get o.marketIndex) = 0 ∨ lockedOf s a i = 0

theorem openOrder_error_locked {e : Err} (h : (openOrder o).run s = .error e t) :
    (∀ a i, lockedOf t a i = lockedOf s a i) ∨ o.status.isResting = true ∧ ∀ a i,
      lockedOf t a i = lockedOf s a i + o.lockFor a i (s.market.markets.get o.marketIndex) := by
  have hset : Keeps BookOnly (setOrder o) := Keeps.write fun _ => rfl
  unfold openOrder at h
  split at h
  · rename_i hst
    rcases run_bind_error.mp h with hlock | ⟨_, s₁, hlock, hrest⟩
    · have hfails : FailsFirst (applySpotLockOnOpen o) := .read_bind fun market => by
        unfold Txn.when
        exact .ite increaseLockedBalance_failsFirst (.of_total fun _ => ⟨_, _, rfl⟩)
      rw [hfails s e t hlock]
      exact .inl fun _ _ => rfl
    · refine .inr ⟨hst, fun a i => ?_⟩
      rw [(SameSpot.of_bookOnly (((insertEntry_bookOnly _ _ _).bind fun _ =>
        (indexOpenOrder_bookOnly o).bind fun _ => hset).error hrest)).locked,
        applySpotLockOnOpen_locked hlock]
  · left
    exact fun a i => (SameSpot.of_bookOnly
      (((unindexOpenOrder_bookOnly o).bind fun _ => hset).error h)).locked a i

theorem Order.lockFor_mono {o : Order} {a : ℕ} (found : Option Market)
    (howner : o'.ownerAccountIndex = o.ownerAccountIndex) (hside : o'.isAsk = o.isAsk)
    (hprice : o'.price = o.price) (hrem : o'.remainingBaseAmount ≤ o.remainingBaseAmount) :
    o'.lockFor a i found ≤ o.lockFor a i found := by
  cases found with
  | none => exact le_rfl
  | some market =>
    have hasset : (computeSpotLock o' market).1 = (computeSpotLock o market).1 := by
      unfold computeSpotLock
      rw [hside]
      split <;> rfl
    have hamount : (computeSpotLock o' market).2 ≤ (computeSpotLock o market).2 := by
      have hrem' : (o'.remainingBaseAmount : ℤ) ≤ o.remainingBaseAmount := Int.ofNat_le.mpr hrem
      unfold computeSpotLock
      rw [hside, hprice]
      split
      · exact hrem'
      · exact mul_le_mul_of_nonneg_right hrem' (Int.natCast_nonneg _)
    simp only [Order.lockFor, howner, hasset]
    split
    · exact hamount
    · exact le_rfl

theorem executableTwin_price (hrests : (executableTwin o).timeInForce ≠ .ioc) :
    (executableTwin o).price = o.price := by
  unfold executableTwin at hrests ⊢
  split at hrests
  · rfl
  · rfl
  · exact absurd rfl hrests

/-- What the storing of an activated trigger may have locked is no more than its cancellation
releases. -/
theorem Desk.Sound.twin_lock (hd : Desk.Sound ⟨s, some (.fired, o)⟩)
    (hst : Settles o st) (hresting : st.isResting = true) {o₀ : Order}
    (ho₀ : s.book.orders.get o.orderIndex = some o₀) (a i : ℕ) (found : Option Market) :
    ({ o with status := st } : Order).lockFor a i found ≤ o₀.lockFor a i found := by
  obtain ⟨o₁, ho₁, -, -, b, hb, heq⟩ := hd.stored o rfl
  cases ho₀.symm.trans ho₁
  obtain ⟨ty, tif, p, -, htwin⟩ := executableTwin_eq o₀
  have htif : (executableTwin o₀).timeInForce ≠ .ioc := by
    have hrests := hst.rests hresting
    rw [heq] at hrests
    exact hrests
  have hprice := executableTwin_price htif
  rw [htwin] at heq hb hprice
  refine Order.lockFor_mono found ?_ ?_ ?_ ?_ <;> rw [heq]
  · exact hprice
  · exact hb

/-- Cancelling an activated trigger that could not be placed leaves the locks as they were before it
was stored, if it spares them. -/
theorem Desk.Represented.abandon_locked {caps : ℕ → ℕ}
    (hr : Desk.Represented ⟨s, some (.fired, o)⟩) (hd : Desk.Sound ⟨s, some (.fired, o)⟩)
    (hx : Desk.Indexed caps ⟨s, some (.fired, o)⟩) (hexact : LocksExact s) (hun : Unplaced o s u)
    (hfit : ∀ st e, Settles o st → (openOrder { o with status := st }).run s = .error e u →
      e.sentinel ≠ .priceLevelOverflow) {o₀ : Order}
    (ho₀ : s.book.orders.get o.orderIndex = some o₀) (hspares : CleanupSpares s o₀) :
    (after (cancelOrder o.orderIndex) u).book.orders
        = s.book.orders.put { o₀ with status := .cancelled } ∧
      ∀ a i, lockedOf (after (cancelOrder o.orderIndex) u) a i = lockedOf s a i := by
  obtain ⟨o', t, hcancel, -⟩ := hr.abandoned hd hx hun hfit
  have hbook : u.book = s.book := hx.unplaced_book hd hun hfit
  have hmarkets : u.market.markets = s.market.markets := (hun.frame.sidelined 0).markets
  obtain ⟨o₁, ho₁, hst, hrem, -⟩ := hd.stored o rfl
  cases ho₀.symm.trans ho₁
  have hidx : o₀.orderIndex = o.orderIndex := Table.key_of_get ho₀
  have hrow : u.book.orders.get o₀.orderIndex = some o₀ := by rw [hbook, hidx, ho₀]
  -- what the failed storing locked
  obtain ⟨y, hy, hlocked⟩ : ∃ y : ℕ → ℕ → ℤ, (∀ a i, 0 ≤ y a i ∧
      y a i ≤ o₀.lockFor a i (s.market.markets.get o₀.marketIndex)) ∧
      ∀ a i, lockedOf u a i = lockedOf s a i + y a i := by
    have hnone : ∀ a i, (0 : ℤ) ≤ 0 ∧
        (0 : ℤ) ≤ o₀.lockFor a i (s.market.markets.get o₀.marketIndex) :=
      fun a i => ⟨le_rfl, o₀.lockFor_nonneg a i _⟩
    rcases hun with rfl | ⟨st, e, hsettles, herr⟩
    · exact ⟨fun _ _ => 0, hnone, fun a i => (add_zero _).symm⟩
    · rcases openOrder_error_locked herr with hsame | ⟨hresting, hsame⟩
      · exact ⟨fun _ _ => 0, hnone, fun a i => by rw [hsame, add_zero]⟩
      · have hm : o.marketIndex = o₀.marketIndex := by
          obtain ⟨o₂, ho₂, -, -, b, -, heq⟩ := hd.stored o rfl
          cases ho₀.symm.trans ho₂
          obtain ⟨ty, tif, p, -, htwin⟩ := executableTwin_eq o₀
          rw [heq, htwin]
        refine ⟨_, fun a i => ⟨Order.lockFor_nonneg _ a i _, ?_⟩, hsame⟩
        show Order.lockFor _ a i (s.market.markets.get o.marketIndex) ≤ _
        rw [hm]
        exact hd.twin_lock hsettles hresting ho₀ a i _
  have hlocks : ∀ a i, 0 ≤ lockedOf u a i := by
    intro a i
    rw [hlocked]
    exact add_nonneg (hexact.nonneg a i) (hy a i).1
  rw [after_of_ok hcancel]
  rw [← hidx, cancelOrder_eq hrow (by rw [hst]; rfl) hrem.ne'] at hcancel
  obtain ⟨hrows, hreleased⟩ := takeOff_locked hlocks hcancel
  refine ⟨by rw [hrows, hbook], fun a i => ?_⟩
  have hya := hy a i
  rw [hreleased, hlocked, hmarkets]
  rcases hspares a i with hzero | hzero
  · rw [hzero] at hya ⊢
    have := hexact.nonneg a i
    omega
  · rw [hzero]
    omega

/-! ### Moves -/

section Moves

variable [AddressCodec] {d d' : Desk}

/-- No fee is paid out of what another order locks, and no activated trigger that could not be
placed is cancelled at the expense of another order, or after its price overflowed. -/
structure LockSafe (d d' : Desk) : Prop where
  fits : StoresFit d d'
  fee : ∀ k o maker base market, d.hand = some (k, o) → Trades d.state k o maker base d'.state →
    d.state.market.markets.get o.marketIndex = some market → market.marketType = .spot →
      FeeSparesLock d.state (userSpotFill market o maker base) market.baseAssetId
        market.quoteAssetId
  cleanup : ∀ o u o₀, d.hand = some (.fired, o) → Unplaced o d.state u →
    d' = ⟨after (cancelOrder o.orderIndex) u, none⟩ →
      d.state.book.orders.get o.orderIndex = some o₀ → CleanupSpares d.state o₀

theorem MovesLock.of_same (h : Move d d') (hr : d.Represented) (hr' : d'.Represented)
    (hrows : d'.state.book.orders = d.state.book.orders) (hhand : d'.firedIndex = d.firedIndex)
    (hlocked : ∀ a i, lockedOf d'.state a i = lockedOf d.state a i) :
    MovesLock 0 d.state d'.state := by
  have hat : ∀ a i k, lockAt d'.state a i k = lockAt d.state a i k := fun a i k =>
    lockAt_congr hr.rep hr'.rep h.marketsKeep hr.markets (by rw [hrows]) (by rw [hhand])
  exact ⟨fun k _ => by rw [hrows], fun a i k _ => hat a i k,
    fun a i => by rw [hlocked, hat, sub_self, sub_self]⟩

theorem MovesLock.of_put {r : Order} (h : Move d d') (hr : d.Represented) (hr' : d'.Represented)
    (hrows : d'.state.book.orders = d.state.book.orders.put r)
    (hhand : SameHand r.orderIndex d.firedIndex d'.firedIndex)
    (hlocked : ∀ a i, lockedOf d'.state a i - lockedOf d.state a i =
      (if r.shown d'.firedIndex then r.lockFor a i (d'.state.market.markets.get r.marketIndex)
        else 0) - lockAt d.state a i r.orderIndex) :
    MovesLock r.orderIndex d.state d'.state := by
  have hother : ∀ k, k ≠ r.orderIndex →
      d'.state.book.orders.get k = d.state.book.orders.get k := fun k hk => by
    rw [hrows, Table.get_put_ne _ hk]
  have hown : d'.state.book.orders.get r.orderIndex = some r := by rw [hrows, Table.get_put_self]
  refine ⟨hother, fun a i k hk => lockAt_congr hr.rep hr'.rep h.marketsKeep hr.markets
    (hother k hk) (hhand k hk), fun a i => ?_⟩
  rw [hlocked, hr'.rep.lockAt_eq hown]

theorem MovesLock.of_hidden {r : Order} (h : Move d d') (hr : d.Represented)
    (hr' : d'.Represented) (hrows : d'.state.book.orders = d.state.book.orders.put r)
    (hhand : SameHand r.orderIndex d.firedIndex d'.firedIndex)
    (hlocked : ∀ a i, lockedOf d'.state a i = lockedOf d.state a i)
    (hwas : ∀ o, d.state.book.orders.get r.orderIndex = some o → o.shown d.firedIndex = false)
    (his : r.shown d'.firedIndex = false) : MovesLock r.orderIndex d.state d'.state := by
  refine .of_put h hr hr' hrows hhand fun a i => ?_
  rw [hlocked, his, hr.rep.lockAt_hidden hwas, sub_self]
  rfl

theorem MovesLock.of_closes (h : Move d d') (hr : d.Represented) (hr' : d'.Represented)
    (hhand : d'.firedIndex = d.firedIndex) (hcloses : Closes j d.state d'.state) :
    MovesLock j d.state d'.state := by
  obtain ⟨o, st, ho, hend, hrows, hlocked⟩ := hcloses
  obtain rfl := Table.key_of_get ho
  refine MovesLock.of_put (r := { o with status := st }) h hr hr' hrows
    (fun _ _ => by rw [hhand]) fun a i => ?_
  have hhidden : Order.shown d'.firedIndex { o with status := st } = false :=
    Bool.eq_false_iff.mpr fun hshown => by
      have hst := (Order.shown_eq_true.mp hshown).1
      rw [hend] at hst
      cases hst
  rw [hhidden, hlocked]
  simp

/-- **Every safe move works on the lock of one order.** -/
theorem Move.movesLock {caps : ℕ → ℕ} (h : Move d d') (hsafe : LockSafe d d') (hr : d.Represented)
    (hr' : d'.Represented) (hd : d.Sound) (hx : d.Indexed caps) (hexact : LocksExact d.state) :
    ∃ j, MovesLock j d.state d'.state := by
  have hmove := h
  cases h with
  | @cancel s i =>
    rcases cancelOrder_closes hr.rep hexact i with hsame | hcloses
    · exact ⟨0, .of_same hmove hr hr' (congrArg (fun t : State => t.book.orders) hsame) rfl
        fun a i => congrArg (fun t => lockedOf t a i) hsame⟩
    · exact ⟨i, .of_closes hmove hr hr' rfl hcloses⟩
  | accept h htype =>
    obtain ⟨-, next, -, -, -, hcore⟩ := prepareOrder_ok h
    exact ⟨0, .of_same hmove hr hr' (congrArg Core.orders hcore) rfl
      fun a i => ((prepareOrder_sameSpot _).ok h).locked a i⟩
  | @park s s₁ t msg prepared h htype hpark =>
    obtain ⟨-, next, -, -, horder, hcore⟩ := prepareOrder_ok h
    have hfresh : s.book.orders.get prepared.2.orderIndex = none := by
      rw [horder]
      exact hd.inv.order_fresh le_rfl
    have hrows : t.book.orders
        = s.book.orders.put { prepared.2 with status := .triggeredPending } := by
      have hparked := congrArg Core.orders (openTriggerOrder_ok hpark)
      rw [hcore] at hparked
      exact hparked
    refine ⟨_, .of_hidden hmove hr hr' hrows (fun _ _ => Iff.rfl) (fun a i => ?_) ?_ rfl⟩
    · show lockedOf t a i = lockedOf s a i
      rw [(SameSpot.of_bookOnly ((openTriggerOrder_bookOnly _).ok hpark)).locked,
        ((prepareOrder_sameSpot _).ok h).locked]
    · intro o ho
      cases hfresh.symm.trans ho
  | @activate s t i o o' ho hst hrem h =>
    obtain ⟨rfl, hcore, -⟩ := activateTrigger_detached hd.inv ho hst h
    obtain rfl := Table.key_of_get ho
    obtain ⟨ty, tif, p, -, htwin⟩ := executableTwin_eq { o with status := .opened }
    have hfired : Desk.firedIndex
        ⟨t, some (.fired, executableTwin { o with status := .opened })⟩ = some o.orderIndex := by
      rw [htwin]
      rfl
    refine ⟨_, .of_hidden hmove hr hr' (congrArg Core.orders hcore) ?_ (fun a i => ?_) ?_ ?_⟩
    · rw [hfired]
      intro j hj
      simp [Desk.firedIndex, Ne.symm hj]
    · exact (SameSpot.of_bookOnly ((activateTrigger_bookOnly _).ok h)).locked a i
    · intro o₁ ho₁
      cases ho.symm.trans ho₁
      rw [Order.shown, hst]
      rfl
    · rw [hfired]
      simp [Order.shown]
  | seize => exact ⟨0, .of_same hmove hr hr' rfl rfl fun _ _ => rfl⟩
  | @evict s k o best hbest =>
    obtain ⟨-, o₁, -, -, -, ho₁, hshown, -⟩ := hr.rep.order_of_best hbest
    exact ⟨_, .of_closes hmove hr hr' rfl (evictMakerOrder_closes hr.rep hexact ho₁ hshown rfl)⟩
  | @fill s v k o maker base h =>
    have hspares := fun market => hsafe.fee k o maker base market rfl h
    obtain ⟨o₁, ho₁, hshown, hm, hrows, hlocked⟩ := h.locked hr.rep hexact hd.inv hspares
    have hidx : o₁.orderIndex = maker.orderIndex := Table.key_of_get ho₁
    have hhand : Desk.firedIndex ⟨v, some (k, o.filledBy base)⟩
        = Desk.firedIndex ⟨s, some (k, o)⟩ := by cases k <;> rfl
    obtain ⟨market, hmarket⟩ := hr.markets _ o₁ ho₁
    refine ⟨_, .of_put hmove hr hr' hrows (fun _ _ => by rw [hhand]) fun a i => ?_⟩
    have hlock : lockAt s a i (applyOrderResidue o₁ base).orderIndex
        = o₁.lockFor a i (s.market.markets.get o₁.marketIndex) := by
      show lockAt s a i o₁.orderIndex = _
      rw [hidx, hr.rep.lockAt_eq ho₁, if_pos hshown]
    have hafter : (if (applyOrderResidue o₁ base).shown (Desk.firedIndex
          ⟨v, some (k, o.filledBy base)⟩) then (applyOrderResidue o₁ base).lockFor a i
            (v.market.markets.get (applyOrderResidue o₁ base).marketIndex) else 0)
        = (applyOrderResidue o₁ base).lockFor a i (s.market.markets.get o₁.marketIndex) := by
      have hkeep : (applyOrderResidue o₁ base).lockFor a i (v.market.markets.get o₁.marketIndex)
          = (applyOrderResidue o₁ base).lockFor a i (s.market.markets.get o₁.marketIndex) :=
        MarketsKeep.lockFor (o := applyOrderResidue o₁ base) hmove.marketsKeep hmarket a i
      rw [hhand]
      split_ifs with hs
      · exact hkeep
      · exact (residue_hidden hshown (Bool.eq_false_iff.mpr hs) a i _).symm
    show lockedOf v a i - lockedOf s a i = _
    rw [hlocked, hlock, hafter]
    ring
  | @store s t k o st hk hst h =>
    have hrows : t.book.orders = s.book.orders.put { o with status := st } := by
      have hopened := congrArg Core.orders (openOrder_ok h)
      split_ifs at hopened <;> exact hopened
    have hwas : ∀ o₁, s.book.orders.get o.orderIndex = some o₁ →
        o₁.shown (Desk.firedIndex ⟨s, some (k, o)⟩) = false := by
      intro o₁ ho₁
      cases k with
      | placing => cases (hd.fresh o rfl).symm.trans ho₁
      | fired =>
        have hidx : o₁.orderIndex = o.orderIndex := Table.key_of_get ho₁
        simp [Order.shown, Desk.firedIndex, hidx]
      | liquidating => exact absurd rfl hk
    refine ⟨_, .of_put hmove hr hr' hrows ?_ fun a i => ?_⟩
    · intro j hj
      cases k with
      | fired => simp [Desk.firedIndex, Ne.symm hj]
      | placing => exact Iff.rfl
      | liquidating => exact Iff.rfl
    · have hnone : lockAt s a i o.orderIndex = 0 := hr.rep.lockAt_hidden hwas
      have hmarkets : t.market.markets = s.market.markets :=
        (((openOrder_frame _).ok h).sidelined 0).markets
      show lockedOf t a i - lockedOf s a i = _ - lockAt s a i o.orderIndex
      rw [openOrder_locked h, hnone, ← hmarkets, sub_zero, add_sub_cancel_left]
      have hshown : Order.shown (Desk.firedIndex ⟨t, none⟩) { o with status := st }
          = st.isResting := by simp [Order.shown, Desk.firedIndex]
      rw [hshown]
  | @abandon s u o h =>
    obtain ⟨o₀, ho₀, -⟩ := hd.stored o rfl
    obtain ⟨hrows, hlocked⟩ := hr.abandon_locked hd hx hexact h
      (fun st e hst herr => hsafe.fits o u st e rfl hst herr rfl) ho₀
      (hsafe.cleanup o u o₀ rfl h rfl ho₀)
    have hidx : o₀.orderIndex = o.orderIndex := Table.key_of_get ho₀
    refine ⟨_, .of_hidden hmove hr hr' hrows ?_ hlocked ?_ rfl⟩
    · intro j hj
      have hne : o.orderIndex ≠ j := fun heq => hj (heq ▸ hidx.symm)
      simp [Desk.firedIndex, hne]
    · intro o₁ ho₁
      have hidx₁ : o₁.orderIndex = o.orderIndex := (Table.key_of_get ho₁).trans hidx
      simp [Order.shown, Desk.firedIndex, hidx₁]
  | release => exact ⟨0, .of_same hmove hr hr' rfl rfl fun _ _ => rfl⟩
  | @forced s t h =>
    have hbook : t.book = s.book := by rw [h.forced.frame]
    exact ⟨0, .of_same hmove hr hr' (congrArg BookStore.orders hbook) rfl
      fun a i => (SameSpot.of_forced h.forced).locked a i⟩
  | outside h =>
    exact ⟨0, .of_same hmove hr hr' (congrArg BookStore.orders h.book) rfl h.locks⟩

end Moves

section Runs

variable [AddressCodec]

/-- **In every run of safe moves the locked balances are what the resting spot orders lock, and each
move works on the lock of one order.** -/
theorem spot_locks_exact {s₀ : State} {d : Desk} (hfresh : FreshBook s₀)
    (hnone : ∀ a i, lockedOf s₀ a i = 0)
    (hrun : Relation.ReflTransGen (fun d d' => Move d d' ∧ LockSafe d d') ⟨s₀, none⟩ d) :
    LocksExact d.state ∧
      ∀ d', Move d d' → LockSafe d d' → ∃ j, MovesLock j d.state d'.state := by
  have hinv : d.Represented ∧ d.Sound ∧ d.Indexed (fun _ => 0) ∧ LocksExact d.state := by
    induction hrun with
    | refl =>
      refine ⟨hfresh.represented, .idle hfresh.inv, hfresh.indexed, fun a i => ?_⟩
      show lockedOf s₀ a i = spotLocks s₀ a i
      rw [hnone, spotLocks, hfresh.book]
      rfl
    | @tail d d' _ hstep ih =>
      obtain ⟨hr, hd, hx, hexact⟩ := ih
      obtain ⟨hr', hd', hx'⟩ := deskRun_represented (.single ⟨hstep.1, hstep.2.fits⟩) hr hd hx
      obtain ⟨j, hlock⟩ := hstep.1.movesLock hstep.2 hr hr' hd hx hexact
      exact ⟨hr', hd', hx', hlock.exact hexact⟩
  obtain ⟨hr, hd, hx, hexact⟩ := hinv
  refine ⟨hexact, fun d' h hsafe => ?_⟩
  obtain ⟨hr', -⟩ := deskRun_represented (.single ⟨h, hsafe.fits⟩) hr hd hx
  exact h.movesLock hsafe hr hr' hd hx hexact

end Runs

/-- A spot market for asset 1 against asset 2 with a maker fee.  Alice has 1000 to spend and 10 to
sell, Bob has 10 to sell. -/
def feeMarket : State where
  account := {
    accounts := (crowdedMarket {} 0).account.accounts
    accountAssets := Table.ofRows [{ accountIndex := 2, assetIndex := 2, balance := 1000 },
      { accountIndex := 2, assetIndex := 1, balance := 10 },
      { accountIndex := 3, assetIndex := 1, balance := 10 }] }
  market := {
    markets := Table.ofRows [{
      marketIndex := 0, marketType := .spot, baseAssetId := 1, quoteAssetId := 2
      makerFee := 2000 }]
    marketDetails := (crowdedMarket {} 0).market.marketDetails }

def aliceBids (price : ℕ) (h : price ≤ maxUint32) : MsgCreateOrder where
  sender := "alice"
  accountIndex := 2
  marketIndex := 0
  isAsk := false
  baseAmount := 10
  price := price
  expiry := 2000
  price_le := h

def bobSells : MsgCreateOrder where
  sender := "bob"
  accountIndex := 3
  marketIndex := 0
  isAsk := true
  timeInForce := .ioc
  baseAmount := 10
  price := 50

def aliceAsksTen : MsgCreateOrder where
  sender := "alice"
  accountIndex := 2
  marketIndex := 0
  isAsk := true
  baseAmount := 10
  price := 110
  expiry := 2000

def aliceStopsSelling : MsgCreateOrder where
  sender := "alice"
  accountIndex := 2
  marketIndex := 0
  isAsk := true
  orderType := .stopLossLimitOrder
  baseAmount := 10
  price := 90
  triggerPrice := 105
  expiry := 2000

/-- Alice's bid of 10 at 50 comes to rest, and locks 500. -/
theorem spot_locks_exact_one_bid :
    let _ := AddressCodec.acceptAll
    let bid := aliceBids 50 (by decide)
    let s := after (prepareOrder bid) feeMarket
    let t := after (openOrder { bid.toOrder 1 firstBidNonce with status := .opened }) s
    lockedOf t 2 2 = 500 ∧ LocksExact t := by
  intro _ bid s t
  have hprepare : (prepareOrder bid).run feeMarket = .ok
      ({ marketIndex := 0, marketType := .spot, baseAssetId := 1, quoteAssetId := 2
         makerFee := 2000 }, bid.toOrder 1 firstBidNonce) s := run_of_value (by decide +kernel)
  have hopen : (openOrder { bid.toOrder 1 firstBidNonce with status := .opened }).run s
      = .ok () t := run_of_succeeds (by decide +kernel)
  have hsettles : Settles (bid.toOrder 1 firstBidNonce) .opened :=
    ⟨by decide, by decide, fun _ => by decide⟩
  have hfresh : FreshBook feeMarket := .of_rows rfl (by decide +kernel)
  have hnone : ∀ a i, lockedOf feeMarket a i = 0 := by
    have hrows : ∀ r ∈ feeMarket.account.accountAssets.toList, r.lockedBalance = 0 := by
      decide +kernel
    intro a i
    rw [lockedOf, getAccountAsset]
    rcases hget : feeMarket.account.accountAssets.get (toLex (a, i)) with _ | r
    · rfl
    · exact hrows r (Table.mem_toList hget)
  -- there is nothing to trade with
  have hempty : peekBest 0 true s = none := by decide +kernel
  have haccept : LockSafe ⟨feeMarket, none⟩ ⟨s, some (.placing, bid.toOrder 1 firstBidNonce)⟩ :=
    ⟨fun _ _ _ _ h => by simp at h, fun _ _ _ _ _ h => by simp at h, fun _ _ _ h => by simp at h⟩
  have hstore : LockSafe ⟨s, some (.placing, bid.toOrder 1 firstBidNonce)⟩ ⟨t, none⟩ := by
    refine ⟨fun _ _ _ _ h => by simp at h, fun k o maker base market hhand h => ?_,
      fun _ _ _ h => by simp at h⟩
    obtain ⟨rfl, rfl⟩ : k = .placing ∧ o = bid.toOrder 1 firstBidNonce := by
      simpa [eq_comm] using hhand
    obtain @⟨u, o', isPerp, trade, hfound, -, -, -, -⟩ := h
    cases hempty.symm.trans hfound.best
  have hlocked : lockedOf t 2 2 = 500 := by decide +kernel
  have haccepted : Move ⟨feeMarket, none⟩ ⟨s, some (.placing, bid.toOrder 1 firstBidNonce)⟩ :=
    .accept hprepare rfl
  have hstored : Move ⟨s, some (.placing, bid.toOrder 1 firstBidNonce)⟩ ⟨t, none⟩ :=
    .store (by decide) hsettles hopen
  obtain ⟨hexact, -⟩ := spot_locks_exact hfresh hnone
    (.tail (.single ⟨haccepted, haccept⟩) ⟨hstored, hstore⟩)
  clear_value t
  exact ⟨hlocked, hexact⟩

/-- Bob sells into the first of two bids of Alice, and the fee of 1 is paid out of the lock of the
second one.  And of two orders of Alice to sell the same 10, one on the book and one a trigger that
cannot be placed, the cancellation of the second one releases the lock of the first. -/
theorem maker_fee_drains_lock :
    let _ := AddressCodec.acceptAll
    let s₁ := after (createOrder (aliceBids 50 (by decide))) feeMarket
    let s₂ := after (createOrder (aliceBids 40 (by decide))) s₁
    let s₃ := after (createOrder bobSells) s₂
    let t₁ := after (createOrder aliceAsksTen) feeMarket
    let t₂ := after (createOrder aliceStopsSelling) t₁
    let t₃ := after matchingEndBlocker t₂
    (succeeds (createOrder (aliceBids 50 (by decide))) feeMarket = true ∧
      succeeds (createOrder (aliceBids 40 (by decide))) s₁ = true ∧
      succeeds (createOrder bobSells) s₂ = true ∧ lockedOf s₂ 2 2 = 900 ∧
      spotLocks s₂ 2 2 = 900 ∧ lockedOf s₃ 2 2 = 399 ∧ spotLocks s₃ 2 2 = 400) ∧
    succeeds (createOrder aliceAsksTen) feeMarket = true ∧
      succeeds (createOrder aliceStopsSelling) t₁ = true ∧ succeeds matchingEndBlocker t₂ = true ∧
      lockedOf t₂ 2 1 = 10 ∧ spotLocks t₂ 2 1 = 10 ∧ lockedOf t₃ 2 1 = 0 ∧
      spotLocks t₃ 2 1 = 10 := by
  decide +kernel

end PerpDex
