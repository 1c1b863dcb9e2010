/-
What is left of a victim's orders when it is liquidated.

Main results: `clean_slate_iff`, `order_survives_liquidation`.

The limit on cancellations is one for messages of users.  The liquidation shares the function that
applies it and does not ask how many orders were cancelled.
-/
import PerpDex.ExactIndexes
import PerpDex.LiquidationFee

namespace PerpDex

open Txn

variable {s t u v : State} {victim m base i : ℕ} {o : Order}

/-! ### Cancelling a list of orders -/

/-- **Cancelling a list of orders closes these and leaves the others.** -/
theorem cancel_all_orders {l : List Order} {r : Unit}
    (h : (l.forM fun o => do let _ ← cancelOrder o.orderIndex : Tx Unit).run s = .ok r t) (j : ℕ) :
    t.book.orders.get j = if j ∈ l.map Order.orderIndex
      then (s.book.orders.get j).map fun o => { o with status := .cancelled }
      else s.book.orders.get j := by
  induction l generalizing s with
  | nil =>
    obtain ⟨-, rfl⟩ := run_pure_ok.mp h
    rfl
  | cons a rest ih =>
    obtain ⟨_, s₁, ha, hrest⟩ := run_bind_ok.mp h
    obtain ⟨o', s₂, hcancel, hpure⟩ := run_bind_ok.mp ha
    obtain ⟨-, rfl⟩ := run_pure_ok.mp hpure
    obtain ⟨o, ho, -, horders⟩ := cancelOrder_orders hcancel
    have hidx : o.orderIndex = a.orderIndex := Table.key_of_get ho
    have hget : s₁.book.orders.get j = if j = a.orderIndex
        then some { o with status := .cancelled } else s.book.orders.get j := by
      rw [horders, Table.get_put, hidx]
    rw [ih hrest, hget, List.map_cons]
    by_cases hj : j = a.orderIndex
    · subst hj
      simp [ho]
    · simp [hj]

/-! ### The orders that are cancelled -/

/-- The most orders that one message cancels. -/
def cancelLimit (s : State) : ℕ :=
  if s.matchingParams.maxCancelsPerMsg = 0 then 128 else s.matchingParams.maxCancelsPerMsg

/-- The live orders that are listed under an account, in the order of the list. -/
def listedOrders (s : State) (a : ℕ) : List Order :=
  (accountOpenOrdersOf s a 0).filter (·.status.isLive)

def cancelTargets (s : State) (a : ℕ) : List Order := (listedOrders s a).take (cancelLimit s)

/-- The account has no order that is open, partially filled or waiting for its trigger. -/
def NoLiveOrders (a : ℕ) (s : State) : Prop :=
  ∀ i o, s.book.orders.get i = some o → o.ownerAccountIndex = a → o.status.isLive = false

def liveOrdersOf (s : State) (a : ℕ) : List Order :=
  s.book.orders.toList.filter fun o => decide (o.ownerAccountIndex = a) && o.status.isLive

theorem mem_liveOrdersOf {a : ℕ} : o ∈ liveOrdersOf s a ↔
    s.book.orders.get o.orderIndex = some o ∧ o.ownerAccountIndex = a ∧ o.status.isLive = true := by
  simp [liveOrdersOf, Table.mem_toList_iff]

theorem mem_accountOpenOrdersOf {a : ℕ} : o ∈ accountOpenOrdersOf s a 0 ↔
    s.book.orders.get o.orderIndex = some o ∧
      ∃ m, s.book.accountOpenOrders.get (toLex (a, toLex (m, o.orderIndex))) = some () := by
  simp only [accountOpenOrdersOf, List.mem_filterMap, KVStore.range, List.mem_filter,
    beq_self_eq_true, Bool.true_or, Bool.and_true, beq_iff_eq]
  constructor
  · rintro ⟨⟨k, w⟩, ⟨hmem, rfl⟩, hget⟩
    have hidx : (ofLex (ofLex k).2).2 = o.orderIndex := (Table.key_of_get hget).symm
    rw [← hidx]
    exact ⟨hget, (ofLex (ofLex k).2).1, KVStore.mem_entries.mp hmem⟩
  · rintro ⟨hget, m, hlisted⟩
    exact ⟨(toLex (a, toLex (m, o.orderIndex)), ()), ⟨KVStore.mem_entries.mpr hlisted, rfl⟩, hget⟩

theorem mem_listedOrders {a : ℕ} : o ∈ listedOrders s a ↔
    s.book.orders.get o.orderIndex = some o ∧
      (∃ m, s.book.accountOpenOrders.get (toLex (a, toLex (m, o.orderIndex))) = some ()) ∧
      o.status.isLive = true := by
  rw [listedOrders, List.mem_filter, mem_accountOpenOrdersOf, and_assoc]

/-- The list of an account holds its live orders and nothing else. -/
def ListedExactly (s : State) (a : ℕ) : Prop :=
  ∀ m i, s.book.accountOpenOrders.get (toLex (a, toLex (m, i))) = some () ↔
    ∃ o, s.book.orders.get i = some o ∧ o.ownerAccountIndex = a ∧ o.marketIndex = m ∧
      o.status.isLive = true

theorem ListedExactly.key {a : ℕ} (h : ListedExactly s a) {k : ℕ ×ₗ ℕ ×ₗ ℕ}
    (hk : s.book.accountOpenOrders.get k = some ()) (ha : (ofLex k).1 = a)
    (ho : s.book.orders.get (ofLex (ofLex k).2).2 = some o) :
    k = toLex (a, toLex (o.marketIndex, o.orderIndex)) := by
  obtain ⟨o', ho', -, hm, -⟩ := (h (ofLex (ofLex k).2).1 (ofLex (ofLex k).2).2).mp (by
    rw [← ha]
    exact hk)
  cases ho.symm.trans ho'
  rw [hm, Table.key_of_get ho, ← ha]
  rfl

theorem ListedExactly.nodup {a : ℕ} (h : ListedExactly s a) : (listedOrders s a).Nodup := by
  refine List.Nodup.filter _ (List.pairwise_filterMap.mpr ?_)
  refine (s.book.accountOpenOrders.sorted.filter _).imp_of_mem ?_
  rintro ⟨k, w⟩ ⟨k', w'⟩ hk hk' hlt o ho o' ho' rfl
  simp only [List.mem_filter, Bool.and_eq_true, beq_iff_eq] at hk hk'
  have heq := h.key (KVStore.mem_entries.mp hk.1) hk.2.1 ho
  have heq' := h.key (KVStore.mem_entries.mp hk'.1) hk'.2.1 ho'
  rw [heq, heq'] at hlt
  exact lt_irrefl _ hlt

theorem ListedExactly.perm {a : ℕ} (h : ListedExactly s a) :
    (listedOrders s a).Perm (liveOrdersOf s a) := by
  refine (List.perm_ext_iff_of_nodup h.nodup (s.book.orders.nodup_toList.filter _)).mpr fun o => ?_
  rw [mem_listedOrders]
  refine Iff.trans ?_ mem_liveOrdersOf.symm
  constructor
  · rintro ⟨ho, ⟨m, hlisted⟩, hlive⟩
    obtain ⟨o', ho', howner, -⟩ := (h m o.orderIndex).mp hlisted
    cases ho.symm.trans ho'
    exact ⟨ho, howner, hlive⟩
  · rintro ⟨ho, howner, hlive⟩
    exact ⟨ho, ⟨o.marketIndex, (h _ _).mpr ⟨o, ho, howner, rfl, hlive⟩⟩, hlive⟩

theorem subset_take_iff {α : Type} {l : List α} (hl : l.Nodup) (n : ℕ) :
    l ⊆ l.take n ↔ l.length ≤ n := by
  constructor
  · intro h
    have hle := (List.subperm_of_subset hl h).length_le
    rw [List.length_take] at hle
    omega
  · intro h
    rw [List.take_of_length_le h]
    exact List.Subset.refl l

/-! ### Liquidations -/

/-- The liquidation of `base` passes its checks, cancels orders of the victim, and submits its order in
the state `v`. -/
structure Submits (victim m base : ℕ) (s v : State) : Prop where
  checked : ∃ snap, getZeroPriceSnapshot victim m s = .ok snap ∧ snap.position.baseSize ≠ 0 ∧
    healthEnvelopeFor victim m snap.position.marginMode s = .ok .partialLiquidation ∧ base ≠ 0 ∧
    ¬ (base : ℤ) > |snap.position.baseSize|
  cancelled : (cancelAllOpenOrdersForAccount victim).run s = .ok () v
  market : ∃ market, getMarket m v = .ok market

theorem Submits.run (h : Submits victim m base s v) : ∃ zeroPrice fee,
    (liquidatePosition victim m base).run s = (matchLiquidationOrder victim m zeroPrice base fee
      insuranceFundOperatorAccountIdx >>= fun _ => pure ()).run v := by
  obtain ⟨⟨snap, hsnap, hsize, hstatus, hbase, hle⟩, hcancelled, market, hmarket⟩ := h
  refine ⟨snap.zeroPrice, market.liquidationFee, ?_⟩
  rw [liquidatePosition, run_bind_read, hsnap]
  dsimp only
  rw [Txn.require, if_pos hsize, pure_bind, run_bind_read, hstatus]
  dsimp only
  rw [Txn.require, if_pos rfl, pure_bind, Txn.require, if_pos hbase, pure_bind, Txn.require,
    if_pos hle, pure_bind, EStateM.run_bind, hcancelled]
  dsimp only
  rw [run_bind_read, hmarket]

theorem Submits.orders (h : Submits victim m base s v) (j : ℕ) :
    v.book.orders.get j = if j ∈ (cancelTargets s victim).map Order.orderIndex
      then (s.book.orders.get j).map fun o => { o with status := .cancelled }
      else s.book.orders.get j := by
  have hrun := h.cancelled
  simp only [cancelAllOpenOrdersForAccount, cancelOpenOrders, run_bind_read_ok,
    Except.ok.injEq] at hrun
  obtain ⟨params, rfl, targets, rfl, hrun⟩ := hrun
  exact cancel_all_orders hrun j

theorem mem_cancelTargets (h : o ∈ cancelTargets s victim) :
    s.book.orders.get o.orderIndex = some o :=
  (mem_listedOrders.mp (List.mem_of_mem_take h)).1

/-- **A clean slate.**  When a liquidation submits its order, the victim has no live order left if and
only if each of them could be cancelled; and, if its orders are listed exactly, if and only if it had
no more of them than one message may cancel. -/
theorem clean_slate_iff (h : Submits victim m base s v) :
    (NoLiveOrders victim v ↔ liveOrdersOf s victim ⊆ cancelTargets s victim) ∧
      (ListedExactly s victim →
        (NoLiveOrders victim v ↔ (liveOrdersOf s victim).length ≤ cancelLimit s)) := by
  have hiff : NoLiveOrders victim v ↔ liveOrdersOf s victim ⊆ cancelTargets s victim := by
    constructor
    · intro hnone o ho
      obtain ⟨hget, howner, hlive⟩ := mem_liveOrdersOf.mp ho
      by_contra hnot
      have hsame : v.book.orders.get o.orderIndex = some o := by
        rw [h.orders, if_neg, hget]
        intro hmem
        obtain ⟨o', ho', hidx⟩ := List.mem_map.mp hmem
        have hget' := mem_cancelTargets ho'
        rw [hidx, hget, Option.some_inj] at hget'
        exact hnot (hget' ▸ ho')
      rw [hnone _ o hsame howner] at hlive
      cases hlive
    · intro hall i o ho howner
      rw [h.orders] at ho
      split_ifs at ho with hmem
      · obtain ⟨o', -, rfl⟩ := Option.map_eq_some_iff.mp ho
        rfl
      · by_contra hlive
        have hidx : o.orderIndex = i := Table.key_of_get ho
        refine hmem (List.mem_map.mpr ⟨o, hall (mem_liveOrdersOf.mpr ⟨?_, howner, ?_⟩), hidx⟩)
        · rw [hidx]
          exact ho
        · simpa using hlive
  refine ⟨hiff, fun hexact => ?_⟩
  have hperm := hexact.perm
  rw [hiff, ← hperm.length_eq, ← subset_take_iff hexact.nodup]
  exact ⟨fun hsub o ho => hsub (hperm.subset ho), fun hsub o ho => hsub (hperm.symm.subset ho)⟩

/-- The first user offers 10 units at a price. -/
def aliceOffers (price : ℕ) (h : price ≤ maxUint32) : MsgCreateOrder where
  sender := "alice"
  accountIndex := 2
  marketIndex := 0
  isAsk := true
  baseAmount := 10
  price := price
  expiry := 1000
  price_le := h

/-- Two offers of the first user rest when the price falls, and a message may cancel `limit`
orders. -/
def offersRest (limit : ℕ) : State :=
  let _ := AddressCodec.acceptAll
  let s := Txn.after (createOrder (aliceOffers 131 (by decide)))
    (Txn.after (createOrder (aliceOffers 130 (by decide))) beforeFall)
  { s.putDetails { detailsOf s 0 with markPrice := 100 } with
    matchingParams := { s.matchingParams with maxCancelsPerMsg := limit } }

/-- The state in which the liquidation of 50 units of the first user submits its order. -/
def offersCancelled (limit : ℕ) : State :=
  Txn.after (cancelAllOpenOrdersForAccount 2) (offersRest limit)

theorem Submits.of_values (hsnap : (getZeroPriceSnapshot victim m s).toOption.isSome = true)
    (hstatus : healthEnvelopeFor victim m (getPosition s victim m).marginMode s
      = .ok .partialLiquidation) (hbase : base ≠ 0)
    (hle : (base : ℤ) ≤ |(getPosition s victim m).baseSize|)
    (hcancelled : succeeds (cancelAllOpenOrdersForAccount victim) s = true)
    (hmarket : (getMarket m (after (cancelAllOpenOrdersForAccount victim) s)).toOption.isSome = true) :
    Submits victim m base s (after (cancelAllOpenOrdersForAccount victim) s) := by
  cases hget : getZeroPriceSnapshot victim m s with
  | error e => simp [hget, Except.toOption] at hsnap
  | ok snap =>
    have hpos := getZeroPriceSnapshot_position hget
    refine ⟨⟨snap, hget, ?_, by rw [hpos]; exact hstatus, hbase, ?_⟩, run_of_succeeds hcancelled, ?_⟩
    · intro hzero
      rw [hpos] at hzero
      rw [hzero, abs_zero] at hle
      omega
    · rw [hpos]
      exact not_lt.mpr hle
    · cases hm : getMarket m (after (cancelAllOpenOrdersForAccount victim) s) with
      | error e => simp [hm, Except.toOption] at hmarket
      | ok market => exact ⟨market, rfl⟩

/-- With a limit of 2 both offers are cancelled. -/
theorem clean_slate_two_offers :
    Submits 2 0 50 (offersRest 2) (offersCancelled 2) ∧ (liveOrdersOf (offersRest 2) 2).length = 2 ∧
      NoLiveOrders 2 (offersCancelled 2) := by
  have hsubmits : Submits 2 0 50 (offersRest 2) (offersCancelled 2) :=
    .of_values (by decide +kernel) (by decide +kernel) (by decide) (by decide +kernel)
      (by decide +kernel) (by decide +kernel)
  have hall : liveOrdersOf (offersRest 2) 2 = cancelTargets (offersRest 2) 2 := by decide +kernel
  exact ⟨hsubmits, by decide +kernel, (clean_slate_iff hsubmits).1.mpr (hall ▸ List.Subset.refl _)⟩

/-- **An order that is left.**  With a limit of 1 the second offer is still on the book when the
liquidation submits its order. -/
theorem order_survives_liquidation :
    let _ := AddressCodec.acceptAll
    Submits 2 0 50 (offersRest 1) (offersCancelled 1) ∧
      (liveOrdersOf (offersCancelled 1) 2).map (fun o => (o.orderIndex, o.status)) = [(2, .opened)] ∧
      ¬ NoLiveOrders 2 (offersCancelled 1) ∧
      succeeds (liquidate ⟨"keeper", 2, 0, 50⟩) (offersRest 1) = true := by
  intro _
  have hleft : (liveOrdersOf (offersCancelled 1) 2).map (fun o => (o.orderIndex, o.status))
      = [(2, .opened)] := by decide +kernel
  refine ⟨.of_values (by decide +kernel) (by decide +kernel) (by decide) (by decide +kernel)
    (by decide +kernel) (by decide +kernel), hleft, fun hnone => ?_, by decide +kernel⟩
  obtain ⟨o, ho, -⟩ : ∃ o ∈ liveOrdersOf (offersCancelled 1) 2, (o.orderIndex, o.status) = (2, .opened) :=
    List.mem_map.mp (hleft ▸ List.mem_singleton.mpr rfl)
  obtain ⟨hget, howner, hlive⟩ := mem_liveOrdersOf.mp ho
  rw [hnone _ o hget howner] at hlive
  cases hlive

end PerpDex
