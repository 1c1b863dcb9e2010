/-
The secondary indexes of the orders are exact in every run.

Main results: `indexes_exact`, `crowded_price_hides_expiry`.

The indexes follow the status of an order and not its entry.  Only an activated trigger is off the expiry
index while it is live, and it stays so if neither storing nor cancelling it succeeds.
-/
import PerpDex.Desk
import PerpDex.ExactIndexes
import PerpDex.PageEffects

namespace PerpDex

open Txn

variable {x x' : Indexes} {fired fired' : Option ℕ} {o o' r : Order}

/-! ### The life cycle -/

variable {s t : State} {e : Err}

theorem cancelOrder_exact {i : ℕ} (hx : (indexesOf s).Exact fired)
    (hfired : ∀ j, j ≠ i → (fired' = some j ↔ fired = some j))
    (h : (cancelOrder i).run s = .ok o' t) :
    (indexesOf t).Exact fired' ∧ (indexesOf s).Shed (indexesOf t) := by
  obtain ⟨o, ho, hlive, hx'⟩ := cancelOrder_indexes hx.tallied.counted h
  have hidx : o.orderIndex = i := Table.key_of_get ho
  constructor
  · exact hx.closed (r := { o with status := .cancelled }) (by rwa [← hidx] at ho) hlive rfl hx'
      fun j hj => hfired j (hidx ▸ hj)
  · rw [hx', Indexes.close]
    have hshed := (indexesOf s).unmark_put_shed o o
    split
    · exact ⟨hshed.clients, hshed.counts⟩
    · exact ⟨hshed.clients, hshed.counts⟩

theorem evictMakerOrder_exact {i : ℕ} (hx : (indexesOf s).Exact fired)
    (ho : (indexesOf s).orders.get i = some o) (hst : o.status.isResting = true) :
    (indexesOf (after (evictMakerOrder i .cancelled) s)).Exact fired ∧
      (indexesOf s).Shed (indexesOf (after (evictMakerOrder i .cancelled) s)) := by
  cases h : (evictMakerOrder i .cancelled).run s with
  | error e t =>
    rw [after_of_error h, evictMakerOrder_indexes_error hx.tallied.counted h]
    exact ⟨hx, .refl _⟩
  | ok o' t =>
    obtain ⟨o₁, ho₁, hx'⟩ := evictMakerOrder_indexes hx.tallied.counted h
    obtain rfl : o₁ = o := Option.some.inj (ho₁.symm.trans ho)
    have hidx : o₁.orderIndex = i := Table.key_of_get ho
    rw [after_of_ok h]
    constructor
    · refine hx.closed (r := { o₁ with status := .cancelled }) (by rwa [← hidx] at ho)
        (OrderStatus.isLive_of_isResting hst) rfl ?_ fun _ _ => Iff.rfl
      rw [if_neg (OrderStatus.not_pending_of_isResting hst), hx']
      rfl
    · rw [hx']
      exact (indexesOf s).unmark_put_shed o₁ _

theorem fillMakerOrder_exact {i base : ℕ} (hx : (indexesOf s).Exact fired)
    (ho : (indexesOf s).orders.get i = some o) (hst : o.status.isResting = true)
    (h : (fillMakerOrder i base).run s = .ok o' t) :
    (indexesOf t).Exact fired ∧ (indexesOf s).Shed (indexesOf t) := by
  obtain ⟨o₁, ho₁, rfl, hx'⟩ := fillMakerOrder_indexes hx.tallied.counted h
  obtain rfl : o₁ = o := Option.some.inj (ho₁.symm.trans ho)
  have hidx : o₁.orderIndex = i := Table.key_of_get ho
  have hrow : (indexesOf s).orders.get o₁.orderIndex = some o₁ := by rwa [hidx]
  have hlive := OrderStatus.isLive_of_isResting hst
  have hpending := OrderStatus.not_pending_of_isResting hst
  split at hx'
  · rename_i hzero
    have hfilled : (applyOrderResidue o₁ base).status = .filled := if_pos hzero
    have hunmark : (((indexesOf s).unindexClient o₁).delist o₁).removeExpiry o₁
        = (indexesOf s).unmark o₁ := by rw [hx.unindexClient_eq hrow hlive, Indexes.unmark]
    rw [hunmark] at hx'
    constructor
    · refine hx.closed (r := applyOrderResidue o₁ base) hrow hlive (by rw [hfilled]; rfl) ?_
        fun _ _ => Iff.rfl
      rw [if_neg hpending, hx']
    · rw [hx']
      exact (indexesOf s).unmark_put_shed o₁ _
  · rename_i hrest
    have hpart : (applyOrderResidue o₁ base).status = .partiallyFilled := if_neg hrest
    have hkeys : (applyOrderResidue o₁ base).SameKeys o₁ := ⟨rfl, rfl, rfl, rfl, rfl⟩
    have hlive' : (applyOrderResidue o₁ base).status.isLive = o₁.status.isLive := by
      rw [hpart, hlive]
      rfl
    rw [hx']
    refine ⟨hx.relabelled (r := applyOrderResidue o₁ base) hrow (openEntry_congr hkeys hlive')
      (clientEntry_congr hkeys hlive') ?_ ?_, ⟨fun _ h => h, fun _ => le_rfl⟩⟩
    · simp [triggerEntry, hpart, hpending]
    · simp only [expiryEntry, hlive']
      rfl

/-! ### The desk -/

/-- The trigger that is in hand. -/
def Desk.firedIndex (d : Desk) : Option ℕ :=
  match d.hand with
  | some (.fired, o) => some o.orderIndex
  | _ => none

/-- The indexes are exact, no account has more open orders in a market than `caps` allows, and the
order of a message in hand can still be listed: its client order id is free, and so is a slot if it may
come to rest. -/
structure Desk.Indexed (caps : ℕ → ℕ) (d : Desk) : Prop where
  exact : (indexesOf d.state).Exact d.firedIndex
  capped : ∀ a m, 0 < caps m → ((indexesOf d.state).counts.get (toLex (a, m))).getD 0 ≤ caps m
  unique : ∀ o, d.hand = some (.placing, o) → o.clientOrderIndex ≠ 0 →
    (indexesOf d.state).clients.get o.clientKey = none
  slot : ∀ o, d.hand = some (.placing, o) → o.timeInForce ≠ .ioc → 0 < caps o.marketIndex →
    (indexesOf d.state).countOf o < caps o.marketIndex

/-- Whenever a fired trigger is abandoned, the cancellation that cleans up succeeds. -/
def CleansUp (d d' : Desk) : Prop :=
  ∀ o u, d.hand = some (.fired, o) → Unplaced o d.state u →
    d' = ⟨after (cancelOrder o.orderIndex) u, none⟩ →
    succeeds (cancelOrder o.orderIndex) u = true

/-- The markets for which `caps` sets a cap have it. -/
def FixedCaps (caps : ℕ → ℕ) (s : State) : Prop :=
  ∀ m market, getMarket m s = .ok market → 0 < caps m → market.maxOpenOrdersPerAccount = caps m

variable {caps : ℕ → ℕ} {k : Task}

theorem FixedCaps.of_rows (h : ∀ market ∈ s.market.markets.toList, 0 < caps market.marketIndex →
      market.maxOpenOrdersPerAccount = caps market.marketIndex) : FixedCaps caps s := by
  intro m market hmarket hm
  have hget := getMarket_eq_ok.mp hmarket
  obtain rfl : market.marketIndex = m := Table.key_of_get hget
  exact h market (Table.mem_toList hget) hm

theorem FreshBook.indexed (h : FreshBook s) : Desk.Indexed caps ⟨s, none⟩ := by
  have hempty : indexesOf s = ⟨Table.empty, KVStore.empty, KVStore.empty, KVStore.empty,
      KVStore.empty, KVStore.empty⟩ := by rw [indexesOf, h.book]
  refine ⟨?_, ?_, fun o ho => by simp at ho, fun o ho => by simp at ho⟩
  · rw [hempty]
    exact ⟨.empty, ⟨.empty, fun k n hn => by simp at hn⟩, .empty, .empty, .empty⟩
  · rw [hempty]
    exact fun a m _ => Nat.zero_le _

theorem Desk.Indexed.idle {d : Desk} (h : d.Indexed caps) (hexact : (indexesOf t).Exact none)
    (hshed : (indexesOf d.state).Shed (indexesOf t)) : Desk.Indexed caps ⟨t, none⟩ where
  exact := hexact
  capped a m hm := (hshed.counts _).trans (h.capped a m hm)
  unique o ho := by simp at ho
  slot o ho := by simp at ho

theorem Desk.Indexed.swept (h : Desk.Indexed caps ⟨s, some (k, o)⟩) {b : ℕ}
    (hexact : (indexesOf t).Exact (Desk.firedIndex ⟨s, some (k, o)⟩))
    (hshed : (indexesOf s).Shed (indexesOf t)) :
    Desk.Indexed caps ⟨t, some (k, { o with remainingBaseAmount := b })⟩ where
  exact := by cases k <;> exact hexact
  capped a m hm := (hshed.counts _).trans (h.capped a m hm)
  unique o₁ ho₁ hc := by
    cases ho₁
    exact hshed.clients _ (h.unique o rfl hc)
  slot o₁ ho₁ htif hm := by
    cases ho₁
    exact (hshed.counts _).trans_lt (h.slot o rfl htif hm)

theorem Indexes.enlist_capped
    (h : ∀ a m, 0 < caps m → (x.counts.get (toLex (a, m))).getD 0 ≤ caps m)
    (hroom : 0 < caps o.marketIndex → x.openOrders.has o.accountOpenOrderKey = true ∨
      x.countOf o < caps o.marketIndex) (a m : ℕ) (hm : 0 < caps m) :
    ((x.enlist o).counts.get (toLex (a, m))).getD 0 ≤ caps m := by
  unfold Indexes.enlist
  by_cases hhas : x.openOrders.has o.accountOpenOrderKey = true
  · simp only [hhas, if_true]
    exact h a m hm
  · simp only [hhas, Bool.false_eq_true, if_false]
    by_cases hk : toLex (a, m) = o.countKey
    · have hmarket : m = o.marketIndex := (Prod.mk.inj (toLex.injective hk)).2
      rw [hk, get_writeCount, hmarket]
      rw [hmarket] at hm
      exact (hroom hm).resolve_left hhas
    · rw [get_writeCount_ne _ _ _ hk]
      exact h a m hm

theorem Desk.Indexed.opened {d : Desk} (h : d.Indexed caps) (hexact : (indexesOf t).Exact none)
    (hcounts : (indexesOf t).counts = ((indexesOf d.state).enlist o).counts)
    (hroom : 0 < caps o.marketIndex →
      (indexesOf d.state).openOrders.has o.accountOpenOrderKey = true ∨
        (indexesOf d.state).countOf o < caps o.marketIndex) : Desk.Indexed caps ⟨t, none⟩ where
  exact := hexact
  capped := hcounts ▸ Indexes.enlist_capped h.capped hroom
  unique o ho := by simp at ho
  slot o ho := by simp at ho

theorem Indexes.Exact.client_free {m a c : ℕ} (h : (indexesOf s).Exact fired)
    (hfree : hasOpenClientOrder m a c s = false) (hc : c ≠ 0) :
    (indexesOf s).clients.get (toLex (m, toLex (a, c))) = none := by
  rcases hget : (indexesOf s).clients.get (toLex (m, toLex (a, c))) with _ | i
  · rfl
  · obtain ⟨o, ho, he⟩ := (h.clients.exact _ _).mp hget
    unfold clientEntry at he
    split at he
    · rename_i hlive
      obtain rfl : o.orderIndex = i := (Prod.mk.inj (Option.some.inj he)).2
      have hget' : s.book.userOrderIndex.get (toLex (m, toLex (a, c))) = some o.orderIndex := hget
      have ho' : s.book.orders.get o.orderIndex = some o := ho
      simp only [hasOpenClientOrder, if_neg hc, hget', ho', hlive.1, reduceCtorEq] at hfree
    · cases he

theorem Desk.Sound.sameKeys (hd : Desk.Sound ⟨s, some (.fired, o)⟩) :
    ∃ o₀, (indexesOf s).orders.get o.orderIndex = some o₀ ∧ o₀.status = .opened ∧
      o₀.SameKeys o := by
  obtain ⟨o₀, ho₀, hst, -, b, -, hshrunk⟩ := hd.stored o rfl
  obtain ⟨ty, tif, p, -, htwin⟩ := executableTwin_eq o₀
  rw [htwin] at hshrunk
  refine ⟨o₀, ho₀, hst, ?_⟩
  rw [hshrunk]
  exact ⟨rfl, rfl, rfl, rfl, rfl⟩

theorem Indexes.unmark_congr (x : Indexes) (h : o.SameKeys o') : x.unmark o = x.unmark o' := by
  obtain ⟨hindex, howner, hmarket, hclient, hexpiry⟩ := h
  cases o
  cases o'
  simp only at hindex howner hmarket hclient hexpiry
  subst hindex howner hmarket hclient hexpiry
  rfl

theorem Desk.Sound.listed (hd : Desk.Sound ⟨s, some (.fired, o)⟩)
    (hx : (indexesOf s).Exact fired) :
    (indexesOf s).openOrders.get o.accountOpenOrderKey = some () := by
  obtain ⟨o₀, ho₀, hst, hkeys⟩ := hd.sameKeys
  have hlive : o₀.status.isLive = true := by
    rw [hst]
    rfl
  have he : openEntry o₀ = some (o.accountOpenOrderKey, ()) := by
    simp only [openEntry, hlive, Order.accountOpenOrderKey, hkeys.index, hkeys.owner, hkeys.market,
      if_true]
  exact hx.openOrders.get (by rwa [hkeys.index]) he

theorem Desk.Indexed.store_placing {st : OrderStatus} {u : Unit}
    (h : Desk.Indexed caps ⟨s, some (.placing, o)⟩) (hd : Desk.Sound ⟨s, some (.placing, o)⟩)
    (hst : Settles o st) (hrun : (openOrder { o with status := st }).run s = .ok u t) :
    Desk.Indexed caps ⟨t, none⟩ := by
  have hx := openOrder_indexes h.exact.tallied.counted hrun
  have hrow : (indexesOf s).orders.get o.orderIndex = none := hd.fresh o rfl
  by_cases hresting : st.isResting = true
  · rw [if_pos hresting] at hx
    obtain ⟨hx, hword⟩ := hx
    have hnew : Indexes.Exact (indexesOf t) none := by
      refine h.exact.opened (o := { o with status := st })
        (OrderStatus.isLive_of_isResting hresting) ?_ ?_ ?_ hword (fun _ _ => Iff.rfl) (by simp)
      · rw [if_neg (OrderStatus.not_pending_of_isResting hresting)]
        exact hx
      · intro o₀ ho₀
        rw [hrow] at ho₀
        cases ho₀
      · exact fun _ hc => h.unique o rfl hc
    exact h.opened (o := { o with status := st }) hnew (by rw [hx]; rfl)
      fun hm => .inr (h.slot o rfl (hst.rests hresting) hm)
  · rw [if_neg hresting] at hx
    have hend := hst.not_live hresting
    have hnew := h.exact.dismissed (o := { o with status := st }) hrow hend
    refine h.idle (hx ▸ hnew) ?_
    rw [hx]
    exact (indexesOf s).unmark_put_shed _ _

theorem Desk.Indexed.store_fired {st : OrderStatus} {u : Unit}
    (h : Desk.Indexed caps ⟨s, some (.fired, o)⟩) (hd : Desk.Sound ⟨s, some (.fired, o)⟩)
    (hst : Settles o st) (hrun : (openOrder { o with status := st }).run s = .ok u t) :
    Desk.Indexed caps ⟨t, none⟩ := by
  have hx := openOrder_indexes h.exact.tallied.counted hrun
  have hexact : (indexesOf s).Exact (some o.orderIndex) := h.exact
  have hfired : ∀ i, i ≠ o.orderIndex → (none = some i ↔ some o.orderIndex = some i) := by
    intro i hi
    simpa using Ne.symm hi
  obtain ⟨o₀, ho₀, hst₀, hkeys⟩ := hd.sameKeys
  have hkeys' : o₀.SameKeys { o with status := st } :=
    ⟨hkeys.index, hkeys.owner, hkeys.market, hkeys.client, hkeys.expiry⟩
  by_cases hresting : st.isResting = true
  · rw [if_pos hresting] at hx
    obtain ⟨hx, hword⟩ := hx
    have hnew : Indexes.Exact (indexesOf t) none := by
      refine hexact.opened (o := { o with status := st })
        (OrderStatus.isLive_of_isResting hresting) ?_ ?_ ?_ hword hfired (by simp)
      · rw [if_neg (OrderStatus.not_pending_of_isResting hresting)]
        exact hx
      · intro o₁ ho₁
        cases ho₀.symm.trans ho₁
        exact ⟨hst₀, hkeys', rfl⟩
      · intro hnone
        have hnone : (indexesOf s).orders.get o.orderIndex = none := hnone
        rw [ho₀] at hnone
        cases hnone
    refine h.opened (o := { o with status := st }) hnew (by rw [hx]; rfl) fun _ => .inl ?_
    exact KVStore.has_eq_true.mpr ⟨(), hd.listed hexact⟩
  · rw [if_neg hresting, ← Indexes.unmark_congr _ hkeys'] at hx
    have hend := hst.not_live hresting
    refine h.idle (hexact.closed (r := { o with status := st }) ho₀ (by rw [hst₀]; rfl) hend ?_
      hfired) ?_
    · rw [hx, hst₀]
      rfl
    · rw [hx]
      exact (indexesOf s).unmark_put_shed _ _

theorem Desk.Indexed.abandon {u : State} (h : Desk.Indexed caps ⟨s, some (.fired, o)⟩)
    (hd : Desk.Sound ⟨s, some (.fired, o)⟩) (hun : Unplaced o s u)
    (hclean : succeeds (cancelOrder o.orderIndex) u = true) :
    Desk.Indexed caps ⟨after (cancelOrder o.orderIndex) u, none⟩ := by
  have hexact : (indexesOf s).Exact (some o.orderIndex) := h.exact
  have hsame : indexesOf u = indexesOf s := by
    rcases hun with rfl | ⟨st, e, -, hrun⟩
    · rfl
    · exact openOrder_indexes_error (o := { o with status := st }) hexact.tallied.counted
        (hd.listed hexact) hrun
  cases hcancel : (cancelOrder o.orderIndex).run u with
  | error e t =>
    rw [Txn.succeeds, hcancel] at hclean
    cases hclean
  | ok o' t =>
    rw [← hsame] at hexact
    obtain ⟨hnew, hshed⟩ := cancelOrder_exact hexact
      (fun i hi => show none = some i ↔ _ by simpa using Ne.symm hi) hcancel
    rw [after_of_ok hcancel]
    exact h.idle hnew (hsame ▸ hshed)

section Moves

variable [AddressCodec]

theorem prepareOrder_indexes (msg : MsgCreateOrder) : Keeps SameIndexes (prepareOrder msg) :=
  prepareOrder_keeps (fun _ _ => rfl) (allocateNonce_keeps fun _ _ _ _ _ => rfl) msg

theorem prepareOrder_pages (msg : MsgCreateOrder) : Keeps SamePages (prepareOrder msg) :=
  prepareOrder_keeps (fun _ _ => rfl) (allocateNonce_keeps fun _ _ _ _ _ => rfl) msg

theorem Desk.Indexed.prepared {msg : MsgCreateOrder} {prepared : Market × Order}
    (h : Desk.Indexed caps ⟨s, none⟩) (hcaps : FixedCaps caps s)
    (hrun : (prepareOrder msg).run s = .ok prepared t) :
    indexesOf t = indexesOf s ∧
      (prepared.2.clientOrderIndex ≠ 0 →
        (indexesOf s).clients.get prepared.2.clientKey = none) ∧
      (willConsumeOpenSlot msg = true → 0 < caps prepared.2.marketIndex →
        (indexesOf s).countOf prepared.2 < caps prepared.2.marketIndex) := by
  obtain ⟨hadm, next, -, -, horder, -⟩ := prepareOrder_ok hrun
  refine ⟨(prepareOrder_indexes msg).ok hrun, ?_, ?_⟩
  · rw [horder]
    exact fun hc => h.exact.client_free hadm.unique hc
  · rw [horder]
    intro hconsume hm
    have hcap := hcaps msg.marketIndex prepared.1 hadm.stored hm
    have hslot := hadm.slot
    rw [hcap] at hslot
    exact not_le.mp fun hle => hslot ⟨hm, hconsume, hle⟩

/-- **Every move keeps the indexes exact**, if the cancellation of an abandoned trigger does not
fail. -/
theorem Move.indexed {d d' : Desk} (h : Move d d') (hclean : CleansUp d d')
    (hcaps : FixedCaps caps d.state) (hd : d.Sound) (hx : d.Indexed caps) :
    d'.Indexed caps := by
  cases h with
  | @cancel s i =>
    cases hrun : (cancelOrder i).run s with
    | ok o t =>
      obtain ⟨hnew, hshed⟩ := cancelOrder_exact hx.exact (fun _ _ => Iff.rfl) hrun
      rw [after_of_ok hrun]
      exact hx.idle hnew hshed
    | error e t =>
      have hsame := cancelOrder_indexes_error hx.exact.tallied.counted hrun
      rw [after_of_error hrun]
      exact hx.idle (hsame ▸ hx.exact) (hsame ▸ .refl _)
  | @accept s t msg prepared h htype =>
    obtain ⟨hsame, hclient, hslot⟩ := hx.prepared hcaps h
    have horder := (prepareOrder_ok h).2.choose_spec.2.2.1
    refine ⟨hsame ▸ hx.exact, hsame ▸ hx.capped, fun o ho hc => ?_, fun o ho htif hm => ?_⟩
    · obtain ⟨-, rfl⟩ := Prod.mk.inj (Option.some.inj ho)
      exact hsame ▸ hclient hc
    · obtain ⟨-, rfl⟩ := Prod.mk.inj (Option.some.inj ho)
      have hconsume : willConsumeOpenSlot msg = true := by
        rw [horder] at htif
        simp only [willConsumeOpenSlot, Bool.or_eq_true, decide_eq_true_eq]
        exact .inr htif
      exact hsame ▸ hslot hconsume hm
  | @park s s₁ t msg prepared h htype hpark =>
    obtain ⟨hsame, hclient, hslot⟩ := hx.prepared hcaps h
    obtain ⟨-, next, -, -, horder, -⟩ := prepareOrder_ok h
    obtain ⟨hx', hword⟩ := openTriggerOrder_indexes hpark
    rw [hsame] at hx' hword
    have hrow : (indexesOf s).orders.get prepared.2.orderIndex = none := by
      rw [horder]
      exact hd.inv.order_fresh le_rfl
    have hnew : Indexes.Exact (indexesOf t) none := by
      refine hx.exact.opened (o := { prepared.2 with status := .triggeredPending }) rfl hx' ?_
        (fun _ hc => hclient hc) hword (fun _ _ => Iff.rfl) (by simp)
      intro o₀ ho₀
      rw [hrow] at ho₀
      cases ho₀
    have hconsume : willConsumeOpenSlot msg = true := by
      simp [willConsumeOpenSlot, htype]
    exact hx.opened (o := { prepared.2 with status := .triggeredPending }) hnew
      (by rw [hx']; rfl) fun hm => .inr (hslot hconsume hm)
  | @activate s t i o o' ho hst hrem h =>
    obtain ⟨o₁, ho₁, rfl, hx'⟩ := activateTrigger_indexes h
    cases ho.symm.trans ho₁
    have hidx : o.orderIndex = i := Table.key_of_get ho
    have hnew := hx.exact.activated (o := o) (by rwa [hidx]) hst
    rw [← hx'] at hnew
    obtain ⟨ty, tif, p, -, htwin⟩ := executableTwin_eq { o with status := .opened }
    refine ⟨?_, ?_, fun o₁ ho₁ => by simp at ho₁, fun o₁ ho₁ => by simp at ho₁⟩
    · rw [htwin]
      exact hnew
    · rw [hx']
      exact hx.capped
  | seize victim m isAsk zeroPrice base =>
    exact ⟨hx.exact, hx.capped, fun _ ho => by simp at ho, fun _ ho => by simp at ho⟩
  | @evict s k o best hbest =>
    obtain ⟨sk, he, -⟩ := peekBest_spec hbest
    obtain ⟨⟨o₁, hrests⟩, -⟩ := hd.inv.entry _ _ _ he
    obtain ⟨hnew, hshed⟩ := evictMakerOrder_exact hx.exact hrests.order hrests.status
    exact hx.swept (b := o.remainingBaseAmount) hnew hshed
  | @fill s v k o maker base h =>
    obtain @⟨u, o', isPerp, trade, hfound, -, hkind, htrade, hfill⟩ := h
    obtain ⟨sk, he, -⟩ := peekBest_spec hfound.best
    obtain ⟨⟨o₁, hrests⟩, -⟩ := hd.inv.entry _ _ _ he
    have hsame : indexesOf u = indexesOf s := (hkind.book.ok htrade).indexes
    obtain ⟨hnew, hshed⟩ := fillMakerOrder_exact (hsame ▸ hx.exact) (hsame ▸ hrests.order)
      hrests.status hfill
    exact hx.swept hnew (hsame ▸ hshed)
  | @store s t k o st hk hst h =>
    cases k with
    | placing => exact hx.store_placing hd hst h
    | fired => exact hx.store_fired hd hst h
    | liquidating => exact absurd rfl hk
  | @abandon s u o h => exact hx.abandon hd h (hclean o u rfl h rfl)
  | release => exact ⟨hx.exact, hx.capped, fun _ ho => by simp at ho, fun _ ho => by simp at ho⟩
  | @forced s t h =>
    have hsame : indexesOf t = indexesOf s := by rw [indexesOf, h.forced.frame]; rfl
    exact hx.idle (hsame ▸ hx.exact) (hsame ▸ .refl _)
  | @outside s t h =>
    have hsame : indexesOf t = indexesOf s := by rw [indexesOf, h.book]; rfl
    exact hx.idle (hsame ▸ hx.exact) (hsame ▸ .refl _)

/-! ### Runs -/

/-- **The secondary indexes are exact.**  In every run in which no abandoned trigger resists its
cancellation, the open orders of the accounts, their numbers, the client order ids, the triggers and
the expiries are listed exactly; where the cap of a market is fixed, it is kept. -/
theorem indexes_exact {s₀ : State} (hfresh : FreshBook s₀)
    (hrun : Relation.ReflTransGen
      (fun d d' => Move d d' ∧ CleansUp d d' ∧ FixedCaps caps d.state) ⟨s₀, none⟩ ⟨s, none⟩) :
    ExactIndexes s ∧
      ∀ a m, 0 < caps m → getAccountOpenOrderCount s a m ≤ caps m := by
  have hkept : ∀ d, Relation.ReflTransGen
      (fun d d' => Move d d' ∧ CleansUp d d' ∧ FixedCaps caps d.state) ⟨s₀, none⟩ d →
      d.Sound ∧ d.Indexed caps := by
    intro d hd
    induction hd with
    | refl => exact ⟨.idle hfresh.inv, hfresh.indexed⟩
    | tail _ hmove ih =>
      obtain ⟨hmove, hclean, hcaps⟩ := hmove
      exact ⟨hmove.sound ih.1, hmove.indexed hclean hcaps ih.1 ih.2⟩
  obtain ⟨-, hx⟩ := hkept _ hrun
  exact ⟨hx.exact.exactIndexes, hx.capped⟩

end Moves

/-! ### One bid -/

/-- A market with a mark price of 100 and two users, after `n` nonces of bids. -/
def crowdedMarket (b : BookStore) (n : ℕ) : State where
  account := {
    accounts := Table.ofRows [{ accountIndex := 0 },
      { accountIndex := 1, accountType := .insuranceFund, publicPoolInfo := some {} },
      { accountIndex := 2, ownerAddress := "alice", collateral := 5000 },
      { accountIndex := 3, ownerAddress := "bob", collateral := 5000 }] }
  market := {
    markets := Table.ofRows [{ marketIndex := 0 }]
    marketDetails := Table.ofRows [{
      marketIndex := 0, markPrice := 100, bidNonce := firstBidNonce - n,
      defaultInitialMarginFraction := 1000, minInitialMarginFraction := 500,
      maintenanceMarginFraction := 400, closeOutMarginFraction := 200 }] }
  book := b

def bid : MsgCreateOrder where
  sender := "alice"
  accountIndex := 2
  marketIndex := 0
  isAsk := false
  baseAmount := 1
  price := 1
  expiry := 2000

def stop : MsgCreateOrder where
  sender := "bob"
  accountIndex := 3
  marketIndex := 0
  isAsk := false
  orderType := .stopLossLimitOrder
  baseAmount := 2 ^ 33
  price := 1
  triggerPrice := 100
  expiry := 2000

/-- The same market with room for one order of an account. -/
def oneSlotMarket : State :=
  { crowdedMarket {} 0 with market := { (crowdedMarket {} 0).market with
    markets := Table.ofRows [{ marketIndex := 0, maxOpenOrdersPerAccount := 1 }] } }

theorem oneBid_moves :
    let _ := AddressCodec.acceptAll
    let o := { bid.toOrder 1 firstBidNonce with status := .opened }
    let s := after (prepareOrder bid) oneSlotMarket
    FreshBook oneSlotMarket ∧
      Move ⟨oneSlotMarket, none⟩ ⟨s, some (.placing, bid.toOrder 1 firstBidNonce)⟩ ∧
      Move ⟨s, some (.placing, bid.toOrder 1 firstBidNonce)⟩ ⟨after (openOrder o) s, none⟩ := by
  intro _ o s
  have hprepare : (prepareOrder bid).run oneSlotMarket = .ok
      ({ marketIndex := 0, maxOpenOrdersPerAccount := 1 }, bid.toOrder 1 firstBidNonce) s :=
    run_of_value (by decide +kernel)
  have hopen : (openOrder o).run s = .ok () (after (openOrder o) s) :=
    run_of_succeeds (by decide +kernel)
  exact ⟨.of_rows rfl (by decide +kernel), .accept hprepare rfl,
    .store (by decide) ⟨by decide, by decide, fun _ => by decide⟩ hopen⟩

/-- One bid rests and takes the only slot. -/
theorem indexes_exact_one_slot :
    let _ := AddressCodec.acceptAll
    let o := { bid.toOrder 1 firstBidNonce with status := .opened }
    let t := after (openOrder o) (after (prepareOrder bid) oneSlotMarket)
    getAccountOpenOrderCount t 2 0 = 1 ∧ ExactIndexes t ∧
      ∀ a m, 0 < 1 → getAccountOpenOrderCount t a m ≤ 1 := by
  intro _ o t
  obtain ⟨hfresh, haccept, hstore⟩ := oneBid_moves
  refine ⟨by decide +kernel, @indexes_exact _ (fun _ => 1) _ _ hfresh ?_⟩
  refine .tail (.single ⟨haccept, fun o' u ho' => by simp at ho', ?_⟩)
    ⟨hstore, fun o' u ho' => by simp at ho', ?_⟩
  · exact .of_rows (by decide +kernel)
  · exact .of_rows (by decide +kernel)

/-! ### A crowded price -/

theorem openOrder_perp_run {s : State} {o : Order} {market : Market} {quote : ℕ}
    {pl : PriceLevelAggregate} (hst : o.status.isResting = true)
    (hmarket : getMarket o.marketIndex s = .ok market) (hperps : market.marketType = .perps)
    (hquote : checkedQuote o.remainingBaseAmount o.price = .ok quote)
    (hadj : (levelOf (pagesOf s).levels o.marketIndex o.price).adjust o.isAsk
      o.remainingBaseAmount quote .plus 1 = .ok pl)
    (hcount : (indexesOf s).countOf o + 1 ≤ maxUint32) :
    ∃ t, (openOrder o).run s = .ok () t ∧ BookOnly s t ∧
      pagesOf t = ((pagesOf s).insert o.marketIndex o.sortKey o.toEntry).write pl ∧
      indexesOf t = ((indexesOf s).mark o).put o := by
  have hlock : (applySpotLockOnOpen o).run s = .ok () s := by
    rw [applySpotLockOnOpen, withSpotLock, run_bind_read, hmarket]
    exact run_when.trans (if_neg (by rw [hperps]; decide))
  obtain ⟨s₁, h₁, hpages⟩ := adjustPriceLevel_run
    (s := s.enter o.marketIndex o.sortKey o.toEntry) hadj
  have hinsert : (insertEntry o.marketIndex o.isAsk o.toEntry).run s = .ok () s₁ :=
    (insertEntry_eq hquote).trans h₁
  have hindexes : indexesOf s₁ = indexesOf s := (insertEntry_indexes _ _ _).ok hinsert
  obtain ⟨s₂, h₂⟩ := indexOpenOrder_run (s := s₁) (o := o) (.inr (by rw [hindexes]; exact hcount))
  have hrun : (openOrder o).run s = .ok () (after (setOrder o) s₂) := by
    rw [openOrder, if_pos hst]
    exact run_bind_ok.mpr ⟨(), s, hlock, run_bind_ok.mpr ⟨(), s₁, hinsert,
      run_bind_ok.mpr ⟨(), s₂, h₂, rfl⟩⟩⟩
  refine ⟨_, hrun, ?_, ?_, ?_⟩
  · have hbook : BookOnly s s₂ := trans_of BookOnly ((insertEntry_bookOnly _ _ _).ok hinsert)
      ((indexOpenOrder_bookOnly o).ok h₂)
    have hset : BookOnly s₂ (after (setOrder o) s₂) := rfl
    exact trans_of BookOnly hbook hset
  · have hsame : pagesOf s₂ = pagesOf s₁ := (indexOpenOrder_pages o).ok h₂
    exact hsame.trans hpages
  · obtain ⟨hmark, -⟩ := indexOpenOrder_indexes h₂
    rw [hindexes] at hmark
    exact congrArg (Indexes.put · o) hmark

theorem fireTrigger_stuck {s : State} {i quote : ℕ} {o : Order} {market : Market} {e e' : Err}
    (ho : s.book.orders.get i = some o) (hlimit : o.orderType = .stopLossLimitOrder)
    (hgtt : o.timeInForce = .gtt) (hrem : o.remainingBaseAmount ≠ 0) (hexpiry : o.expiry ≠ 0)
    (hmarket : getMarket o.marketIndex s = .ok market) (hperps : market.marketType = .perps)
    (hfills : s.matchingParams.maxFillsPerMsg ≠ 0)
    (hempty : peekBest o.marketIndex (!o.isAsk) s = none)
    (hquote : checkedQuote o.remainingBaseAmount o.price = .ok quote)
    (hfull : (levelOf (pagesOf s).levels o.marketIndex o.price).adjust o.isAsk
      o.remainingBaseAmount quote .plus 1 = .error e) (he : e.isValue = true)
    (hshort : (levelOf (pagesOf s).levels o.marketIndex o.price).adjust o.isAsk
      o.remainingBaseAmount quote .minus (-1) = .error e') (he' : e'.isValue = true) :
    ∃ t, (fireTrigger i).run s = .ok () t ∧
      t.book.orders.get i = some { o with status := .opened } ∧
      t.book.expiryIndex.get (toLex (o.expiry, i)) = none := by
  have hidx : o.orderIndex = i := Table.key_of_get ho
  set o₁ : Order := { o with status := .opened } with ho₁
  set o₂ : Order := { o₁ with orderType := .limitOrder } with ho₂
  have htwin : executableTwin o₁ = o₂ := by
    unfold executableTwin
    rw [show o₁.orderType = .stopLossLimitOrder from hlimit]
  obtain ⟨s₁, h₁⟩ := activateTrigger_run ho
  obtain ⟨o', ho', -, hindexes⟩ := activateTrigger_indexes h₁
  cases ho.symm.trans ho'
  have hbook : s₁ = { s with book := s₁.book } := (activateTrigger_bookOnly i).ok h₁
  have hpages : pagesOf s₁ = pagesOf s := (activateTrigger_pages i).ok h₁
  have hmarket₁ : getMarket o₂.marketIndex s₁ = .ok market := by
    rw [hbook]
    exact hmarket
  -- nothing to match with
  have hmatch : (matchOrder o₂ s₁.matchingParams.maxFillsPerMsg).run s₁
      = .ok ⟨o₂, 0, .emptyBook⟩ s₁ := by
    refine matchOrder_empty hmarket₁ ?_ hrem ?_
    · rw [← hempty]
      exact congrArg (fun p => (KVStore.first p.entries (onSide o.marketIndex (!o.isAsk))).map
        Prod.snd) hpages
    · rw [hbook]
      exact hfills
  have hsettled : SweepResult.settled ⟨o₂, 0, .emptyBook⟩ = o₂ := by
    have hrem₂ : o₂.remainingBaseAmount ≠ 0 := hrem
    have htif : o₂.timeInForce ≠ .ioc := by
      rw [show o₂.timeInForce = .gtt from hgtt]
      decide
    simp [SweepResult.settled, SweepResult.status, killResidue, hrem₂, htif]
    rfl
  -- the price cannot take the order: its entry is written, its sums are not
  set s₂ := s₁.enter o₂.marketIndex o₂.sortKey o₂.toEntry with hs₂
  have hopen : (openOrder o₂).run s₁ = .error e s₂ := by
    have hlock : (applySpotLockOnOpen o₂).run s₁ = .ok () s₁ := by
      rw [applySpotLockOnOpen, withSpotLock, run_bind_read, hmarket₁]
      exact run_when.trans (if_neg (by rw [hperps]; decide))
    rw [openOrder, if_pos (show o₂.status.isResting = true from rfl)]
    refine run_bind_error.mpr (.inr ⟨(), s₁, hlock, run_bind_error.mpr (.inl ?_)⟩)
    exact insertEntry_overflow (show checkedQuote o₂.toEntry.remainingBaseAmount o₂.toEntry.price
      = .ok quote from hquote) (hpages ▸ hfull)
  have hfire : (fireOrder o₂).run s₁ = .error e s₂ := by
    refine run_bind_error.mpr (.inr ⟨_, s₁, rfl, run_bind_error.mpr (.inr ⟨_, s₁, hmatch, ?_⟩)⟩)
    rw [hsettled]
    exact hopen
  -- nor can it be taken off again
  have hrow : s₂.book.orders.get i = some o₁ := by
    have horders : s₁.book.orders = s.book.orders.put o₁ := congrArg Indexes.orders hindexes
    show s₁.book.orders.get i = some o₁
    rw [horders, ← hidx]
    exact Table.get_put_self _ _
  have hfind : (pagesOf s₂).find o₁.marketIndex o₁.orderIndex = some (o₂.sortKey, o₂.toEntry) := by
    have hpointer : (pagesOf s₂).pointers.get (toLex (o₁.marketIndex, o₁.orderIndex))
        = some o₂.sortKey := KVStore.get_set_self _ _ _
    have hentry : (pagesOf s₂).entries.get (toLex (o₁.marketIndex, o₂.sortKey))
        = some o₂.toEntry := KVStore.get_set_self _ _ _
    exact Pages.find_eq_some.mpr ⟨hpointer, hentry⟩
  set s₃ := s₂.leave o₁.marketIndex o₁.orderIndex o₂.sortKey with hs₃
  have hremove : (removeEntry o₁.marketIndex o₁.isAsk o₁.orderIndex).run s₂ = .error e' s₃ := by
    rw [removeEntry_eq hfind hquote]
    refine adjustPriceLevel_error ?_
    show (levelOf (pagesOf s₁).levels o.marketIndex o.price).adjust _ _ _ _ _ = _
    rw [hpages]
    exact hshort
  have hcancel : (cancelOrder o₁.orderIndex).run s₂ = .error e' s₃ := by
    rw [cancelOrder, run_bind_read, getOrder_eq_ok.mpr (hidx ▸ hrow)]
    refine run_bind_error.mpr (.inl ?_)
    rw [detachOrder, if_pos (show o₁.status.isResting = true from rfl)]
    refine run_bind_error.mpr (.inr ⟨(), s₂, run_require_ok.mpr ⟨hrem, rfl⟩, ?_⟩)
    exact run_bind_error.mpr (.inl hremove)
  have hloggedFire : (logged (fireOrder (executableTwin o₁))).run s₁ = .ok (.error e) s₂ :=
    run_attempt_ok.mpr (.inr ⟨e, rfl, he, htwin ▸ hfire⟩)
  have hloggedCancel : (logged (cancelOrder o₁.orderIndex)).run s₂ = .ok (.error e') s₃ :=
    run_attempt_ok.mpr (.inr ⟨e', rfl, he', hcancel⟩)
  refine ⟨s₃, ?_, hrow, ?_⟩
  · refine run_bind_ok.mpr ⟨.ok o₁, s₁, run_attempt_ok.mpr (.inl ⟨o₁, rfl, h₁⟩), ?_⟩
    refine run_bind_ok.mpr ⟨.error e, s₂, hloggedFire, ?_⟩
    exact run_bind_ok.mpr ⟨.error e', s₃, hloggedCancel, rfl⟩
  · have hexpiries : s₁.book.expiryIndex = s.book.expiryIndex.remove o.expiryKey := by
      have heq : s₁.book.expiryIndex = if o.expiry ≠ 0 then s.book.expiryIndex.remove o.expiryKey
        else s.book.expiryIndex := congrArg Indexes.expiries hindexes
      rw [heq, if_pos hexpiry]
    show s₁.book.expiryIndex.get (toLex (o.expiry, i)) = none
    rw [hexpiries, ← hidx]
    exact KVStore.get_remove_self _ _

theorem bid_admitted (b : BookStore) (n : ℕ) :
    let _ := AddressCodec.acceptAll
    (admitOrder bid).run (crowdedMarket b n) = .ok { marketIndex := 0 } (crowdedMarket b n) := by
  rfl

theorem stop_admitted (b : BookStore) (n : ℕ) :
    let _ := AddressCodec.acceptAll
    (admitOrder stop).run (crowdedMarket b n) = .ok { marketIndex := 0 } (crowdedMarket b n) := by
  rfl

theorem crowdedMarket_nonce {n : ℕ} (b : BookStore) (hn : n ≤ maxUint32) :
    (allocateNonce 0 false).run (crowdedMarket b n)
      = .ok (firstBidNonce - n) (crowdedMarket b (n + 1)) := by
  have hword : (n : ℤ) ≤ maxUint32 := by exact_mod_cast hn
  have hnext : firstBidNonce - ((n + 1 : ℕ) : ℤ) = firstBidNonce - n - 1 := by
    push_cast
    ring
  have hroom : ¬ firstAskNonce ≥ firstBidNonce - (n : ℤ) := by
    simp only [firstAskNonce, firstBidNonce, maxUint32] at *
    omega
  have hroom' : ¬ firstAskNonce ≥ firstBidNonce - (n : ℤ) - 1 := by
    simp only [firstAskNonce, firstBidNonce, maxUint32] at *
    omega
  have hget : getMarketDetails 0 (crowdedMarket b n) = .ok {
      marketIndex := 0, markPrice := 100, bidNonce := firstBidNonce - n,
      defaultInitialMarginFraction := 1000, minInitialMarginFraction := 500,
      maintenanceMarginFraction := 400, closeOutMarginFraction := 200 } := rfl
  rw [allocateNonce, run_bind_read, hget]
  refine run_bind_ok.mpr ⟨(), crowdedMarket b n, run_require_ok.mpr ⟨hroom, rfl⟩,
    run_bind_ok.mpr ⟨(), crowdedMarket b n, run_require_ok.mpr ⟨hroom', rfl⟩, ?_⟩⟩
  unfold crowdedMarket
  rw [hnext]
  rfl

theorem crowded_prepare {n : ℕ} {b : BookStore} (msg : MsgCreateOrder) (hn : n ≤ maxUint32)
    (hmsg : msg.marketIndex = 0 ∧ msg.isAsk = false) :
    let _ := AddressCodec.acceptAll
    (admitOrder msg).run (crowdedMarket b n) = .ok { marketIndex := 0 } (crowdedMarket b n) →
    (prepareOrder msg).run (crowdedMarket b n)
      = .ok ({ marketIndex := 0 }, msg.toOrder b.nextOrderIndex (firstBidNonce - n))
        (crowdedMarket { b with nextOrderIndex := b.nextOrderIndex + 1 } (n + 1)) := by
  intro _ hadmit
  refine run_bind_ok.mpr ⟨_, _, hadmit, run_bind_ok.mpr ⟨b.nextOrderIndex,
    crowdedMarket { b with nextOrderIndex := b.nextOrderIndex + 1 } n, rfl, ?_⟩⟩
  rw [hmsg.1, hmsg.2]
  exact run_bind_ok.mpr ⟨_, _, crowdedMarket_nonce _ hn, rfl⟩

/-- The sums of a price at which `n` bids for one unit rest. -/
def crowdLevel (n : ℕ) : PriceLevelAggregate where
  marketIndex := 0
  price := 1
  bidBaseSum := n
  bidQuoteSum := n
  bidCount := n

theorem crowdLevel_bid {n : ℕ} (hn : n < maxUint32) :
    (crowdLevel n).adjust false 1 1 .plus 1 = .ok (crowdLevel (n + 1)) := by
  have hword : n < 2 ^ 32 := by
    simp only [maxUint32] at hn
    omega
  have hbase : applyMagDelta n 1 .plus = .ok (n + 1) := if_neg (by simp only [maxUint64]; omega)
  have hcount : applyCountDelta n 1 = .ok (n + 1) := by
    rw [applyCountDelta, if_neg (by omega), if_neg (by omega)]
    rfl
  simp only [PriceLevelAggregate.adjust, Bool.false_eq_true, if_false, except_bind_ok]
  exact ⟨_, hbase, _, hbase, _, hcount, rfl⟩

/-- The book in which `n` bids of the first user rest, and nothing else. -/
structure Crowd (n : ℕ) (b : BookStore) : Prop where
  next : b.nextOrderIndex = n + 1
  level : levelOf b.priceLevels 0 1 = crowdLevel n
  asks : b.orderBookEntries.first (onSide 0 true) = none
  counted : (b.accountOpenOrderCount.get (toLex (2, 0))).getD 0 = n
  uncounted : (b.accountOpenOrderCount.get (toLex (3, 0))).getD 0 = 0
  fresh : ∀ i, n < i → b.accountOpenOrders.get (toLex (2, toLex (0, i))) = none
  triggers : b.triggerIndex = KVStore.empty

theorem Crowd.empty : Crowd 0 {} := ⟨rfl, rfl, rfl, rfl, rfl, fun _ _ => rfl, rfl⟩

theorem Crowd.step {n : ℕ} {b : BookStore} (h : Crowd n b) (hn : n < maxUint32) :
    let _ := AddressCodec.acceptAll
    ∃ b' resp, (createOrder bid).run (crowdedMarket b n) = .ok resp (crowdedMarket b' (n + 1)) ∧
      Crowd (n + 1) b' := by
  intro _
  set b₁ : BookStore := { b with nextOrderIndex := b.nextOrderIndex + 1 } with hb₁
  set o₀ : Order := bid.toOrder b.nextOrderIndex (firstBidNonce - n) with ho₀
  set o : Order := { o₀ with status := .opened } with ho
  have hprepare := crowded_prepare bid hn.le ⟨rfl, rfl⟩ (bid_admitted b n)
  have hadj : (levelOf b.priceLevels 0 1).adjust false 1 1 .plus 1 = .ok (crowdLevel (n + 1)) := by
    rw [h.level]
    exact crowdLevel_bid hn
  obtain ⟨t, hrun, hbook, hpages, hindexes⟩ := openOrder_perp_run (s := crowdedMarket b₁ (n + 1))
    (o := o) rfl (show _ = Except.ok { marketIndex := 0 } from rfl) rfl
    (show checkedQuote 1 1 = .ok 1 from rfl) hadj (by
      show (b.accountOpenOrderCount.get (toLex (2, 0))).getD 0 + 1 ≤ maxUint32
      rw [h.counted]
      exact hn)
  have hmatch : (matchOrder o₀ 100).run (crowdedMarket b₁ (n + 1))
      = .ok ⟨o₀, 0, .emptyBook⟩ (crowdedMarket b₁ (n + 1)) := by
    refine matchOrder_empty (show _ = Except.ok { marketIndex := 0 } from rfl) ?_
      Nat.one_ne_zero (by decide)
    show (b.orderBookEntries.first (onSide 0 true)).map Prod.snd = none
    rw [h.asks]
    rfl
  have ht : t = crowdedMarket t.book (n + 1) := hbook
  have hcreate : (createOrder bid).run (crowdedMarket b n)
      = .ok ⟨b.nextOrderIndex, .opened, 0⟩ t := by
    refine run_bind_ok.mpr ⟨_, _, hprepare, ?_⟩
    rw [if_neg (by decide)]
    refine run_bind_ok.mpr ⟨_, _, rfl, run_bind_ok.mpr ⟨_, _, hmatch, ?_⟩⟩
    exact run_bind_ok.mpr ⟨o, _, rfl, run_bind_ok.mpr ⟨(), t, hrun, rfl⟩⟩
  refine ⟨t.book, _, ht ▸ hcreate, ?_⟩
  have hcore := openOrder_ok hrun
  rw [if_pos (show o.status.isResting = true from rfl)] at hcore
  have hentries : t.book.orderBookEntries
      = b.orderBookEntries.set (toLex (0, o.sortKey)) o.toEntry := congrArg Pages.entries hpages
  have hlevels : t.book.priceLevels = writeLevel b.priceLevels (crowdLevel (n + 1)) :=
    congrArg Pages.levels hpages
  have hopen : t.book.accountOpenOrders
      = b.accountOpenOrders.set (toLex (2, toLex (0, n + 1))) () := by
    rw [← h.next]
    exact congrArg Indexes.openOrders hindexes
  have hnew : b.accountOpenOrders.has (toLex (2, toLex (0, n + 1))) = false := by
    rw [KVStore.has, h.fresh (n + 1) (by omega)]
    rfl
  have hcounts : t.book.accountOpenOrderCount
      = Indexes.writeCount b.accountOpenOrderCount (toLex (2, 0)) (n + 1) := by
    have heq : t.book.accountOpenOrderCount = if b.accountOpenOrders.has (toLex (2, toLex (0,
          b.nextOrderIndex))) = true then b.accountOpenOrderCount
        else Indexes.writeCount b.accountOpenOrderCount (toLex (2, 0))
          ((b.accountOpenOrderCount.get (toLex (2, 0))).getD 0 + 1) :=
      congrArg Indexes.counts hindexes
    rw [heq, h.next, hnew, h.counted]
    rfl
  refine ⟨?_, ?_, ?_, ?_, ?_, fun i hi => ?_, ?_⟩
  · have hnext := congrArg Core.nextIndex hcore
    exact hnext.trans (congrArg (· + 1) h.next)
  · rw [hlevels]
    exact levelOf_writeLevel rfl
  · rw [hentries, KVStore.first_eq_none]
    intro k v hk
    rw [KVStore.get_set] at hk
    split at hk
    · rename_i hkey
      rw [hkey]
      rfl
    · exact KVStore.first_eq_none.mp h.asks k v hk
  · rw [hcounts, get_writeCount]
  · rw [hcounts, get_writeCount_ne _ _ _ (by decide), h.uncounted]
  · rw [hopen, KVStore.get_set_ne _ _ (by simp; omega), h.fresh i (by omega)]
  · exact (congrArg Indexes.triggers hindexes).trans h.triggers

theorem crowd_gathers (n : ℕ) (hn : n ≤ maxUint32) :
    let _ := AddressCodec.acceptAll
    ∃ b, ExchangeRun (fun _ _ => True) (fun _ _ => True) (crowdedMarket {} 0) (crowdedMarket b n) ∧
      Crowd n b := by
  intro _
  induction n with
  | zero => exact ⟨{}, .refl, .empty⟩
  | succ n ih =>
    obtain ⟨b, hrun, hcrowd⟩ := ih (by omega)
    obtain ⟨b', resp, hcreate, hcrowd'⟩ := hcrowd.step (by omega)
    exact ⟨b', .tail hrun (.createOrder bid hcreate fun _ _ _ _ => trivial), hcrowd'⟩

theorem crowdLevel_full : ∃ detail, (crowdLevel maxUint32).adjust false (2 ^ 33) (2 ^ 33) .plus 1
    = .error ⟨.priceLevelOverflow, detail⟩ := ⟨_, rfl⟩

theorem crowdLevel_short : ∃ detail, (crowdLevel maxUint32).adjust false (2 ^ 33) (2 ^ 33) .minus
    (-1) = .error ⟨.orderbookInvariantViolated, detail⟩ := ⟨_, rfl⟩

theorem crowded_stop_stays_open :
    let _ := AddressCodec.acceptAll
    ∃ s t i o, FreshBook (crowdedMarket {} 0) ∧
      ExchangeRun (fun _ _ => True) (fun _ _ => True) (crowdedMarket {} 0) s ∧
      matchingEndBlocker.run s = .ok () t ∧
      DeskRun ⟨crowdedMarket {} 0, none⟩ ⟨t, none⟩ ∧
      t.book.orders.get i = some o ∧ o.status = .opened ∧ o.timeInForce = .gtt ∧ 0 < o.expiry ∧
      t.book.expiryIndex.get (toLex (o.expiry, i)) = none := by
  intro _
  have hfresh : FreshBook (crowdedMarket {} 0) := .of_rows rfl (by decide +kernel)
  obtain ⟨b, hrun, hcrowd⟩ := crowd_gathers maxUint32 le_rfl
  have hprepare := crowded_prepare stop le_rfl ⟨rfl, rfl⟩ (stop_admitted b maxUint32)
  set b₁ : BookStore := { b with nextOrderIndex := b.nextOrderIndex + 1 } with hb₁
  set i := b.nextOrderIndex with hi
  set o : Order := { stop.toOrder i (firstBidNonce - (maxUint32 : ℕ)) with
    status := .triggeredPending } with ho
  obtain ⟨s, hpark⟩ := openTriggerOrder_run (s := crowdedMarket b₁ (maxUint32 + 1)) (o := o) (by
    show (b.accountOpenOrderCount.get (toLex (3, 0))).getD 0 + 1 ≤ maxUint32
    rw [hcrowd.uncounted]
    decide)
  have hbook : s = crowdedMarket s.book (maxUint32 + 1) := (openTriggerOrder_bookOnly o).ok hpark
  have hpages : pagesOf s = pagesOf (crowdedMarket b₁ (maxUint32 + 1)) :=
    (openTriggerOrder_pages o).ok hpark
  obtain ⟨hindexes, -⟩ := openTriggerOrder_indexes hpark
  have hcreate : (createOrder stop).run (crowdedMarket b maxUint32)
      = .ok ⟨i, .triggeredPending, 0⟩ s := by
    refine run_bind_ok.mpr ⟨_, _, hprepare, ?_⟩
    rw [if_pos (by decide)]
    exact run_bind_ok.mpr ⟨(), s, hpark, rfl⟩
  have hrow : s.book.orders.get i = some o := by
    have horders : s.book.orders = b.orders.put o := congrArg Indexes.orders hindexes
    rw [horders]
    exact Table.get_put_self _ _
  have htriggers : s.book.triggerIndex
      = (KVStore.empty : KVStore (ℕ ×ₗ ℕ ×ₗ ℕ) Unit).set (triggerKey 0 100 i) () := by
    rw [← hcrowd.triggers]
    exact congrArg Indexes.triggers hindexes
  have hdue : dueTriggers s = [i] := by
    have hentries : s.book.triggerIndex.entries = [(triggerKey 0 100 i, ())] := by
      rw [htriggers]
      rfl
    have hmark : isDue s o = true := by
      rw [hbook]
      rfl
    have hall : triggersOf s = [o] := by
      rw [triggersOf, hentries]
      refine (List.filterMap_cons_some (b := o) ?_).trans rfl
      exact hrow
    rw [dueTriggers, hall, List.filter_cons_of_pos hmark]
    rfl
  have hlevel : levelOf (pagesOf s).levels 0 1 = crowdLevel maxUint32 := by
    rw [hpages]
    exact hcrowd.level
  have hquote : checkedQuote (2 ^ 33) 1 = .ok (2 ^ 33) := by
    simp [checkedQuote, maxOrderQuoteAmount, maxInt64]
  obtain ⟨e, hfull⟩ := crowdLevel_full
  obtain ⟨e', hshort⟩ := crowdLevel_short
  have hrem : o.remainingBaseAmount ≠ 0 := Nat.pos_iff_ne_zero.mp (Nat.two_pow_pos 33)
  obtain ⟨t, hfire, hopened, hexpiry⟩ := fireTrigger_stuck (s := s) (o := o)
    hrow rfl rfl hrem (show (2000 : ℤ) ≠ 0 by decide)
    (show _ = Except.ok { marketIndex := 0 } by rw [hbook]; rfl) rfl (by rw [hbook]; exact (show (100 : ℕ) ≠ 0 by decide))
    (by
      show ((pagesOf s).entries.first (onSide 0 true)).map Prod.snd = none
      rw [hpages]
      show (b.orderBookEntries.first (onSide 0 true)).map Prod.snd = none
      rw [hcrowd.asks]
      rfl) hquote (by rw [← hlevel] at hfull; exact hfull) rfl
    (by rw [← hlevel] at hshort; exact hshort) rfl
  have hblock : matchingEndBlocker.run s = .ok () t := by
    rw [matchingEndBlocker, run_bind_read]
    simp only [hdue]
    exact run_bind_ok.mpr ⟨(), t, hfire, rfl⟩
  have hrun' : ExchangeRun (fun _ _ => True) (fun _ _ => True) (crowdedMarket {} 0) s :=
    .tail hrun (.createOrder stop hcreate fun _ _ _ _ => trivial)
  have hmoves : DeskRun ⟨crowdedMarket {} 0, none⟩ ⟨t, none⟩ :=
    ExchangeRun.moves hfresh.inv (.tail hrun' (.trigger hblock fun _ _ _ _ _ _ => trivial))
  exact ⟨s, t, i, _, hfresh, hrun', hblock, hmoves, hopened, rfl, rfl,
    (show (0 : ℤ) < 2000 by decide), hexpiry⟩

/-- **Such a trigger is not among the expiries.** -/
theorem crowded_price_hides_expiry :
    let _ := AddressCodec.acceptAll
    ∃ s t i o, FreshBook (crowdedMarket {} 0) ∧
      ExchangeRun (fun _ _ => True) (fun _ _ => True) (crowdedMarket {} 0) s ∧
      matchingEndBlocker.run s = .ok () t ∧
      DeskRun ⟨crowdedMarket {} 0, none⟩ ⟨t, none⟩ ∧
      t.book.orders.get i = some o ∧ o.status = .opened ∧ o.timeInForce = .gtt ∧ 0 < o.expiry ∧
      t.book.expiryIndex.get (toLex (o.expiry, i)) = none ∧ ¬ ExactIndexes t := by
  intro _
  obtain ⟨s, t, i, o, hfresh, hrun, hblock, hmoves, ho, hst, hgtt, hpos, hexpiry⟩ :=
    crowded_stop_stays_open
  refine ⟨s, t, i, o, hfresh, hrun, hblock, hmoves, ho, hst, hgtt, hpos, hexpiry, fun hexact => ?_⟩
  have hlisted := (hexact.expiries o.expiry i).mpr ⟨o, ho, by rw [hst]; rfl, hgtt, hpos, rfl⟩
  rw [hexpiry] at hlisted
  cases hlisted

end PerpDex
