/-
The messages and hooks of the exchange as operations on a consistent book.

* `StoresFit` — the price of a fired trigger does not overflow when the trigger is stored;
* **`Move.represented`** — then every move keeps the book consistent, and the cancellation of a fired
  trigger that could not be placed succeeds.

A message is rolled back when it fails, so an overflow matters only where the matching hook stores a
trigger: it logs the error and goes on.
-/
import PerpDex.BookRep
import PerpDex.OrderIndexes

namespace PerpDex

open Txn

variable {s t u : State} {o : Order} {e : Err} {held : Option ℕ}
variable {d d' : Desk} {caps : ℕ → ℕ}

/-! ### Orders that cannot be stored -/

theorem adjust_plus_error {pl : PriceLevelAggregate} {isAsk : Bool} {base quote : ℕ}
    (h : pl.adjust isAsk base quote .plus 1 = .error e) : e.sentinel = .priceLevelOverflow := by
  have hmag : ∀ cur mag e', applyMagDelta cur mag .plus = .error e' →
      e'.sentinel = .priceLevelOverflow := by
    intro cur mag e' herr
    simp only [applyMagDelta] at herr
    split at herr
    · cases herr
      rfl
    · cases herr
  have hcount : ∀ cur e', applyCountDelta cur 1 = .error e' →
      e'.sentinel = .priceLevelOverflow := by
    intro cur e' herr
    simp only [applyCountDelta] at herr
    split at herr
    · omega
    · split at herr
      · cases herr
        rfl
      · cases herr
  cases isAsk
  all_goals
    rcases except_bind_error.mp h with hbase | ⟨_, -, h⟩
    · exact hmag _ _ _ hbase
    rcases except_bind_error.mp h with hquote | ⟨_, -, h⟩
    · exact hmag _ _ _ hquote
    rcases except_bind_error.mp h with hc | ⟨_, -, h⟩
    · exact hcount _ _ hc
    · cases h

theorem insertEntry_error_book {m : ℕ} {isAsk : Bool} {entry : OrderBookEntry}
    (h : (insertEntry m isAsk entry).run s = .error e t)
    (he : e.sentinel ≠ .priceLevelOverflow) : t = s := by
  cases hquote : checkedQuote entry.remainingBaseAmount entry.price with
  | error e' =>
    have hrun : (insertEntry m isAsk entry).run s = .error e' s := by
      rw [insertEntry, Txn.lift, run_bind_read, hquote]
    cases h.symm.trans hrun
    rfl
  | ok quote =>
    cases hadj : (levelOf (pagesOf s).levels m entry.price).adjust isAsk entry.remainingBaseAmount
        quote .plus 1 with
    | error e' =>
      cases h.symm.trans (insertEntry_overflow hquote hadj)
      exact absurd (adjust_plus_error hadj) he
    | ok pl =>
      obtain ⟨t', hrun, -⟩ := adjustPriceLevel_run
        (s := s.enter m (sortableKey entry.price entry.nonce isAsk) entry) hadj
      cases h.symm.trans ((insertEntry_eq hquote).trans hrun)

/-- Storing an order that is listed already fails without a trace in the book, unless the sums of
its price overflow. -/
theorem openOrder_error_book (hx : (indexesOf s).Counted)
    (hlisted : (indexesOf s).openOrders.get o.accountOpenOrderKey = some ())
    (h : (openOrder o).run s = .error e t) (he : e.sentinel ≠ .priceLevelOverflow) :
    t.book = s.book := by
  unfold openOrder at h
  split at h
  · rcases run_bind_error.mp h with hlock | ⟨_, s₁, hlock, h⟩
    · exact ((applySpotLockOnOpen_book o).error hlock).book
    have hbook : s₁.book = s.book := ((applySpotLockOnOpen_book o).ok hlock).book
    rcases run_bind_error.mp h with hinsert | ⟨_, s₂, hinsert, h⟩
    · rw [insertEntry_error_book hinsert he, hbook]
    have hindexes : indexesOf s₂ = indexesOf s := by
      have hsame : indexesOf s₂ = indexesOf s₁ := (insertEntry_indexes _ _ _).ok hinsert
      rw [hsame, indexesOf, hbook]
      rfl
    obtain ⟨s₃, hindex⟩ := indexOpenOrder_run (s := s₂) (o := o)
      (.inl (by rw [hindexes]; exact KVStore.has_eq_true.mpr ⟨(), hlisted⟩))
    rcases run_bind_error.mp h with hfail | ⟨_, s₃', -, h⟩
    · cases hfail.symm.trans hindex
    · cases h
  · obtain ⟨s₁, hunindex, -⟩ := unindexOpenOrder_run hx o
    rcases run_bind_error.mp h with hfail | ⟨_, s₁', -, h⟩
    · cases hfail.symm.trans hunindex
    · cases h

theorem BookRep.cancel_held (h : BookRep s (some o.orderIndex))
    (ho : s.book.orders.get o.orderIndex = some o) (hst : o.status.isResting = true)
    (hrem : o.remainingBaseAmount ≠ 0)
    (hmarket : ∃ mk, s.market.markets.get o.marketIndex = some mk) :
    ∃ o' t, (cancelOrder o.orderIndex).run s = .ok o' t ∧ BookRep t none := by
  have hhidden : o.shown (some o.orderIndex) = false := by simp [Order.shown]
  have hnone : (pagesOf s).find o.marketIndex o.orderIndex = none :=
    h.pages.find_hidden (fun o₁ ho₁ => by cases ho.symm.trans ho₁; exact hhidden) _
  have hremove : (removeEntry o.marketIndex o.isAsk o.orderIndex).run s = .ok () s :=
    removeEntry_absent hnone
  obtain ⟨mk, hmk⟩ := hmarket
  obtain ⟨s₁, hrelease⟩ := release_run hmk
  have hbook : s₁.book = s.book := ((releaseSpotLockOnClose_book o).ok hrelease).book
  have hframe : OrderFrame s s₁ := (releaseSpotLockOnClose_frame o).ok hrelease
  have hheld : SameHand o.orderIndex (some o.orderIndex) none := fun j hj => by simp [Ne.symm hj]
  have hclosed : ∃ t, (closeOrder o .cancelled).run s₁ = .ok { o with status := .cancelled } t ∧
      BookRep t none := (h.outside hbook hframe.marketsStay).close (hbook ▸ ho) hhidden rfl hheld
  obtain ⟨t, hclose, hrep⟩ := hclosed
  refine ⟨{ o with status := .cancelled }, t, ?_, hrep⟩
  rw [cancelOrder_eq ho hst hrem]
  exact run_bind_ok.mpr ⟨_, _, hremove, run_bind_ok.mpr ⟨_, _, hrelease, hclose⟩⟩

/-! ### The desk -/

/-- The stores of the book are the image of the orders; the order in hand is a value of its type, and
its market exists. -/
structure Desk.Represented (d : Desk) : Prop where
  rep : BookRep d.state d.firedIndex
  word : ∀ k o, d.hand = some (k, o) → k ≠ .liquidating → o.remainingBaseAmount ≤ maxUint64
  market : ∀ k o, d.hand = some (k, o) → k ≠ .liquidating →
    ∃ mk, d.state.market.markets.get o.marketIndex = some mk
  markets : ∀ i o, d.state.book.orders.get i = some o →
    ∃ mk, d.state.market.markets.get o.marketIndex = some mk
  next : 1 ≤ d.state.book.nextOrderIndex

/-- When a fired trigger cannot be stored, it is not because the sums of its price overflow. -/
def StoresFit (d d' : Desk) : Prop :=
  ∀ o u st e, d.hand = some (.fired, o) → Settles o st →
    (openOrder { o with status := st }).run d.state = .error e u →
    d' = ⟨after (cancelOrder o.orderIndex) u, none⟩ → e.sentinel ≠ .priceLevelOverflow

theorem FreshBook.represented (h : FreshBook s) : Desk.Represented ⟨s, none⟩ where
  rep := BookRep.of_empty h.book
  word k o ho := by simp at ho
  market k o ho := by simp at ho
  markets i o ho := by simp [h.book] at ho
  next := by rw [h.book]

theorem Core.Detached.order_storable (h : (coreOf s).Detached o) (hc : (coreOf s).Inv)
    (hword : o.remainingBaseAmount ≤ maxUint64)
    (hrem : o.status.isResting = true → 0 < o.remainingBaseAmount) : o.Storable s where
  typed := ⟨h.storable.valid.price_le,
    int64_of_range (hc.nonce_range h.storable.valid.allocated), hword⟩
  remaining := hrem
  unrivaled o' ho' hriv :=
    h.storable.unrivaled o'.orderIndex o' ho' ⟨hriv.1.symm, hriv.2.1.symm, hriv.2.2.symm⟩

/-- No market is taken away, and none changes its type or its assets. -/
def MarketsKeep (s t : State) : Prop := ∀ m mk, s.market.markets.get m = some mk →
  ∃ mk', t.market.markets.get m = some mk' ∧ mk'.marketType = mk.marketType ∧
    mk'.baseAssetId = mk.baseAssetId ∧ mk'.quoteAssetId = mk.quoteAssetId

theorem MarketsKeep.of_eq (h : t.market.markets = s.market.markets) : MarketsKeep s t :=
  fun _ mk hmk => ⟨mk, h ▸ hmk, rfl, rfl, rfl⟩

theorem MarketsKeep.trans (h : MarketsKeep s t) (h' : MarketsKeep t u) : MarketsKeep s u := by
  intro m mk hmk
  obtain ⟨mk', hmk', htype, hbase, hquote⟩ := h m mk hmk
  obtain ⟨mk'', hmk'', htype', hbase', hquote'⟩ := h' m mk' hmk'
  exact ⟨mk'', hmk'', htype'.trans htype, hbase'.trans hbase, hquote'.trans hquote⟩

theorem MarketsKeep.stay (h : MarketsKeep s t) : MarketsStay s t := by
  intro m mk hmk
  obtain ⟨mk', hmk', -⟩ := h m mk hmk
  exact ⟨mk', hmk'⟩

theorem OrderFrame.marketsKeep (h : OrderFrame s t) : MarketsKeep s t :=
  .of_eq (h.sidelined 0).markets

theorem Forced.marketsKeep (h : Forced s t) : MarketsKeep s t := by
  intro m mk hmk
  have hmap := h.markets m
  rw [hmk] at hmap
  rcases hmk' : t.market.markets.get m with _ | mk'
  · rw [hmk'] at hmap
    cases hmap
  · rw [hmk', Option.map_some, Option.map_some, Option.some_inj] at hmap
    have htype := congrArg Market.marketType hmap
    have hbase := congrArg Market.baseAssetId hmap
    have hquote := congrArg Market.quoteAssetId hmap
    exact ⟨mk', rfl, htype, hbase, hquote⟩

theorem TradeOf.marketsKeep {k : Task} {maker : OrderBookEntry} {base : ℕ} {isPerp : Bool}
    {trade : Tx Unit} (h : TradeOf s k o maker base isPerp trade) (hrun : trade.run s = .ok () t) :
    MarketsKeep s t := by
  cases h with
  | user hk hmarket => exact .of_eq (userTrade_markets hrun)
  | liquidation zeroPrice feeBps recipient hk hmarket hperps =>
    refine .of_eq ?_
    rw [((apply_keeps _).ok hrun).frame]

theorem Unplaced.frame (h : Unplaced o s t) : OrderFrame s t := by
  rcases h with rfl | ⟨st, e, -, herr⟩
  · exact refl_of OrderFrame _
  · exact (openOrder_frame _).error herr

section Moves

variable [AddressCodec]

theorem Move.marketsKeep (h : Move d d') : MarketsKeep d.state d'.state := by
  cases h with
  | @cancel s i => exact (cancelOrder_frame i s).marketsKeep
  | accept h htype => exact .of_eq (prepareOrder_markets h)
  | park h htype hpark =>
    exact (MarketsKeep.of_eq (prepareOrder_markets h)).trans
      ((openTriggerOrder_frame _).ok hpark).marketsKeep
  | activate ho hst hrem h => exact ((activateTrigger_frame _).ok h).marketsKeep
  | seize victim m isAsk zeroPrice base => exact .of_eq rfl
  | @evict s k o best hbest => exact (evictMakerOrder_frame _ _ s).marketsKeep
  | fill h =>
    obtain ⟨-, -, hkind, htrade, hfill⟩ := h
    exact (hkind.marketsKeep htrade).trans
      ((fillMakerOrder_bookOnly _ _).ok hfill).orderFrame.marketsKeep
  | store hk hst h => exact ((openOrder_frame _).ok h).marketsKeep
  | @abandon s u o h => exact h.frame.marketsKeep.trans (cancelOrder_frame _ u).marketsKeep
  | release => exact .of_eq rfl
  | forced h => exact h.forced.marketsKeep
  | outside h =>
    intro m mk hmk
    obtain ⟨mk', hmk', htype, hbase, hquote, -⟩ := h.markets m mk hmk
    exact ⟨mk', hmk', htype, hbase, hquote⟩

omit [AddressCodec] in
theorem Core.Closing.nextIndex_eq {c c' : Core} {i : ℕ} {st : OrderStatus}
    (h : Core.Closing c i st c') : c'.nextIndex = c.nextIndex := by
  cases h <;> simp [Core.put, Core.unpark]

theorem Move.next_le (h : Move d d') (hd : d.Sound) :
    d.state.book.nextOrderIndex ≤ d'.state.book.nextOrderIndex := by
  show (coreOf d.state).nextIndex ≤ (coreOf d'.state).nextIndex
  cases h with
  | @cancel s i => exact (cancelOrder_outcome i s).nextIndex_eq.ge
  | accept h htype =>
    obtain ⟨-, next, -, -, -, hcore⟩ := prepareOrder_ok h
    rw [hcore]
    exact Nat.le_succ _
  | park h htype hpark =>
    obtain ⟨-, next, -, -, -, hcore⟩ := prepareOrder_ok h
    rw [openTriggerOrder_ok hpark, hcore]
    exact Nat.le_succ _
  | activate ho hst hrem h =>
    obtain ⟨o₁, -, -, hcore⟩ := activateTrigger_ok h
    rw [hcore]
    exact le_rfl
  | seize victim m isAsk zeroPrice base => exact le_rfl
  | evict hbest => exact ((evict_sweptBy hbest .cancelled) hd.inv).2.nextIndex.ge
  | fill h => exact (h.sweptBy hd.inv).2.nextIndex.ge
  | store hk hst h =>
    rw [openOrder_ok h]
    split_ifs <;> exact le_rfl
  | abandon h => exact (hd.abandon_closing h).nextIndex_eq.ge
  | release => exact le_rfl
  | forced h => exact (congrArg Core.nextIndex h.forced.sameCore).ge
  | @outside s t h =>
    have hnext : (coreOf t).nextIndex = (coreOf s).nextIndex := by simp only [coreOf, h.book]
    exact hnext.ge

theorem Desk.Represented.markets_move (hr : d.Represented) (h : Move d d')
    (hd : d.Sound) (i : ℕ) (o : Order) (ho : d'.state.book.orders.get i = some o) :
    ∃ mk, d'.state.market.markets.get o.marketIndex = some mk := by
  have hmarket : ∃ mk, d.state.market.markets.get o.marketIndex = some mk := by
    cases h.row hd ho with
    | @kept o₁ r st ho₁ heq =>
      rw [heq]
      exact hr.markets i o₁ ho₁
    | @inHand k o₁ st hhand hk heq =>
      rw [heq]
      exact hr.market k o₁ hhand hk
    | parked h htype heq =>
      obtain ⟨hadm, next, -, -, horder, -⟩ := prepareOrder_ok h
      rw [heq, horder]
      exact ⟨_, getMarket_eq_ok.mp hadm.stored⟩
  obtain ⟨mk, hmk⟩ := hmarket
  exact h.marketsKeep.stay _ mk hmk

theorem BookRep.prepared {msg : MsgCreateOrder} {prepared : Market × Order} (h : BookRep s held)
    (hrun : (prepareOrder msg).run s = .ok prepared t) : BookRep t held := by
  obtain ⟨-, next, -, -, -, hcore⟩ := prepareOrder_ok hrun
  have hindexes : indexesOf t = indexesOf s := (prepareOrder_indexes msg).ok hrun
  exact h.congr ((prepareOrder_pages msg).ok hrun) (congrArg Core.orders hcore)
    (hindexes ▸ h.reckoned) (MarketsKeep.of_eq (prepareOrder_markets hrun)).stay

theorem prepareOrder_word {msg : MsgCreateOrder} {prepared : Market × Order}
    (h : (prepareOrder msg).run s = .ok prepared t) :
    prepared.2.remainingBaseAmount ≤ maxUint64 := by
  obtain ⟨hadm, next, -, -, horder, -⟩ := prepareOrder_ok h
  rw [horder]
  show msg.baseAmount ≤ maxUint64
  have hfields := hadm.fields
  unfold MsgCreateOrder.checkFields at hfields
  dsimp only at hfields
  split at hfields
  · cases hfields
  · rename_i hbase
    exact (not_lt.mp fun hlt => hbase (.inr hlt)).trans (by decide)

omit [AddressCodec] in
theorem Desk.Indexed.unplaced_book (hx : Desk.Indexed caps ⟨s, some (.fired, o)⟩)
    (hd : Desk.Sound ⟨s, some (.fired, o)⟩) (hun : Unplaced o s u)
    (hfit : ∀ st e, Settles o st → (openOrder { o with status := st }).run s = .error e u →
      e.sentinel ≠ .priceLevelOverflow) : u.book = s.book := by
  rcases hun with rfl | ⟨st, e, hst, herr⟩
  · rfl
  · have hlisted : (indexesOf s).openOrders.get
        (Order.accountOpenOrderKey { o with status := st }) = some () := hd.listed hx.exact
    exact openOrder_error_book hx.exact.tallied.counted hlisted herr (hfit st e hst herr)

omit [AddressCodec] in
theorem Desk.Represented.abandoned
    (hr : Desk.Represented ⟨s, some (.fired, o)⟩) (hd : Desk.Sound ⟨s, some (.fired, o)⟩)
    (hx : Desk.Indexed caps ⟨s, some (.fired, o)⟩) (hun : Unplaced o s u)
    (hfit : ∀ st e, Settles o st → (openOrder { o with status := st }).run s = .error e u →
      e.sentinel ≠ .priceLevelOverflow) :
    ∃ o' t, (cancelOrder o.orderIndex).run u = .ok o' t ∧ BookRep t none := by
  have hbook : u.book = s.book := hx.unplaced_book hd hun hfit
  have hrep : BookRep u (some o.orderIndex) := hr.rep.outside hbook hun.frame.marketsStay
  obtain ⟨o₀, ho₀, hst, hrem, -⟩ := hd.stored o rfl
  have hidx : o₀.orderIndex = o.orderIndex := Table.key_of_get ho₀
  obtain ⟨mk, hmk⟩ := hr.markets _ o₀ ho₀
  rw [← hidx] at hrep ⊢
  refine hrep.cancel_held ?_ (by rw [hst]; rfl) hrem.ne' (hun.frame.marketsStay _ mk hmk)
  rw [hbook, hidx]
  exact ho₀

omit [AddressCodec] in
theorem StoresFit.cleansUp (hfit : StoresFit d d')
    (hr : d.Represented) (hd : d.Sound) (hx : d.Indexed caps) : CleansUp d d' := by
  intro o u hhand hun heq
  obtain ⟨s, hand⟩ := d
  obtain rfl : hand = some (.fired, o) := hhand
  obtain ⟨o', t, hcancel, -⟩ := hr.abandoned hd hx hun fun st e hst herr =>
    hfit o u st e rfl hst herr heq
  rw [Txn.succeeds, hcancel]

/-- **Every move keeps the book consistent**, if no fired trigger overflows its price. -/
theorem Move.bookRep (h : Move d d') (hfit : StoresFit d d')
    (hr : d.Represented) (hd : d.Sound) (hx : d.Indexed caps) :
    BookRep d'.state d'.firedIndex := by
  cases h with
  | @cancel s i => exact (cancelOrder_rep hr.rep i (.inl rfl)).after
  | accept h htype => exact hr.rep.prepared h
  | @park s s₁ t msg prepared h htype hpark =>
    obtain ⟨hinv, hdet, -⟩ := @prepareOrder_detached (fun _ _ => True) (fun _ => True)
      _ _ _ _ _ hd.inv h
    obtain ⟨-, next, -, -, horder, hcore⟩ := prepareOrder_ok h
    have hfresh : s₁.book.orders.get prepared.2.orderIndex = none := by
      show (coreOf s₁).orders.get _ = none
      rw [hcore, horder]
      exact hd.inv.order_fresh le_rfl
    have hdet' : (coreOf s₁).Detached { prepared.2 with status := .triggeredPending } :=
      hdet.of_eq rfl rfl rfl rfl le_rfl
    exact openTriggerOrder_rep (hr.rep.prepared h)
      (hdet'.order_storable hinv (prepareOrder_word h) fun hst => nomatch hst) rfl
      (fun o₀ ho₀ => by cases hfresh.symm.trans ho₀) hpark
  | @activate s t i o o' ho hst hrem h =>
    obtain ⟨ho', -, hrow, -⟩ := activateTrigger_detached hd.inv ho hst h
    have hidx' : o'.orderIndex = i := Table.key_of_get hrow
    have hidx : (executableTwin o').orderIndex = i := by
      obtain ⟨ty, tif, p, -, htwin⟩ := executableTwin_eq o'
      rw [htwin]
      exact hidx'
    show BookRep t (some (executableTwin o').orderIndex)
    rw [hidx]
    exact activateTrigger_rep hr.rep ho hst h
  | seize victim m isAsk zeroPrice base => exact hr.rep
  | @evict s k o best hbest => exact (evictMakerOrder_rep hr.rep best.orderIndex rfl).after
  | @fill s v k o maker base h =>
    obtain @⟨u, o', isPerp, trade, -, -, hkind, htrade, hfill⟩ := h
    have hrep : BookRep u (Desk.firedIndex ⟨s, some (k, o)⟩) :=
      hr.rep.outside (hkind.book.ok htrade).book (hkind.marketsKeep htrade).stay
    have hfilled := (fillMakerOrder_rep hrep maker.orderIndex base).after
    rw [after_of_ok hfill] at hfilled
    cases k <;> exact hfilled
  | @store s t k o st hk hst h =>
    have hdet : (coreOf s).Detached { o with status := st } :=
      (hd.detached k o rfl hk).of_eq rfl rfl rfl rfl le_rfl
    have hstorable : Order.Storable { o with status := st } s :=
      hdet.order_storable hd.inv (hr.word k o rfl hk) hst.remaining
    cases k with
    | placing =>
      have hfresh := hd.fresh o rfl
      exact openOrder_rep hr.rep hstorable (fun o₀ ho₀ => by cases hfresh.symm.trans ho₀)
        (fun _ _ => Iff.rfl) (by simp [Desk.firedIndex]) h
    | fired => exact BookOp.rep (.placed hstorable h) hr.rep
    | liquidating => exact absurd rfl hk
  | @abandon s u o h =>
    obtain ⟨o', t, hcancel, hrep⟩ := hr.abandoned hd hx h fun st e hst herr =>
      hfit o u st e rfl hst herr rfl
    rw [after_of_ok hcancel]
    exact hrep
  | release => exact hr.rep
  | @forced s t h =>
    have hbook : t.book = s.book := by rw [h.forced.frame]
    exact hr.rep.outside hbook h.forced.marketsKeep.stay
  | outside h => exact hr.rep.outside h.book (Move.outside h).marketsKeep.stay

/-- The order in hand after a move comes from a message or from a stored order, or was in hand
before. -/
theorem Desk.Represented.hand_move (hr : d.Represented) (h : Move d d') {k : Task}
    (ho : d'.hand = some (k, o)) (hk : k ≠ .liquidating) :
    o.remainingBaseAmount ≤ maxUint64 ∧
      ∃ mk, d.state.market.markets.get o.marketIndex = some mk := by
  cases h.handOf ho hk with
  | @kept k₁ o₁ r hhand₁ hk₁ hr' heq =>
    rw [heq]
    exact ⟨hr'.trans (hr.word k₁ o₁ hhand₁ hk₁), hr.market k₁ o₁ hhand₁ hk₁⟩
  | accepted h heq =>
    obtain ⟨hadm, next, -, -, horder, -⟩ := prepareOrder_ok h
    rw [heq]
    refine ⟨prepareOrder_word h, ?_⟩
    rw [horder]
    exact ⟨_, getMarket_eq_ok.mp hadm.stored⟩
  | @activated i o₁ ho₁ heq =>
    obtain ⟨ty, tif, p, -, htwin⟩ := executableTwin_eq { o₁ with status := .opened }
    have hidx : o₁.orderIndex = i := Table.key_of_get ho₁
    rw [heq, htwin]
    exact ⟨(hr.rep.typed o₁ (hidx ▸ ho₁)).remaining, hr.markets i o₁ ho₁⟩

theorem Move.represented (h : Move d d') (hfit : StoresFit d d')
    (hr : d.Represented) (hd : d.Sound) (hx : d.Indexed caps) : d'.Represented where
  rep := h.bookRep hfit hr hd hx
  word _ _ ho hk := (hr.hand_move h ho hk).1
  market _ _ ho hk := by
    obtain ⟨-, mk, hmk⟩ := hr.hand_move h ho hk
    exact h.marketsKeep.stay _ mk hmk
  markets := hr.markets_move h hd
  next := hr.next.trans (h.next_le hd)

theorem deskRun_represented
    (h : Relation.ReflTransGen (fun d d' => Move d d' ∧ StoresFit d d') d d') (hr : d.Represented)
    (hd : d.Sound) (hx : d.Indexed fun _ => 0) :
    d'.Represented ∧ d'.Sound ∧ d'.Indexed fun _ => 0 := by
  induction h with
  | refl => exact ⟨hr, hd, hx⟩
  | tail _ hstep ih =>
    obtain ⟨hr, hd, hx⟩ := ih
    refine ⟨hstep.1.represented hstep.2 hr hd hx, hstep.1.sound hd,
      hstep.1.indexed (hstep.2.cleansUp hr hd hx) ?_ hd hx⟩
    -- no caps are fixed here
    exact fun m market _ hpos => absurd hpos (lt_irrefl 0)

end Moves

end PerpDex
