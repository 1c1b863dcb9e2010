/-
The order book after an export and an import.

* `Rebuilt` — the orders that were read are stored, and all other stores are their image.

Main results: `genesis_round_trip`, `crowded_price_lost_in_genesis`.

The image of a table of orders is unique.  The import cannot overflow, since every sum it forms on the
way is at most the sum of the exported book.
-/
import PerpDex.DeskBook

namespace PerpDex

open Txn

variable {s t : State} {o : Order} {rest : List Order}

/-! ### The indexes of a table of orders -/

theorem Indexes.Exact.eq {x x' : Indexes} {fired : Option ℕ} (h : x.Exact fired) (h' : x'.Exact fired)
    (horders : x.orders = x'.orders) (hx : x.Reckoned) (hx' : x'.Reckoned) : x = x' := by
  have hopen : x.openOrders = x'.openOrders := h.openOrders.eq (horders ▸ h'.openOrders)
  have hcounts : x.counts = x'.counts :=
    hx.tally.eq (hopen ▸ hx'.tally) hx.nonzero hx'.nonzero
  have hclients : x.clients = x'.clients := h.clients.eq (horders ▸ h'.clients)
  have htriggers : x.triggers = x'.triggers := h.triggers.eq (horders ▸ h'.triggers)
  have hexpiries : x.expiries = x'.expiries := h.expiries.eq (horders ▸ h'.expiries)
  cases x
  cases x'
  simp only [Indexes.mk.injEq]
  exact ⟨horders, hopen, hcounts, hclients, htriggers, hexpiries⟩

theorem book_eq_of_parts (hpages : pagesOf t = pagesOf s) (hindexes : indexesOf t = indexesOf s)
    (hnext : t.book.nextOrderIndex = s.book.nextOrderIndex) : t.book = s.book := by
  have hentries : t.book.orderBookEntries = s.book.orderBookEntries := congrArg Pages.entries hpages
  have hpointers : t.book.orderToSortKey = s.book.orderToSortKey := congrArg Pages.pointers hpages
  have hlevels : t.book.priceLevels = s.book.priceLevels := congrArg Pages.levels hpages
  have horders : t.book.orders = s.book.orders := congrArg Indexes.orders hindexes
  have hopen : t.book.accountOpenOrders = s.book.accountOpenOrders :=
    congrArg Indexes.openOrders hindexes
  have hcounts : t.book.accountOpenOrderCount = s.book.accountOpenOrderCount :=
    congrArg Indexes.counts hindexes
  have hclients : t.book.userOrderIndex = s.book.userOrderIndex := congrArg Indexes.clients hindexes
  have htriggers : t.book.triggerIndex = s.book.triggerIndex := congrArg Indexes.triggers hindexes
  have hexpiries : t.book.expiryIndex = s.book.expiryIndex := congrArg Indexes.expiries hindexes
  cases ht : t.book
  cases hs : s.book
  simp_all

/-! ### Restoring the orders -/

/-- The order book of `s` is consistent, nothing is in hand, and indexes start at 1. -/
structure Exportable (s : State) : Prop where
  rep : BookRep s none
  exact : (indexesOf s).Exact none
  next : 1 ≤ s.book.nextOrderIndex

/-- The orders of `s` other than those in `rest` are restored in `t`. -/
structure Rebuilt (s : State) (rest : List Order) (t : State) : Prop where
  rows : ∀ o : Order, t.book.orders.get o.orderIndex = some o ↔
    s.book.orders.get o.orderIndex = some o ∧ o ∉ rest
  pages : (pagesOf t).Shows t.book.orders none
  exact : (indexesOf t).Exact none
  reckoned : (indexesOf t).Reckoned

namespace Rebuilt

theorem sub (h : Rebuilt s rest t) (o : Order) (ho : t.book.orders.get o.orderIndex = some o) :
    s.book.orders.get o.orderIndex = some o := ((h.rows o).mp ho).1

theorem fresh (h : Rebuilt s (o :: rest) t) (ho : s.book.orders.get o.orderIndex = some o) :
    t.book.orders.get o.orderIndex = none := by
  rcases hget : t.book.orders.get o.orderIndex with _ | o₁
  · rfl
  · have hidx : o₁.orderIndex = o.orderIndex := Table.key_of_get hget
    obtain ⟨hs, hnot⟩ := (h.rows o₁).mp (hidx ▸ hget)
    rw [hidx, ho] at hs
    cases hs
    exact absurd List.mem_cons_self hnot

theorem rows_put {t' : State} (h : Rebuilt s (o :: rest) t)
    (ho : s.book.orders.get o.orderIndex = some o) (hnodup : o ∉ rest)
    (horders : t'.book.orders = t.book.orders.put o) (o₁ : Order) :
    t'.book.orders.get o₁.orderIndex = some o₁ ↔
      s.book.orders.get o₁.orderIndex = some o₁ ∧ o₁ ∉ rest := by
  rw [horders, Table.get_put]
  split
  · rename_i hidx
    constructor
    · intro heq
      cases heq
      exact ⟨ho, hnodup⟩
    · rintro ⟨hs, -⟩
      rw [hidx, ho] at hs
      exact hs
  · rename_i hidx
    rw [h.rows o₁, List.mem_cons, not_or]
    refine and_congr_right fun _ => and_iff_right ?_
    rintro rfl
    exact hidx rfl

theorem unclaimed (h : Rebuilt s rest t) (hs : BookRep s none)
    (ho : s.book.orders.get o.orderIndex = some o) (hshown : o.shown none = true) :
    Unclaimed t.book.orders none o := by
  intro o₁ ho₁ hshown₁ hmarket hsk
  exact hs.pages.entries.unique o₁ o _ _ _ (h.sub o₁ ho₁) ho
    (restingEntry_eq_some.mpr ⟨hshown₁, rfl, rfl⟩)
    (restingEntry_eq_some.mpr ⟨hshown, congrArg toLex (Prod.ext hmarket.symm hsk.symm), rfl⟩)

theorem adjust_grows (h : Rebuilt s (o :: rest) t) (hs : BookRep s none)
    (ho : s.book.orders.get o.orderIndex = some o) (hshown : o.shown none = true) :
    ∃ pl, (levelOf (pagesOf t).levels o.marketIndex o.price).adjust o.isAsk o.remainingBaseAmount
      (o.remainingBaseAmount * o.price) .plus 1 = .ok pl := by
  have hfree : (pagesOf t).entries.get (toLex (o.marketIndex, o.sortKey)) = none :=
    h.pages.key_free (h.unclaimed hs ho hshown) fun o₁ ho₁ => by
      rw [h.fresh ho] at ho₁
      cases ho₁
  have hsub : ∀ k e, ((pagesOf t).entries.set (toLex (o.marketIndex, o.sortKey)) o.toEntry).get k
      = some e → (pagesOf s).entries.get k = some e := by
    intro k e hget
    rw [KVStore.get_set] at hget
    split at hget
    · rename_i hk
      cases hget
      rw [hk]
      exact hs.pages.get_shown ho hshown
    · exact h.pages.entries.mono hs.pages.entries h.sub hget
  have hle : bookTotals ((pagesOf t).entries.set (toLex (o.marketIndex, o.sortKey)) o.toEntry)
      o.marketIndex o.price o.isAsk
      ≤ bookTotals (pagesOf s).entries o.marketIndex o.price o.isAsk := bookTotals_mono hsub
  rw [bookTotals_set hfree, share_toEntry, if_pos ⟨rfl, rfl, rfl⟩, ← h.pages.sums.totals,
    ← hs.pages.sums.totals] at hle
  obtain ⟨hbase, hquote, hcount⟩ := hle
  obtain ⟨hwb, hwq⟩ := hs.pages.sums.words o.marketIndex o.price o.isAsk
  have hwc := hs.pages.sums.word o.marketIndex o.price o.isAsk
  simp only [PriceLevelAggregate.totals, Prod.fst_add, Prod.snd_add] at hbase hquote hcount
  refine PerpDex.adjust_grows ?_ ?_ ?_
  · omega
  · exact le_trans (by exact_mod_cast hquote) hwq
  · omega

theorem count_grows (h : Rebuilt s (o :: rest) t) (hs : (indexesOf s).Exact none)
    (ho : s.book.orders.get o.orderIndex = some o) (hlive : o.status.isLive = true) :
    (indexesOf t).countOf o + 1 ≤ maxUint32 := by
  have hnone : (indexesOf t).openOrders.get o.accountOpenOrderKey = none := by
    refine h.exact.openOrders.get_none fun o₁ w ho₁ he₁ => ?_
    have hidx : o.orderIndex = o₁.orderIndex := openEntry_index he₁
    have hfresh := h.fresh ho
    rw [hidx] at hfresh
    cases hfresh.symm.trans ho₁
  have htally : Tally ((indexesOf t).openOrders.set o.accountOpenOrderKey ()) countGroup
      ((indexesOf t).counts.set o.countKey ((indexesOf t).countOf o + 1)) := by
    refine h.exact.tallied.tally.set hnone ?_ fun g hg => ?_
    · exact congrArg (Option.getD · 0) (KVStore.get_set_self _ _ _)
    · have hne : g ≠ o.countKey := hg
      rw [KVStore.get_set_ne _ _ hne]
  have hle := htally.mono hs.tallied.tally (fun k w hget => ?_) o.countKey
  · rw [KVStore.get_set_self, Option.getD_some] at hle
    exact hle.trans (hs.tallied.counted.countOf_le o)
  · rw [KVStore.get_set] at hget
    split at hget
    · rename_i hk
      cases hget
      rw [hk]
      exact hs.openOrders.get ho (if_pos hlive)
    · exact h.exact.openOrders.mono hs.openOrders h.sub hget

theorem client_free (h : Rebuilt s (o :: rest) t) (hs : (indexesOf s).Exact none)
    (ho : s.book.orders.get o.orderIndex = some o) (hlive : o.status.isLive = true)
    (hc : o.clientOrderIndex ≠ 0) : (indexesOf t).clients.get o.clientKey = none := by
  refine h.exact.clients.get_none fun o₁ w ho₁ he₁ => ?_
  have hidx : o₁.orderIndex = o.orderIndex :=
    hs.clients.unique o₁ o _ _ _ (h.sub o₁ ho₁) ho he₁ (if_pos ⟨hlive, hc⟩)
  have hfresh := h.fresh ho
  rw [← hidx] at hfresh
  cases hfresh.symm.trans ho₁

theorem restored {t' : State} (h : Rebuilt s (o :: rest) t) (hs : Exportable s)
    (ho : s.book.orders.get o.orderIndex = some o) (hnodup : o ∉ rest)
    (hlive : o.status.isLive = true) (hpages : (pagesOf t').Shows (t.book.orders.put o) none)
    (hindexes : indexesOf t' = ((if o.status = .triggeredPending then (indexesOf t).wait o
      else indexesOf t).mark o).put o) : Rebuilt s rest t' := by
  have horders : t'.book.orders = t.book.orders.put o := by
    have heq := congrArg Indexes.orders hindexes
    split at heq <;> exact heq
  have hcount := h.count_grows hs.exact ho hlive
  refine ⟨h.rows_put ho hnodup horders, horders ▸ hpages, ?_, ?_⟩
  · refine h.exact.opened hlive hindexes (fun o₀ ho₀ => ?_)
      (fun _ => h.client_free hs.exact ho hlive) (fun _ => hcount) (fun _ _ => Iff.rfl) (by simp)
    cases (h.fresh ho).symm.trans ho₀
  · have hlisted := h.reckoned.enlist o fun _ => hcount
    rw [hindexes]
    split <;> exact hlisted.congr rfl rfl

end Rebuilt

theorem Rebuilt.hidden (h : Rebuilt s (o :: rest) t) (ho : s.book.orders.get o.orderIndex = some o)
    (o₀ : Order) (ho₀ : t.book.orders.get o.orderIndex = some o₀) : o₀.shown none = false := by
  cases (h.fresh ho).symm.trans ho₀

theorem Rebuilt.index_run (h : Rebuilt s (o :: rest) t) (hs : Exportable s)
    (ho : s.book.orders.get o.orderIndex = some o) (hlive : o.status.isLive = true) (t₁ : State)
    (hcounts : (indexesOf t₁).counts = (indexesOf t).counts) :
    ∃ t₂, (indexOpenOrder o).run t₁ = .ok () t₂ ∧ indexesOf t₂ = (indexesOf t₁).mark o ∧
      pagesOf t₂ = pagesOf t₁ := by
  have hcount : (indexesOf t₁).countOf o + 1 ≤ maxUint32 := by
    rw [Indexes.countOf, hcounts]
    exact h.count_grows hs.exact ho hlive
  obtain ⟨t₂, hindex⟩ := indexOpenOrder_run (.inr hcount)
  exact ⟨t₂, hindex, (indexOpenOrder_indexes hindex).1, (indexOpenOrder_pages o).ok hindex⟩

theorem Rebuilt.restore_resting (h : Rebuilt s (o :: rest) t) (hs : Exportable s)
    (ho : s.book.orders.get o.orderIndex = some o) (hnodup : o ∉ rest)
    (hst : o.status.isResting = true) :
    ∃ t', (restoreGenesisOrder o).run t = .ok () t' ∧ Rebuilt s rest t' := by
  have hlive : o.status.isLive = true := OrderStatus.isLive_of_isResting hst
  have hshown : o.shown none = true := Order.shown_eq_true.mpr ⟨hst, by simp⟩
  have hback := hs.rep.backed o ho hshown
  obtain ⟨pl, hadj⟩ := h.adjust_grows hs.rep ho hshown
  obtain ⟨t₁, hadjust, hpages₁⟩ := adjustPriceLevel_run
    (s := t.enter o.marketIndex o.sortKey o.toEntry) hadj
  have hinsert : (insertEntry o.marketIndex o.isAsk o.toEntry).run t = .ok () t₁ :=
    (insertEntry_eq hback.quote).trans hadjust
  have hindexes₁ : indexesOf t₁ = indexesOf t := (insertEntry_indexes _ _ _).ok hinsert
  obtain ⟨t₂, hindex, hmark, hpages₂⟩ := h.index_run hs ho hlive t₁ (by rw [hindexes₁])
  have hset : (setOrder o).run t₂ = .ok () (after (setOrder o) t₂) := rfl
  refine ⟨_, run_bind_ok.mpr ⟨(), t₂, ?_, hset⟩, h.restored hs ho hnodup hlive ?_ ?_⟩
  · rw [restoreGenesisOrderIndexes, if_pos hst]
    exact run_bind_ok.mpr ⟨_, _, hinsert, hindex⟩
  · have hpages : pagesOf (after (setOrder o) t₂)
        = ((pagesOf t).insert o.marketIndex o.sortKey o.toEntry).write pl := hpages₂.trans hpages₁
    rw [hpages]
    exact h.pages.enter (fun _ _ => Iff.rfl) (h.hidden ho) hshown (h.unclaimed hs.rep ho hshown)
      (hs.rep.typed o ho).remaining hback.quote (checkedQuote_word hback.quote) hadj
  · rw [setOrder_indexes hset, hmark, hindexes₁, if_neg (OrderStatus.not_pending_of_isResting hst)]

theorem Rebuilt.restore_pending (h : Rebuilt s (o :: rest) t) (hs : Exportable s)
    (ho : s.book.orders.get o.orderIndex = some o) (hnodup : o ∉ rest)
    (hst : o.status = .triggeredPending) :
    ∃ t', (restoreGenesisOrder o).run t = .ok () t' ∧ Rebuilt s rest t' := by
  have hresting : ¬ o.status.isResting = true := by
    rw [hst]
    decide
  have hlive : o.status.isLive = true := by
    rw [hst]
    rfl
  let t₁ := after (addTrigger o.marketIndex o.triggerPrice o.orderIndex) t
  have hwait : (addTrigger o.marketIndex o.triggerPrice o.orderIndex).run t = .ok () t₁ := rfl
  obtain ⟨t₂, hindex, hmark, hpages₂⟩ := h.index_run hs ho hlive t₁ rfl
  have hset : (setOrder o).run t₂ = .ok () (after (setOrder o) t₂) := rfl
  refine ⟨_, run_bind_ok.mpr ⟨(), t₂, ?_, hset⟩, h.restored hs ho hnodup hlive ?_ ?_⟩
  · rw [restoreGenesisOrderIndexes, if_neg hresting, if_pos hst]
    exact run_bind_ok.mpr ⟨_, _, hwait, hindex⟩
  · have hpages : pagesOf (after (setOrder o) t₂) = pagesOf t := hpages₂
    rw [hpages]
    exact h.pages.aside o (fun _ _ => Iff.rfl) (h.hidden ho) (by simp [Order.shown, hresting])
  · rw [setOrder_indexes hset, hmark, if_pos hst]
    rfl

theorem Rebuilt.restore_closed (h : Rebuilt s (o :: rest) t)
    (ho : s.book.orders.get o.orderIndex = some o) (hnodup : o ∉ rest)
    (hresting : ¬ o.status.isResting = true) (hpending : o.status ≠ .triggeredPending) :
    ∃ t', (restoreGenesisOrder o).run t = .ok () t' ∧ Rebuilt s rest t' := by
  refine ⟨after (setOrder o) t, run_bind_ok.mpr ⟨(), t, ?_, rfl⟩,
    h.rows_put ho hnodup rfl, ?_, ?_, h.reckoned.congr rfl rfl⟩
  · rw [restoreGenesisOrderIndexes, if_neg hresting, if_neg hpending]
    rfl
  · exact h.pages.aside o (fun _ _ => Iff.rfl) (h.hidden ho) (by simp [Order.shown, hresting])
  · exact h.exact.recorded (h.fresh ho) (by simp [OrderStatus.isLive, hresting, hpending])

theorem restoreGenesisOrder_run (hs : Exportable s) (h : Rebuilt s (o :: rest) t)
    (ho : s.book.orders.get o.orderIndex = some o) (hnodup : o ∉ rest) :
    ∃ t', (restoreGenesisOrder o).run t = .ok () t' ∧ Rebuilt s rest t' := by
  by_cases hresting : o.status.isResting = true
  · exact h.restore_resting hs ho hnodup hresting
  · by_cases hpending : o.status = .triggeredPending
    · exact h.restore_pending hs ho hnodup hpending
    · exact h.restore_closed ho hnodup hresting hpending

theorem restoreGenesisOrder_next {u : Unit} (h : (restoreGenesisOrder o).run s = .ok u t) :
    t.book.nextOrderIndex = s.book.nextOrderIndex := by
  obtain ⟨_, s₁, hrestore, hset⟩ := run_bind_ok.mp h
  have hnext : (coreOf s₁).nextIndex = (coreOf s).nextIndex := by
    unfold restoreGenesisOrderIndexes at hrestore
    split_ifs at hrestore
    · obtain ⟨_, s₂, hinsert, hindex⟩ := run_bind_ok.mp hrestore
      have hsame : coreOf s₁ = coreOf s₂ := (indexOpenOrder_core o).ok hindex
      rw [hsame, insertEntry_ok hinsert]
      rfl
    · obtain ⟨_, s₂, htrigger, hindex⟩ := run_bind_ok.mp hrestore
      have hsame : coreOf s₁ = coreOf s₂ := (indexOpenOrder_core o).ok hindex
      rw [hsame]
      obtain rfl := modifyBook_ok htrigger
      rfl
    · obtain ⟨-, rfl⟩ := run_pure_ok.mp hrestore
      rfl
  obtain rfl := modifyBook_ok hset
  exact hnext

theorem restoreGenesisOrders_run (hs : Exportable s) (rest : List Order) (t : State)
    (hnodup : rest.Nodup) (hstored : ∀ o ∈ rest, s.book.orders.get o.orderIndex = some o)
    (h : Rebuilt s rest t) :
    ∃ t', (rest.forM restoreGenesisOrder).run t = .ok () t' ∧ Rebuilt s [] t' ∧
      t'.book.nextOrderIndex = t.book.nextOrderIndex := by
  induction rest generalizing t with
  | nil => exact ⟨t, rfl, h, rfl⟩
  | cons o rest ih =>
    obtain ⟨hnot, hnodup⟩ := List.nodup_cons.mp hnodup
    obtain ⟨t₁, hrun, h₁⟩ := restoreGenesisOrder_run hs h (hstored o List.mem_cons_self) hnot
    obtain ⟨t', hrest, h', hnext⟩ := ih t₁ hnodup
      (fun o₁ ho₁ => hstored o₁ (List.mem_cons_of_mem _ ho₁)) h₁
    exact ⟨t', run_bind_ok.mpr ⟨_, _, hrun, hrest⟩, h',
      hnext.trans (restoreGenesisOrder_next hrun)⟩

theorem init_rebuilds (hs : Exportable s) {s₀ : State} {n : ℕ}
    (hempty : s₀.book = { nextOrderIndex := n }) :
    ∃ t, (exportOrderbookGenesis s).init.run s₀ = .ok () t ∧ t.book = s.book := by
  let s₁ : State := { s₀ with book := { s₀.book with nextOrderIndex := s.book.nextOrderIndex } }
  have hbook : s₁.book = { nextOrderIndex := s.book.nextOrderIndex } := by
    show { s₀.book with nextOrderIndex := s.book.nextOrderIndex } = _
    rw [hempty]
  have hstart : Rebuilt s s.book.orders.toList s₁ := by
    refine ⟨fun o => ?_, ?_, ?_, ?_⟩
    · rw [hbook, Table.mem_toList_iff]
      simp
    · rw [pagesOf, hbook]
      exact .empty
    · rw [indexesOf, hbook]
      exact ⟨.empty, ⟨.empty, by simp⟩, .empty, .empty, .empty⟩
    · rw [indexesOf, hbook]
      exact ⟨⟨.empty, by simp⟩, by simp⟩
  obtain ⟨t, hrun, h, hnext⟩ := restoreGenesisOrders_run hs _ s₁ s.book.orders.nodup_toList
    (fun o ho => Table.mem_toList_iff.mp ho) hstart
  have horders : t.book.orders = s.book.orders := by
    refine Table.ext_get fun i => Option.ext fun o => ?_
    constructor
    · intro ho
      obtain rfl := Table.key_of_get ho
      exact ((h.rows o).mp ho).1
    · intro ho
      obtain rfl := Table.key_of_get ho
      exact (h.rows o).mpr ⟨ho, by simp⟩
  refine ⟨t, ?_, book_eq_of_parts ?_ ?_ (hnext.trans (by rw [hbook]))⟩
  · have hfloor : (if (exportOrderbookGenesis s).nextOrderIndex < 1 then 1
        else (exportOrderbookGenesis s).nextOrderIndex) = s.book.nextOrderIndex :=
      if_neg (not_lt.mpr hs.next)
    rw [OrderbookGenesis.init, hfloor]
    exact run_bind_ok.mpr ⟨(), s₁, rfl, hrun⟩
  · exact (horders ▸ h.pages).eq hs.rep.pages
  · exact h.exact.eq hs.exact horders h.reckoned hs.rep.reckoned

/-! ### Runs of the exchange -/

section Moves

variable [AddressCodec]

/-- **An export of the order book is rebuilt by its import**, in every state of a run in which no fired
trigger overflows its price. -/
theorem genesis_round_trip {s₀ v : State} {n : ℕ} (hfresh : FreshBook s₀)
    (hrun : Relation.ReflTransGen (fun d d' => Move d d' ∧ StoresFit d d') ⟨s₀, none⟩ ⟨s, none⟩)
    (hempty : v.book = { nextOrderIndex := n }) :
    ∃ t, (exportOrderbookGenesis s).init.run v = .ok () t ∧ t.book = s.book := by
  obtain ⟨hr, -, hx⟩ := deskRun_represented hrun hfresh.represented (.idle hfresh.inv) hfresh.indexed
  exact init_rebuilds ⟨hr.rep, hx.exact, hr.next⟩ hempty

end Moves

/-- The book with one bid is exported and imported. -/
theorem genesis_round_trip_one_bid :
    let _ := AddressCodec.acceptAll
    let o := { bid.toOrder 1 firstBidNonce with status := .opened }
    let s := after (openOrder o) (after (prepareOrder bid) oneSlotMarket)
    exportOrderbookGenesis s = { nextOrderIndex := 2, orders := [o] } ∧
      ∃ t, (exportOrderbookGenesis s).init.run {} = .ok () t ∧ t.book = s.book := by
  intro _ o s
  obtain ⟨hfresh, haccept, hstore⟩ := oneBid_moves
  refine ⟨by decide +kernel, genesis_round_trip hfresh ?_ rfl⟩
  exact .tail (.single ⟨haccept, fun o' u st e ho' => by simp at ho'⟩)
    ⟨hstore, fun o' u st e ho' => by simp at ho'⟩

/-! ### After an overflow -/

theorem restoreGenesisOrder_expiries {u : Unit} (h : (restoreGenesisOrder o).run s = .ok u t) :
    t.book.expiryIndex = if o.status.isLive = true ∧ indexExpiry o = true
      then s.book.expiryIndex.set o.expiryKey () else s.book.expiryIndex := by
  obtain ⟨_, s₁, hrestore, hset⟩ := run_bind_ok.mp h
  have hsame : t.book.expiryIndex = s₁.book.expiryIndex := by
    obtain rfl := modifyBook_ok hset
    rfl
  rw [hsame]
  unfold restoreGenesisOrderIndexes at hrestore
  split_ifs at hrestore with hresting hpending
  · obtain ⟨_, s₂, hinsert, hindex⟩ := run_bind_ok.mp hrestore
    have hindexes : indexesOf s₂ = indexesOf s := (insertEntry_indexes _ _ _).ok hinsert
    have hmark := (indexOpenOrder_indexes hindex).1
    rw [hindexes] at hmark
    simp only [OrderStatus.isLive_of_isResting hresting, true_and]
    exact congrArg Indexes.expiries hmark
  · obtain ⟨_, s₂, htrigger, hindex⟩ := run_bind_ok.mp hrestore
    have hmark := (indexOpenOrder_indexes hindex).1
    have hlive : o.status.isLive = true := by
      rw [hpending]
      rfl
    simp only [hlive, true_and]
    obtain rfl := modifyBook_ok htrigger
    exact congrArg Indexes.expiries hmark
  · obtain ⟨-, rfl⟩ := run_pure_ok.mp hrestore
    rw [if_neg (by simp [OrderStatus.isLive, hresting, hpending])]

theorem init_lists_expiries {gs : OrderbookGenesis} {u : Unit} (h : gs.init.run s = .ok u t)
    (ho : o ∈ gs.orders) (hlive : o.status.isLive = true) (hexpiry : indexExpiry o = true) :
    t.book.expiryIndex.get o.expiryKey = some () := by
  obtain ⟨_, s₁, -, hloop⟩ := run_bind_ok.mp h
  have hall : o ∉ ([] : List Order) → t.book.expiryIndex.get o.expiryKey = some () := by
    refine forM_rule (P := fun rest v => o ∉ rest → v.book.expiryIndex.get o.expiryKey = some ())
      (fun a rest v w r hP _ hrun hnot => ?_) hloop fun hnot => absurd ho hnot
    rw [restoreGenesisOrder_expiries hrun]
    by_cases ha : o = a
    · subst ha
      rw [if_pos ⟨hlive, hexpiry⟩, KVStore.get_set_self]
    · have hbefore := hP fun hmem => (List.mem_cons.mp hmem).elim ha hnot
      split
      · rw [KVStore.get_set, hbefore]
        split <;> rfl
      · exact hbefore
  exact hall (by simp)

/-- **The book of a crowded price is not rebuilt**: the trigger that was neither stored nor cancelled
is open without being listed. -/
theorem crowded_price_lost_in_genesis :
    let _ := AddressCodec.acceptAll
    ∃ t, FreshBook (crowdedMarket {} 0) ∧ DeskRun ⟨crowdedMarket {} 0, none⟩ ⟨t, none⟩ ∧
      ¬ ∃ t', (exportOrderbookGenesis t).init.run {} = .ok () t' ∧ t'.book = t.book := by
  intro _
  obtain ⟨s, t, i, o, hfresh, -, -, hmoves, ho, hst, hgtt, hpos, hexpiry⟩ := crowded_stop_stays_open
  refine ⟨t, hfresh, hmoves, ?_⟩
  rintro ⟨t', hrun, hbook⟩
  obtain rfl := Table.key_of_get ho
  have hlisted := init_lists_expiries (o := o) hrun (Table.mem_toList ho) (by rw [hst]; rfl)
    (by simp [indexExpiry, hgtt, hpos])
  rw [hbook] at hlisted
  cases hexpiry.symm.trans hlisted

end PerpDex
