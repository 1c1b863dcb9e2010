/-
Runs of the exchange that touch the order book.

* `Outside` — what the rest of the chain may change between two operations on the book.

Main results: `ExchangeStep.rule`, `ExchangeRun.invariant`.

A message that fails is rolled back and is no step.  A hook is a step if it does not panic; errors of
single orders are part of it.  Messages and hooks come in any order.
-/
import PerpDex.BookFrame

namespace PerpDex

open Txn

/-- What happens outside of the order book: the book, the locked balances, the nonces of a market and
the sizes of positions stay, a market keeps its type and its assets, and none comes back from
expiry. -/
structure Outside (s t : State) : Prop where
  book : t.book = s.book
  nonces : ∀ m next, (coreOf s).nonces m = some next → (coreOf t).nonces m = some next
  /-- A new market starts with the first nonces. -/
  fresh : ∀ m next, (coreOf t).nonces m = some next →
    (coreOf s).nonces m = some next ∨ next = (firstAskNonce, firstBidNonce)
  markets : ∀ m mk, s.market.markets.get m = some mk → ∃ mk', t.market.markets.get m = some mk' ∧
    mk'.marketType = mk.marketType ∧ mk'.baseAssetId = mk.baseAssetId ∧
    mk'.quoteAssetId = mk.quoteAssetId ∧ (mk.status = .expired → mk'.status = .expired)
  positions : ∀ m, Elsewhere m s t
  locks : ∀ acc asset, (getAccountAsset t acc asset).lockedBalance
    = (getAccountAsset s acc asset).lockedBalance

theorem Forced.sameCore {s t : State} (h : Forced s t) : SameCore s t := by
  have hbook : t.book = s.book := by rw [h.frame]
  simp only [SameCore, coreOf, hbook, nonces_of_details h.details]

section Steps

variable [AddressCodec]

/-- Whenever the message gets as far as matching its order, the order meets `Admit`. -/
def Admitted (Admit : Order → State → Prop) (msg : MsgCreateOrder) (s : State) : Prop :=
  ∀ prepared s₁, (prepareOrder msg).run s = .ok prepared s₁ →
    isTriggerOrder msg.orderType = false → Admit prepared.2 s₁

/-- Whenever the trigger is activated, the order it becomes meets `Fire`. -/
def Fires (Fire : Order → State → Prop) (i : ℕ) (s : State) : Prop :=
  ∀ o s₁, (activateTrigger i).run s = .ok o s₁ → Fire (executableTwin o) s₁

/-- One step of the exchange.  `Admit` is a condition on the orders of messages when their matching
begins, and `Fire` one on the orders of activated triggers. -/
inductive ExchangeStep (Admit Fire : Order → State → Prop) (s : State) : State → Prop
  | createOrder {t : State} (msg : MsgCreateOrder) {resp : MsgCreateOrderResponse}
      (h : (createOrder msg).run s = .ok resp t) (hadm : Admitted Admit msg s) :
      ExchangeStep Admit Fire s t
  | cancelOrder {t : State} (msg : MsgCancelOrder) (h : (cancelOrderMsg msg).run s = .ok () t) :
      ExchangeStep Admit Fire s t
  | cancelAllOrders {t : State} (msg : MsgCancelAllOrders)
      (h : (cancelAllOrders msg).run s = .ok () t) : ExchangeStep Admit Fire s t
  | modifyOrder {t : State} (msg : MsgModifyOrder) {idx : ℕ}
      (h : (modifyOrder msg).run s = .ok idx t)
      (hadm : ∀ create s₁, (withdrawOrder msg).run s = .ok create s₁ →
        Admitted Admit create s₁) : ExchangeStep Admit Fire s t
  | liquidate {t : State} (msg : MsgLiquidate) (h : (liquidate msg).run s = .ok () t) :
      ExchangeStep Admit Fire s t
  | expire {t : State} (h : orderbookEndBlocker.run s = .ok () t) : ExchangeStep Admit Fire s t
  | trigger {t : State} (h : matchingEndBlocker.run s = .ok () t)
      (hfire : ∀ i u, Visits fireTrigger (dueTriggers s) s i u → Fires Fire i u) :
      ExchangeStep Admit Fire s t
  | forced {t : State} (h : ForcedHook s t) : ExchangeStep Admit Fire s t
  | outside {t : State} (h : Outside s t) : ExchangeStep Admit Fire s t

abbrev ExchangeRun (Admit Fire : Order → State → Prop) : State → State → Prop :=
  Relation.ReflTransGen (ExchangeStep Admit Fire)

end Steps

/-! ### Triggers that are due -/

/-- The orders of the list are different and wait for their triggers. -/
structure Core.AllPending (c : Core) (l : List ℕ) : Prop where
  nodup : l.Nodup
  waits : ∀ i ∈ l, ∃ o, c.orders.get i = some o ∧ o.status = .triggeredPending ∧
    0 < o.remainingBaseAmount

theorem nodup_filterMap {α β : Type} {f : α → Option β} {g : β → α} {l : List α}
    (h : ∀ a ∈ l, ∀ b, f a = some b → g b = a) (hl : l.Nodup) : (l.filterMap f).Nodup := by
  refine List.pairwise_filterMap.mpr (hl.imp_of_mem ?_)
  intro a a' ha ha' hne b hb b' hb' heq
  exact hne ((h a ha b hb).symm.trans (heq ▸ h a' ha' b' hb'))

theorem dueTriggers_pending {s : State} (hc : (coreOf s).Inv) :
    (coreOf s).AllPending (dueTriggers s) := by
  have hentry : ∀ e ∈ s.book.triggerIndex.entries, ∀ o,
      s.book.orders.get (ofLex (ofLex e.1).2).2 = some o →
      o.status = .triggeredPending ∧ 0 < o.remainingBaseAmount ∧
        (triggerKey o.marketIndex o.triggerPrice o.orderIndex, ()) = e := by
    rintro ⟨⟨m, p, i⟩, u⟩ he o ho
    obtain ⟨o', hwaits⟩ := hc.trigger m p i (KVStore.mem_entries.mp he)
    obtain rfl : o' = o := Option.some_inj.mp (hwaits.order.symm.trans ho)
    refine ⟨hwaits.status, hwaits.remaining, ?_⟩
    rw [hwaits.market, hwaits.price, Table.key_of_get hwaits.order]
    rfl
  have hrow : ∀ o ∈ triggersOf s, s.book.orders.get o.orderIndex = some o ∧
      o.status = .triggeredPending ∧ 0 < o.remainingBaseAmount := by
    intro o ho
    obtain ⟨e, he, hget⟩ := List.mem_filterMap.mp ho
    obtain ⟨hst, hrem, -⟩ := hentry e he o hget
    rw [Table.key_of_get hget]
    exact ⟨hget, hst, hrem⟩
  have hnodup : (triggersOf s).Nodup := by
    refine nodup_filterMap
      (g := fun o => (triggerKey o.marketIndex o.triggerPrice o.orderIndex, ())) ?_ ?_
    · exact fun e he o ho => (hentry e he o ho).2.2
    · exact List.Nodup.of_map Prod.fst
        (List.pairwise_map.mpr (s.book.triggerIndex.sorted.imp fun h => ne_of_lt h))
  constructor
  · refine List.Nodup.map_on ?_ (hnodup.filter _)
    intro o ho o' ho' hidx
    have h := (hrow o (List.mem_filter.mp ho).1).1
    have h' := (hrow o' (List.mem_filter.mp ho').1).1
    rw [hidx, h', Option.some_inj] at h
    exact h.symm
  · intro i hi
    obtain ⟨o, ho, rfl⟩ := List.mem_map.mp hi
    exact ⟨o, hrow o (List.mem_filter.mp ho).1⟩

theorem Core.AllPending.tail {c c' : Core} {i : ℕ} {rest : List ℕ} (hc : c.Inv)
    (h : c.AllPending (i :: rest)) (hspares : Core.Spares i c c') : c'.AllPending rest := by
  obtain ⟨hi, hnodup⟩ := List.nodup_cons.mp h.nodup
  refine ⟨hnodup, fun j hj => ?_⟩
  obtain ⟨o, ho, hst, hrem⟩ := h.waits j (List.mem_cons_of_mem _ hj)
  have hne : j ≠ i := by
    rintro rfl
    exact hi hj
  have hno := hc.noEntry_of_status ho (by rw [hst]; rfl)
  exact ⟨o, (hspares j hne hno).2.trans ho, hst, hrem⟩

/-! ### The rule for steps -/

section Rule

variable {P : State → Prop} {s t : State} {u : Unit}

theorem cancelOrder_of_ok (hcancel : ∀ i s, P s → P (after (cancelOrder i) s)) {i : ℕ} {o : Order}
    (h : (cancelOrder i).run s = .ok o t) (hs : P s) : P t :=
  after_of_ok h ▸ hcancel i s hs

theorem cancelOpenOrders_of_ok (hcancel : ∀ i s, P s → P (after (cancelOrder i) s))
    {account filter : ℕ} (h : (cancelOpenOrders account filter).run s = .ok u t) (hs : P s) :
    P t := by
  obtain ⟨params, s₁, hparams, h⟩ := run_bind_ok.mp h
  obtain ⟨-, rfl⟩ := run_read_ok.mp hparams
  obtain ⟨targets, s₂, htargets, h⟩ := run_bind_ok.mp h
  obtain ⟨-, rfl⟩ := run_read_ok.mp htargets
  refine forM_rule (P := fun _ => P) ?_ h hs
  intro o rest v w r hv _ hrun
  obtain ⟨_, w', hcancelled, hpure⟩ := run_bind_ok.mp hrun
  obtain ⟨-, rfl⟩ := run_pure_ok.mp hpure
  exact after_of_ok hcancelled ▸ hcancel _ _ hv

theorem getOwnOrder_ok {sender : String} {i : ℕ} {o : Order}
    (h : (getOwnOrder sender i).run s = .ok o t) : t = s ∧ (coreOf s).orders.get i = some o := by
  simp only [getOwnOrder, run_bind_ok, run_read_ok, run_require_ok, run_pure_ok] at h
  obtain ⟨o', s₁, ⟨ho, rfl⟩, _, s₂, ⟨-, rfl⟩, _, s₃, ⟨-, rfl⟩, rfl, rfl⟩ := h
  exact ⟨rfl, getOrder_eq_ok.mp ho⟩

variable [AddressCodec]

/-- What a modification has done before it places the new order: it has cancelled the old one. -/
theorem withdrawOrder_ok {msg : MsgModifyOrder} {create : MsgCreateOrder}
    (h : (withdrawOrder msg).run s = .ok create t) :
    ∃ o, (coreOf s).orders.get msg.orderIndex = some o ∧ create = msg.toCreate o ∧
      t = after (cancelOrder o.orderIndex) s := by
  simp only [withdrawOrder, requireModifiable, bind_assoc, run_bind_ok, run_lift_ok, run_read_ok,
    run_require_ok, run_pure_ok] at h
  obtain ⟨_, s₁, ⟨-, rfl⟩, o, s₂, hown, _, s₃, ⟨-, rfl⟩, _, s₄, ⟨-, rfl⟩, _, s₅, ⟨-, rfl⟩, _, s₆,
    hcancel, rfl, rfl⟩ := h
  obtain ⟨rfl, ho⟩ := getOwnOrder_ok hown
  exact ⟨o, ho, rfl, (after_of_ok hcancel).symm⟩

/-- **A property kept by cancelling, placing, liquidating and activating orders is kept by every
step of the exchange.** -/
theorem ExchangeStep.rule {Admit Fire : Order → State → Prop}
    (hinv : ∀ s, P s → (coreOf s).Inv)
    (hcancel : ∀ i s, P s → P (after (PerpDex.cancelOrder i) s))
    (hcreate : ∀ msg resp s t, P s → Admitted Admit msg s →
      (PerpDex.createOrder msg).run s = .ok resp t → P t)
    (hliquidate : ∀ victim m zeroPrice base feeBps recipient n s t, P s →
      (matchLiquidationOrder victim m zeroPrice base feeBps recipient).run s = .ok n t → P t)
    (hfire : ∀ i o s t, P s → (coreOf s).orders.get i = some o → o.status = .triggeredPending →
      0 < o.remainingBaseAmount → Fires Fire i s → (fireTrigger i).run s = .ok () t → P t)
    (hforced : ∀ s t, P s → ForcedHook s t → P t)
    (houtside : ∀ s t, P s → Outside s t → P t)
    (h : ExchangeStep Admit Fire s t) (hs : P s) : P t := by
  cases h with
  | createOrder msg h hadm => exact hcreate msg _ s t hs hadm h
  | cancelOrder msg h =>
    simp only [cancelOrderMsg, run_bind_ok, run_lift_ok, run_pure_ok] at h
    obtain ⟨_, s₁, ⟨-, rfl⟩, o, s₂, hown, _, s₃, hcancelled, -, rfl⟩ := h
    obtain ⟨rfl, -⟩ := getOwnOrder_ok hown
    exact cancelOrder_of_ok hcancel hcancelled hs
  | cancelAllOrders msg h =>
    simp only [PerpDex.cancelAllOrders, run_bind_ok, run_lift_ok, run_read_ok, run_require_ok] at h
    obtain ⟨_, s₁, ⟨-, rfl⟩, _, s₂, ⟨-, rfl⟩, _, s₃, ⟨-, rfl⟩, _, s₄, ⟨-, rfl⟩, h⟩ := h
    exact cancelOpenOrders_of_ok hcancel h hs
  | modifyOrder msg h hadm =>
    obtain ⟨create, s₁, hwithdraw, h⟩ := run_bind_ok.mp h
    obtain ⟨resp, s₂, hcreated, hpure⟩ := run_bind_ok.mp h
    obtain ⟨-, rfl⟩ := run_pure_ok.mp hpure
    obtain ⟨o, -, -, hs₁⟩ := withdrawOrder_ok hwithdraw
    have hP₁ : P s₁ := hs₁ ▸ hcancel _ s hs
    exact hcreate create resp s₁ _ hP₁ (hadm create s₁ hwithdraw) hcreated
  | liquidate msg h =>
    simp only [PerpDex.liquidate, liquidatePosition, run_bind_ok, run_lift_ok, run_read_ok,
      run_require_ok, run_pure_ok] at h
    obtain ⟨_, s₁, ⟨-, rfl⟩, snap, s₂, ⟨-, rfl⟩, _, s₃, ⟨-, rfl⟩, _, s₄, ⟨-, rfl⟩, _, s₅, ⟨-, rfl⟩,
      _, s₆, ⟨-, rfl⟩, _, s₇, ⟨-, rfl⟩, _, s₈, hcancelled, market, s₉, ⟨-, rfl⟩, n, s₁₀, hmatch, -,
      rfl⟩ := h
    exact hliquidate _ _ _ _ _ _ n _ _ (cancelOpenOrders_of_ok hcancel hcancelled hs) hmatch
  | expire h =>
    obtain ⟨expired, s₁, hexpired, h⟩ := run_bind_ok.mp h
    obtain ⟨-, rfl⟩ := run_read_ok.mp hexpired
    refine forM_rule (P := fun _ => P) ?_ h hs
    intro i rest v w r hv _ hrun
    obtain ⟨_, w', hlogged, hpure⟩ := run_bind_ok.mp hrun
    obtain ⟨-, rfl⟩ := run_pure_ok.mp hpure
    rcases run_attempt_ok.mp hlogged with ⟨_, -, hrun⟩ | ⟨_, -, -, hrun⟩
    · exact after_of_ok hrun ▸ hcancel i v hv
    · exact after_of_error hrun ▸ hcancel i v hv
  | trigger h hfires =>
    obtain ⟨due, s₁, hdue, h⟩ := run_bind_ok.mp h
    obtain ⟨hdue, rfl⟩ := run_read_ok.mp hdue
    cases hdue
    -- along the loop, the orders that are still to come keep waiting
    refine (forM_rule (P := fun l v => P v ∧ (coreOf v).AllPending l) ?_ h
      ⟨hs, dueTriggers_pending (hinv _ hs)⟩).1
    rintro i rest v w ⟨⟩ ⟨hv, hpending⟩ hvisit hrun
    obtain ⟨o, ho, hst, hrem⟩ := hpending.waits i List.mem_cons_self
    refine ⟨hfire i o v w hv ho hst hrem (hfires i v hvisit) hrun, ?_⟩
    have hsteps : Core.Steps (fun _ _ => True) (fun _ => True) i (coreOf v) (coreOf w) :=
      fireTrigger_steps (hinv v hv) ho hst hrem (fun _ _ _ _ _ _ _ => trivial) hrun
    exact hpending.tail (hinv v hv) hsteps.spares
  | forced h => exact hforced s t hs h
  | outside h => exact houtside s t hs h

end Rule

/-! ### Runs as runs of the book's system -/

section Refinement

variable {Rest : Core → Order → Prop} {Park : Order → Prop} {Admit Fire : Order → State → Prop}
  {s t : State}

/-- A step of the book's system on behalf of some order. -/
def Core.AnyStep (Rest : Core → Order → Prop) (Park : Order → Prop) (c c' : Core) : Prop :=
  ∃ i, Core.Step Rest Park i c c'

theorem Core.Steps.any {i : ℕ} {c c' : Core} (h : Core.Steps Rest Park i c c') :
    Relation.ReflTransGen (Core.AnyStep Rest Park) c c' :=
  Relation.ReflTransGen.mono (fun _ _ hstep => ⟨i, hstep⟩) _ _ h

theorem Core.invariant_of_steps {Q : Core → Prop} {c c' : Core}
    (hstep : ∀ i c c', c.Inv → Q c → Core.Step Rest Park i c c' → Q c')
    (h : Relation.ReflTransGen (Core.AnyStep Rest Park) c c') (hc : c.Inv ∧ Q c) :
    c'.Inv ∧ Q c' := by
  induction h with
  | refl => exact hc
  | tail _ hany ih =>
    obtain ⟨i, hi⟩ := hany
    exact ⟨hi.inv ih.1, hstep i _ _ ih.1 ih.2 hi⟩

/-- The conditions on the orders that are matched imply `Rest` for those that come to rest. -/
def RestsUnder (Cond : Order → State → Prop) (Rest : Core → Order → Prop) : Prop :=
  ∀ (o : Order) s₁ r s₂, Cond o s₁ →
    (matchOrder o s₁.matchingParams.maxFillsPerMsg).run s₁ = .ok r s₂ →
    r.settled.status.isResting = true → Rest (coreOf s₂) r.settled

/-- The same for the orders of messages.  On a spot book an order rests only if its account can
lock what is left of it. -/
def PlacesUnder (Cond : Order → State → Prop) (Rest : Core → Order → Prop) : Prop :=
  ∀ (o : Order) market s₁ r s₂, Cond o s₁ → getMarket o.marketIndex s₁ = .ok market →
    (matchOrder o s₁.matchingParams.maxFillsPerMsg).run s₁ = .ok r s₂ →
    gateSpotResidue market r.settled s₂ = r.settled → r.settled.status.isResting = true →
    Rest (coreOf s₂) r.settled

theorem Outside.anyStep (hc : (coreOf s).Inv) (h : Outside s t) :
    Core.AnyStep Rest Park (coreOf s) (coreOf t) := by
  have hcore : coreOf t = { coreOf s with
      nextIndex := (coreOf s).nextIndex, nonces := (coreOf t).nonces } := by
    simp only [coreOf, h.book]
  refine ⟨0, ?_⟩
  rw [hcore]
  refine .grow (hc.grow le_rfl ?_ ?_)
  · intro m next hnext
    exact ⟨next, h.nonces m next hnext, le_rfl, le_rfl⟩
  · intro m next hnext
    rcases h.fresh m next hnext with hold | rfl
    · exact hc.nonces m next hold
    · exact ⟨le_rfl, by decide, le_rfl⟩

variable [AddressCodec]

theorem ExchangeStep.steps (hadm : PlacesUnder Admit Rest) (hfire : RestsUnder Fire Rest)
    (hpark : ∀ (msg : MsgCreateOrder) idx nonce, msg.checkFields = .ok () →
      isTriggerOrder msg.orderType = true →
      Park { msg.toOrder idx nonce with status := .triggeredPending })
    (hc : (coreOf s).Inv) (h : ExchangeStep Admit Fire s t) :
    (coreOf t).Inv ∧ Relation.ReflTransGen (Core.AnyStep Rest Park) (coreOf s) (coreOf t) := by
  refine ExchangeStep.rule (P := fun v => (coreOf v).Inv ∧
    Relation.ReflTransGen (Core.AnyStep Rest Park) (coreOf s) (coreOf v))
    (fun v hv => hv.1) ?_ ?_ ?_ ?_ ?_ ?_ h ⟨hc, .refl⟩
  · rintro i v ⟨hv, hsteps⟩
    have hcancel : Core.Steps Rest Park i (coreOf v) _ := cancelOrder_steps i v
    exact ⟨hcancel.inv hv, hsteps.trans hcancel.any⟩
  · rintro msg resp v w ⟨hv, hsteps⟩ hmsg hcreate
    have hexists : ∃ i, Core.Steps Rest Park i (coreOf v) (coreOf w) :=
      createOrder_steps hv (hpark msg) (fun prepared s₁ r s₂ hprepare htype =>
        hadm _ _ s₁ r s₂ (hmsg prepared s₁ hprepare htype) (prepareOrder_market hprepare)) hcreate
    obtain ⟨i, hcreated⟩ := hexists
    exact ⟨hcreated.inv hv, hsteps.trans hcreated.any⟩
  · rintro victim m zeroPrice base feeBps recipient n v w ⟨hv, hsteps⟩ hmatch
    have hswept : Core.Steps Rest Park 0 (coreOf v) (coreOf w) :=
      matchLiquidationOrder_steps 0 hv hmatch
    exact ⟨hswept.inv hv, hsteps.trans hswept.any⟩
  · rintro i o v w ⟨hv, hsteps⟩ ho hst hrem hfires hrun
    have hfired : Core.Steps Rest Park i (coreOf v) (coreOf w) :=
      fireTrigger_steps hv ho hst hrem
        (fun o' s₁ r s₂ hactivate => hfire _ s₁ r s₂ (hfires o' s₁ hactivate)) hrun
    exact ⟨hfired.inv hv, hsteps.trans hfired.any⟩
  · rintro v w ⟨hv, hsteps⟩ hforced
    have hcore : coreOf w = coreOf v := hforced.forced.sameCore
    rw [hcore]
    exact ⟨hv, hsteps⟩
  · rintro v w ⟨hv, hsteps⟩ houtside
    have hstep : Core.AnyStep Rest Park (coreOf v) (coreOf w) := houtside.anyStep hv
    obtain ⟨i, hi⟩ := hstep
    exact ⟨hi.inv hv, hsteps.tail ⟨i, hi⟩⟩

/-- **The rule for steps between consistent books.**  What cancelling, placing, liquidating and
activating orders keep in a consistent book is kept by every step. -/
theorem ExchangeStep.preserves {P : State → Prop}
    (hcancel : ∀ i s, (coreOf s).Inv → P s → P (after (PerpDex.cancelOrder i) s))
    (hcreate : ∀ msg resp s t, (coreOf s).Inv → P s → Admitted Admit msg s →
      (PerpDex.createOrder msg).run s = .ok resp t → P t)
    (hliquidate : ∀ victim m zeroPrice base feeBps recipient n s t, (coreOf s).Inv → P s →
      (matchLiquidationOrder victim m zeroPrice base feeBps recipient).run s = .ok n t → P t)
    (hfire : ∀ i o s t, (coreOf s).Inv → P s → (coreOf s).orders.get i = some o →
      o.status = .triggeredPending → 0 < o.remainingBaseAmount → Fires Fire i s →
      (fireTrigger i).run s = .ok () t → P t)
    (hforced : ∀ s t, P s → ForcedHook s t → P t) (houtside : ∀ s t, P s → Outside s t → P t)
    (hc : (coreOf s).Inv) (h : ExchangeStep Admit Fire s t) (hs : P s) :
    (coreOf t).Inv ∧ P t := by
  refine ExchangeStep.rule (P := fun v => (coreOf v).Inv ∧ P v) (fun v hv => hv.1)
    ?_ ?_ ?_ ?_ ?_ ?_ h ⟨hc, hs⟩
  · rintro i v ⟨hv, hPv⟩
    have hsteps : Core.Steps (fun _ _ => True) (fun _ => True) i (coreOf v) _ :=
      cancelOrder_steps i v
    exact ⟨hsteps.inv hv, hcancel i v hv hPv⟩
  · rintro msg resp v w ⟨hv, hPv⟩ hadm hrun
    have hsteps : ∃ i, Core.Steps (fun _ _ => True) (fun _ => True) i (coreOf v) (coreOf w) :=
      createOrder_steps hv (fun _ _ _ _ => trivial) (fun _ _ _ _ _ _ _ _ _ => trivial) hrun
    obtain ⟨i, hsteps⟩ := hsteps
    exact ⟨hsteps.inv hv, hcreate msg resp v w hv hPv hadm hrun⟩
  · rintro victim m zeroPrice base feeBps recipient n v w ⟨hv, hPv⟩ hrun
    have hsteps : Core.Steps (fun _ _ => True) (fun _ => True) 0 (coreOf v) (coreOf w) :=
      matchLiquidationOrder_steps 0 hv hrun
    exact ⟨hsteps.inv hv, hliquidate _ _ _ _ _ _ n v w hv hPv hrun⟩
  · rintro i o v w ⟨hv, hPv⟩ ho hst hrem hfires hrun
    have hsteps : Core.Steps (fun _ _ => True) (fun _ => True) i (coreOf v) (coreOf w) :=
      fireTrigger_steps hv ho hst hrem (fun _ _ _ _ _ _ _ => trivial) hrun
    exact ⟨hsteps.inv hv, hfire i o v w hv hPv ho hst hrem hfires hrun⟩
  · rintro v w ⟨hv, hPv⟩ hhook
    have hcore : coreOf w = coreOf v := hhook.forced.sameCore
    exact ⟨hcore ▸ hv, hforced v w hPv hhook⟩
  · rintro v w ⟨hv, hPv⟩ hout
    have hstep : Core.AnyStep (fun _ _ => True) (fun _ => True) (coreOf v) (coreOf w) :=
      hout.anyStep hv
    obtain ⟨i, hi⟩ := hstep
    exact ⟨hi.inv hv, houtside v w hPv hout⟩

/-- **An invariant of the book's system holds in every state of a run.** -/
theorem ExchangeRun.invariant {Q : Core → Prop} (hadm : PlacesUnder Admit Rest)
    (hfire : RestsUnder Fire Rest)
    (hpark : ∀ (msg : MsgCreateOrder) idx nonce, msg.checkFields = .ok () →
      isTriggerOrder msg.orderType = true →
      Park { msg.toOrder idx nonce with status := .triggeredPending })
    (hstep : ∀ i c c', c.Inv → Q c → Core.Step Rest Park i c c' → Q c')
    (h : ExchangeRun Admit Fire s t) (hc : (coreOf s).Inv) (hs : Q (coreOf s)) :
    (coreOf t).Inv ∧ Q (coreOf t) := by
  induction h with
  | refl => exact ⟨hc, hs⟩
  | tail _ hexchange ih =>
    obtain ⟨-, hsteps⟩ := ExchangeStep.steps hadm hfire hpark ih.1 hexchange
    exact Core.invariant_of_steps hstep hsteps ih

theorem ExchangeRun.inv (h : ExchangeRun Admit Fire s t) (hc : (coreOf s).Inv) :
    (coreOf t).Inv := by
  have hadm : PlacesUnder Admit fun _ _ => True := fun _ _ _ _ _ _ _ _ _ _ => trivial
  have hfire : RestsUnder Fire fun _ _ => True := fun _ _ _ _ _ _ _ => trivial
  exact (@ExchangeRun.invariant _ (fun _ => True) _ _ _ _ _ (fun _ => True) hadm hfire
    (fun _ _ _ _ _ => trivial) (fun _ _ _ _ _ _ => trivial) h hc trivial).1

theorem ExchangeStep.mono {Admit' Fire' : Order → State → Prop}
    (hadm : ∀ msg prepared u v, (prepareOrder msg).run u = .ok prepared v →
      isTriggerOrder msg.orderType = false → Admit prepared.2 v → Admit' prepared.2 v)
    (hfire : ∀ i o u v, (activateTrigger i).run u = .ok o v →
      Fire (executableTwin o) v → Fire' (executableTwin o) v)
    (h : ExchangeStep Admit Fire s t) : ExchangeStep Admit' Fire' s t := by
  have hmsg : ∀ msg u, Admitted Admit msg u → Admitted Admit' msg u :=
    fun msg u hold prepared v hprepare htype =>
      hadm msg prepared u v hprepare htype (hold prepared v hprepare htype)
  cases h with
  | createOrder msg h hold => exact .createOrder msg h (hmsg msg s hold)
  | cancelOrder msg h => exact .cancelOrder msg h
  | cancelAllOrders msg h => exact .cancelAllOrders msg h
  | modifyOrder msg h hold =>
    exact .modifyOrder msg h fun create s₁ hwithdraw => hmsg create s₁ (hold create s₁ hwithdraw)
  | liquidate msg h => exact .liquidate msg h
  | expire h => exact .expire h
  | trigger h hold =>
    exact .trigger h fun i u hvisit o v hactivate =>
      hfire i o u v hactivate (hold i u hvisit o v hactivate)
  | forced h => exact .forced h
  | outside h => exact .outside h

end Refinement

/-- A chain whose order book has not been used. -/
structure FreshBook (s : State) : Prop where
  book : s.book = {}
  nonces : ∀ m d, s.market.marketDetails.get m = some d →
    d.askNonce = firstAskNonce ∧ d.bidNonce = firstBidNonce

theorem FreshBook.of_rows {s : State} (hbook : s.book = {})
    (h : ∀ d ∈ s.market.marketDetails.toList,
      d.askNonce = firstAskNonce ∧ d.bidNonce = firstBidNonce) : FreshBook s :=
  ⟨hbook, fun _ d hd => h d (Table.mem_toList hd)⟩

theorem FreshBook.entries {s : State} (h : FreshBook s) (k : ℕ ×ₗ SortKey) :
    (coreOf s).entries.get k = none := by
  simp only [coreOf, h.book]
  rfl

theorem FreshBook.inv {s : State} (h : FreshBook s) : (coreOf s).Inv where
  entry m sk e he := by
    rw [h.entries] at he
    simp at he
  pointer m i sk hi := by
    simp only [coreOf, h.book, KVStore.get_empty, reduceCtorEq] at hi
  trigger m p i hi := by
    simp only [coreOf, h.book, KVStore.get_empty, reduceCtorEq] at hi
  row i o ho := by
    simp only [coreOf, h.book, Table.get_empty, reduceCtorEq] at ho
  unrivaled i i' o o' ho := by
    simp only [coreOf, h.book, Table.get_empty, reduceCtorEq] at ho
  nonces m next hnext := by
    obtain ⟨d, hd, rfl⟩ := Option.map_eq_some_iff.mp hnext
    obtain ⟨hask, hbid⟩ := h.nonces m d hd
    rw [hask, hbid]
    exact ⟨le_rfl, by decide, le_rfl⟩

end PerpDex
