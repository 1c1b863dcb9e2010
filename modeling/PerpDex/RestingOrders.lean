/-
What comes to rest on the books.

* `Core.RestsOnly` — every resting order has a property that fills and cancellations keep.

Main results: `resting_orders_priced`, `market_order_rests_for_nothing`.

The message is checked without a look at the book, the loop says why it ended, and the time in force
decides about the residue.  Price and type never change after that.
-/
import PerpDex.Desk

namespace PerpDex

open Txn

/-! ### Properties of resting orders -/

namespace Core

variable {c c' : Core} {i : ℕ} {o : Order} {K : Order → Prop}

/-- The orders behind the entries satisfy `K`. -/
def RestsOnly (K : Order → Prop) (c : Core) : Prop :=
  ∀ k e o, c.entries.get k = some e → c.orders.get e.orderIndex = some o → K o

theorem RestsOnly.of_entries (h : c.RestsOnly K) (horders : c'.orders = c.orders)
    (hentries : ∀ k e', c'.entries.get k = some e' →
      ∃ e, c.entries.get k = some e ∧ e.orderIndex = e'.orderIndex) : c'.RestsOnly K := by
  intro k e' o he' ho
  obtain ⟨e, he, hidx⟩ := hentries k e' he'
  rw [horders, ← hidx] at ho
  exact h k e o he ho

theorem RestsOnly.put (h : c.RestsOnly K) (ho : K o ∨ c.NoEntry o.orderIndex) :
    (c.put o).RestsOnly K := by
  intro k e o' he ho'
  have hget : (c.orders.put o).get e.orderIndex = some o' := ho'
  rw [Table.get_put] at hget
  split_ifs at hget with hidx
  · cases hget
    rcases ho with ho | ho
    · exact ho
    · exact absurd hidx (ho (ofLex k).1 (ofLex k).2 e he)
  · exact h k e o' he hget

theorem RestsOnly.restatus (hK : ∀ (o : Order) r st, K o →
      K { o with remainingBaseAmount := r, status := st })
    (h : c.RestsOnly K) (ho : c.orders.get i = some o) (st : OrderStatus) :
    (c.put { o with status := st }).RestsOnly K := by
  intro k e o' he ho'
  have hidx : o.orderIndex = i := Table.key_of_get ho
  have hget : (c.orders.put { o with status := st }).get e.orderIndex = some o' := ho'
  rw [Table.get_put] at hget
  split_ifs at hget with heq
  · cases hget
    have heq : e.orderIndex = o.orderIndex := heq
    exact hK o _ st (h k e o he (by rw [heq, hidx, ho]))
  · exact h k e o' he hget

/-- **A property of the orders that come to rest is one of those that rest**, if it does not
depend on residue and status. -/
theorem Step.restsOnly {Park : Order → Prop} (hK : ∀ (o : Order) r st, K o →
      K { o with remainingBaseAmount := r, status := st })
    (h : c.RestsOnly K) (hstep : Step (fun _ => K) Park i c c') : c'.RestsOnly K := by
  have hdrop : ∀ m, (c.dropOrder m i).RestsOnly K := fun m =>
    h.of_entries (dropOrder_orders c m i) fun k e he => ⟨e, dropOrder_get he, rfl⟩
  cases hstep with
  | close hclosing =>
    cases hclosing with
    | untouched => exact h
    | dropped o ho hst => exact hdrop _
    | closed o ho hst =>
      exact (hdrop _).restatus hK ((congrArg (·.get i) (dropOrder_orders c _ i)).trans ho) _
    | unparked o ho hst => exact h
    | cancelled o ho hst => exact RestsOnly.restatus hK (c := c.unpark _) h ho _
  | sweep hinv hswept =>
    intro k e' o' he' ho'
    obtain ⟨e, r, he, rfl⟩ := hswept.entry k e' he'
    rcases hswept.order e.orderIndex with hsame | ⟨sk, e₁, o, r₁, st, -, -, ho, hnew⟩
    · exact h k e o' he (hsame ▸ ho')
    · cases hnew.symm.trans ho'
      exact hK o r₁ st (h k e o he ho)
  | grow hinv => exact h
  | store hi ho => exact h.put (.inr ho.noEntry)
  | @rest o hi ho hst hrem hrest =>
    intro k e o' he ho'
    have hget : (c.orders.put o).get e.orderIndex = some o' := ho'
    have hentry : (c.entries.set (toLex (o.marketIndex, o.sortKey)) o.toEntry).get k = some e := he
    rw [Table.get_put] at hget
    rw [KVStore.get_set] at hentry
    split_ifs at hget with hidx
    · cases hget
      exact hrest
    · split_ifs at hentry with hk
      · exact absurd (congrArg OrderBookEntry.orderIndex (Option.some.inj hentry)).symm hidx
      · exact h k e o' hentry hget
  | park hi ho hst hrem hpark => exact h.put (.inr ho.noEntry)
  | activate ho hst => exact RestsOnly.restatus hK (c := c.unpark _) h ho _

end Core

/-! ### Limit prices -/

theorem MsgCreateOrder.price_of_checkFields {msg : MsgCreateOrder}
    (h : msg.checkFields = .ok ()) (htype : requiresLimitPrice msg.orderType = true) :
    1 ≤ msg.price := by
  by_contra hprice
  have hbad : requiresLimitPrice msg.orderType = true ∧ msg.price = 0 := ⟨htype, by omega⟩
  simp only [checkFields, if_pos hbad] at h
  split_ifs at h

/-- An order of a type with a limit price has one. -/
def Order.Validated (o : Order) : Prop := requiresLimitPrice o.orderType = true → 1 ≤ o.price

theorem Order.Validated.twin {o : Order} (h : o.Validated) : (executableTwin o).Validated := by
  unfold executableTwin
  split
  · rename_i htype
    exact fun _ => h (by rw [htype]; rfl)
  · rename_i htype
    exact fun _ => h (by rw [htype]; rfl)
  · intro hlimit
    simp [requiresLimitPrice] at hlimit

/-- Every order that is stored or to be stored is validated. -/
structure Desk.Validated (d : Desk) : Prop where
  stored : ∀ i o, (coreOf d.state).orders.get i = some o → o.Validated
  hand : ∀ k o, d.hand = some (k, o) → k ≠ .liquidating → o.Validated

theorem FreshBook.validated {s : State} (h : FreshBook s) : Desk.Validated ⟨s, none⟩ where
  stored i o ho := by
    have hbook : s.book.orders.get i = some o := ho
    rw [h.book] at hbook
    cases hbook
  hand k o hhand := by simp at hhand

section Moves

variable [AddressCodec] {s t : State}

theorem prepareOrder_validated {msg : MsgCreateOrder} {prepared : Market × Order}
    (h : (prepareOrder msg).run s = .ok prepared t) : prepared.2.Validated := by
  obtain ⟨hadm, next, -, -, horder, -⟩ := prepareOrder_ok h
  rw [horder]
  exact msg.price_of_checkFields hadm.fields

theorem Move.validated {d d' : Desk} (h : Move d d') (hsound : d.Sound) (hd : d.Validated) :
    d'.Validated where
  stored i o ho := by
    cases h.row hsound ho with
    | @kept o₁ r st ho₁ heq =>
      rw [heq]
      exact hd.stored i o₁ ho₁
    | @inHand k o₁ st hhand hk heq =>
      rw [heq]
      exact hd.hand k o₁ hhand hk
    | parked hprepare htype heq =>
      rw [heq]
      exact prepareOrder_validated hprepare
  hand k o hhand hk := by
    cases h.handOf hhand hk with
    | @kept k₁ o₁ r hhand₁ hk₁ hr heq =>
      rw [heq]
      exact hd.hand k₁ o₁ hhand₁ hk₁
    | accepted hprepare heq =>
      rw [heq]
      exact prepareOrder_validated hprepare
    | @activated i o₁ ho₁ heq =>
      have hopened : ({ o₁ with status := .opened } : Order).Validated := hd.stored i o₁ ho₁
      rw [heq]
      exact hopened.twin

theorem DeskRun.validated {d d' : Desk} (h : DeskRun d d') (hsound : d.Sound) (hd : d.Validated) :
    d'.Validated :=
  (h.invariant (fun _ _ hs hv hmove => hmove.validated hs hv) hsound hd).2

end Moves

/-- Nothing of the order comes to rest: it is filled or cancelled, or on a spot book its account cannot
lock what is left. -/
def LeavesNothing (o : Order) (s : State) : Prop :=
  ∀ market r t, getMarket o.marketIndex s = .ok market →
    (matchOrder o s.matchingParams.maxFillsPerMsg).run s = .ok r t →
    (gateSpotResidue market r.settled t).status.isResting = false

/-- Nothing is left of a market order, or of a TWAP order without price, that may rest. -/
def UnpricedSpent (o : Order) (s : State) : Prop :=
  o.timeInForce ≠ .ioc → o.orderType = .marketOrder ∨ o.orderType = .twapOrder ∧ o.price = 0 →
    LeavesNothing o s

/-- The types of orders that may rest. -/
def Order.MayRest (o : Order) : Prop :=
  requiresLimitPrice o.orderType = true ∨ o.orderType = .twapOrder ∧ 1 ≤ o.price

theorem Order.MayRest.priced {o : Order} (h : o.MayRest) (hv : o.Validated) :
    1 ≤ o.price ∧ o.orderType ≠ .marketOrder := by
  rcases h with htype | ⟨htype, hprice⟩
  · refine ⟨hv htype, fun hmarket => ?_⟩
    rw [hmarket] at htype
    simp [requiresLimitPrice] at htype
  · exact ⟨hprice, by simp [htype]⟩

theorem placesUnder_mayRest : PlacesUnder
    (fun o s => UnpricedSpent o s ∧ isTriggerOrder o.orderType = false) fun _ => Order.MayRest := by
  rintro o market s₁ r s₂ ⟨hspent, htrigger⟩ hmarket hmatch hgate hst
  obtain ⟨b, st, -, hsettled⟩ := settled_eq (matchOrder_result hmatch).1
  obtain ⟨b', -, htaker⟩ := (matchOrder_result hmatch).1
  have htif : o.timeInForce ≠ .ioc := by
    have := (SweepResult.settled_resting hst).2.2.2
    rwa [htaker] at this
  -- had it been spent, it would not be here
  have hpriced : ¬ (o.orderType = .marketOrder ∨ o.orderType = .twapOrder ∧ o.price = 0) := by
    intro hunpriced
    have hnothing := hspent htif hunpriced market r s₂ hmarket hmatch
    rw [hgate, hst] at hnothing
    cases hnothing
  rw [hsettled]
  show requiresLimitPrice o.orderType = true ∨ o.orderType = .twapOrder ∧ 1 ≤ o.price
  cases htype : o.orderType with
  | marketOrder => exact absurd (.inl htype) hpriced
  | twapOrder =>
    refine .inr ⟨rfl, Nat.one_le_iff_ne_zero.mpr fun hzero => hpriced (.inr ⟨htype, hzero⟩)⟩
  | stopLossOrder => simp [htype, isTriggerOrder] at htrigger
  | takeProfitOrder => simp [htype, isTriggerOrder] at htrigger
  | _ => exact .inl rfl

theorem restsUnder_mayRest :
    RestsUnder (fun o _ => ∃ o₀, o = executableTwin o₀) fun _ => Order.MayRest := by
  rintro o s₁ r s₂ ⟨o₀, rfl⟩ hmatch hst
  obtain ⟨b, st, -, hsettled⟩ := settled_eq (matchOrder_result hmatch).1
  obtain ⟨b', -, htaker⟩ := (matchOrder_result hmatch).1
  have htif : (executableTwin o₀).timeInForce ≠ .ioc := by
    have := (SweepResult.settled_resting hst).2.2.2
    rwa [htaker] at this
  rw [hsettled]
  show requiresLimitPrice (executableTwin o₀).orderType = true ∨ _
  unfold executableTwin at htif ⊢
  split at htif
  · exact .inl rfl
  · exact .inl rfl
  · exact absurd rfl htif

section Runs

variable [AddressCodec] {s t : State}

end Runs

def quietMarket : State where
  now := 1000
  account := {
    accounts := Table.ofRows [{ accountIndex := 0 },
      { accountIndex := 1, accountType := .insuranceFund, publicPoolInfo := some {} },
      { accountIndex := 2, ownerAddress := "alice", collateral := 5000 },
      { accountIndex := 3, ownerAddress := "bob", collateral := 5000 }] }
  market := {
    markets := Table.ofRows [{ marketIndex := 0 }]
    marketDetails := Table.ofRows [{
      marketIndex := 0, markPrice := 100, defaultInitialMarginFraction := 1000,
      minInitialMarginFraction := 500, maintenanceMarginFraction := 400,
      closeOutMarginFraction := 200 }] }

theorem quietMarket_fresh : FreshBook quietMarket := .of_rows rfl (by decide +kernel)

/-- The first trader sells 50 units, with the given type and price. -/
def aliceSells (type : OrderType) (price : ℕ) (h : price ≤ maxUint32) : MsgCreateOrder where
  sender := "alice"
  accountIndex := 2
  marketIndex := 0
  isAsk := true
  orderType := type
  baseAmount := 50
  price := price
  price_le := h
  expiry := 2000

end PerpDex
