/-
The life of an order.

* `Order.AgesTo` — what may happen to a stored order: it is filled, closed, or a trigger that fires.

Main results: `order_lifecycle`, `ioc_never_rests`, `post_only_never_takes`.

A fired trigger is stored under new terms, and for a moment its row is open under the old ones.  So the
invariant of a run also says that an order which did not wait for its trigger at the beginning is never
the one that has just fired.
-/
import PerpDex.OrderLedger
import PerpDex.RestingOrders

namespace PerpDex

open Txn

/-! ### Ages -/

/-- Pending, open, partially filled, closed. -/
def OrderStatus.age : OrderStatus → ℕ
  | .triggeredPending => 0
  | .opened => 1
  | .partiallyFilled => 2
  | .filled | .cancelled => 3

/-- The order without what a fill or a cancellation changes. -/
def Order.terms (o : Order) : Order := { o with remainingBaseAmount := 0, status := .opened }

/-- The terms without what the activation of a trigger changes. -/
def Order.identity (o : Order) : Order :=
  { o.terms with orderType := .limitOrder, timeInForce := .gtt, price := 0 }

/-- `o'` is what may have become of `o`. -/
structure Order.AgesTo (o o' : Order) : Prop where
  identity : o'.identity = o.identity
  remaining : o'.remainingBaseAmount ≤ o.remainingBaseAmount
  age : o.status.age ≤ o'.status.age
  pending : o'.status = .triggeredPending → o' = o
  terms : o.status ≠ .triggeredPending → o'.terms = o.terms
  closed : o.status.isLive = false → o' = o

variable {o o' r : Order} {st : OrderStatus} {c c' : Core} {i : ℕ}

theorem OrderStatus.age_eq_zero : st.age = 0 ↔ st = .triggeredPending := by
  cases st <;> decide

namespace Order.AgesTo

theorem refl (o : Order) : o.AgesTo o :=
  ⟨rfl, le_rfl, le_rfl, fun _ => rfl, fun _ => rfl, fun _ => rfl⟩

theorem not_pending (h : o.AgesTo o') (ho : o.status ≠ .triggeredPending) :
    o'.status ≠ .triggeredPending := by
  rw [Ne, ← OrderStatus.age_eq_zero] at ho ⊢
  have hle := h.age
  omega

theorem trans {o'' : Order} (h : o.AgesTo o') (h' : o'.AgesTo o'') : o.AgesTo o'' where
  identity := h'.identity.trans h.identity
  remaining := h'.remaining.trans h.remaining
  age := h.age.trans h'.age
  pending hst := by
    have heq := h'.pending hst
    exact heq.trans (h.pending (heq ▸ hst))
  terms hst := (h'.terms (h.not_pending hst)).trans (h.terms hst)
  closed hst := by
    have heq := h.closed hst
    exact (h'.closed (heq ▸ hst)).trans heq

/-- Fills and cancellations age an order. -/
theorem of_live (hterms : o'.terms = o.terms)
    (hrem : o'.remainingBaseAmount ≤ o.remainingBaseAmount) (hage : o.status.age ≤ o'.status.age)
    (hpending : o'.status ≠ .triggeredPending) (hlive : o.status.isLive = true) : o.AgesTo o' where
  identity := by rw [Order.identity, hterms, Order.identity]
  remaining := hrem
  age := hage
  pending hst := absurd hst hpending
  terms _ := hterms
  closed hst := by
    rw [hlive] at hst
    exact absurd hst (by decide)

/-- A trigger that fires may end up under other terms. -/
theorem of_pending (hst : o.status = .triggeredPending) (hid : o'.identity = o.identity)
    (hrem : o'.remainingBaseAmount ≤ o.remainingBaseAmount)
    (hpending : o'.status ≠ .triggeredPending) : o.AgesTo o' where
  identity := hid
  remaining := hrem
  age := by
    rw [hst]
    exact Nat.zero_le _
  pending h := absurd h hpending
  terms h := absurd hst h
  closed h := by
    rw [hst] at h
    exact absurd h (by decide)

theorem cancelled (hlive : o.status.isLive = true) : o.AgesTo { o with status := .cancelled } := by
  refine .of_live rfl le_rfl ?_ (fun h => by cases h) hlive
  show o.status.age ≤ 3
  cases o.status <;> decide

theorem filled (hresting : o.status.isResting = true) (base : ℕ) :
    o.AgesTo (applyOrderResidue o base) := by
  have hlive : o.status.isLive = true := by
    rw [OrderStatus.isLive, hresting, Bool.true_or]
  refine .of_live rfl (Nat.sub_le _ _) ?_ ?_ hlive
  · show o.status.age ≤ OrderStatus.age (if _ then _ else _)
    split_ifs <;> revert hresting <;> cases o.status <;> decide
  · show (if _ then OrderStatus.filled else .partiallyFilled) ≠ _
    split_ifs <;> decide

end Order.AgesTo

/-! ### Moves -/

/-- Every stored order stays and ages. -/
def Core.Ages (c c' : Core) : Prop :=
  ∀ i o, c.orders.get i = some o → ∃ o', c'.orders.get i = some o' ∧ o.AgesTo o'

namespace Core.Ages

theorem of_eq (h : c'.orders = c.orders) : c.Ages c' :=
  fun _ o ho => ⟨o, h ▸ ho, .refl o⟩

theorem of_put (h : c'.orders = c.orders.put r)
    (hr : ∀ o, c.orders.get r.orderIndex = some o → o.AgesTo r) : c.Ages c' := by
  intro i o ho
  by_cases hi : i = r.orderIndex
  · subst hi
    exact ⟨r, by rw [h, Table.get_put_self], hr o ho⟩
  · exact ⟨o, by rw [h, Table.get_put_ne _ hi, ho], .refl o⟩

/-- Where a row of the table is replaced. -/
theorem of_row (ho : c.orders.get i = some o) (h : c'.orders = c.orders.put r)
    (hidx : r.orderIndex = o.orderIndex) (hr : o.AgesTo r) : c.Ages c' := by
  refine .of_put h fun o₁ ho₁ => ?_
  rw [hidx, Table.key_of_get ho, ho, Option.some_inj] at ho₁
  exact ho₁ ▸ hr

theorem of_closing (h : c.Closing i .cancelled c') : c.Ages c' := by
  cases h with
  | untouched => exact .of_eq rfl
  | dropped o ho hst => exact .of_eq (by simp)
  | closed o ho hst =>
    refine .of_row (r := { o with status := .cancelled }) ho (by simp [Core.put]) rfl (.cancelled ?_)
    rw [OrderStatus.isLive, hst, Bool.true_or]
  | unparked o ho hst => exact .of_eq rfl
  | cancelled o ho hst => exact .of_row ho rfl rfl (.cancelled (by rw [hst]; rfl))

end Core.Ages

section Moves

variable [AddressCodec] {d d' : Desk} {s t : State}

/-- The order of a fired trigger takes the place of the trigger. -/
def StoresFired (d d' : Desk) (o : Order) (st : OrderStatus) : Prop :=
  d.hand = some (.fired, o) ∧ d'.hand = none ∧ st ≠ .triggeredPending ∧
    (coreOf d'.state).orders = (coreOf d.state).orders.put { o with status := st }

/-- **Every move ages the stored orders**, unless it stores a fired trigger. -/
theorem Move.ages (h : Move d d') (hd : d.Sound) :
    (coreOf d.state).Ages (coreOf d'.state) ∨ ∃ o st, StoresFired d d' o st := by
  cases h with
  | @cancel s j => exact .inl (.of_closing (cancelOrder_outcome j s))
  | accept h htype =>
    obtain ⟨-, next, -, -, -, hcore⟩ := prepareOrder_ok h
    exact .inl (.of_eq (by rw [hcore]))
  | @park s s₁ t msg prepared h htype hpark =>
    obtain ⟨-, next, -, -, horder, hcore⟩ := prepareOrder_ok h
    have hidx : prepared.2.orderIndex = (coreOf s).nextIndex := by
      rw [horder]
      rfl
    refine .inl (.of_put (r := { prepared.2 with status := .triggeredPending }) ?_ fun o ho => ?_)
    · rw [openTriggerOrder_ok hpark, hcore]
      rfl
    · -- the index has just been allocated
      have hfresh := hd.inv.order_fresh hidx.ge
      rw [hfresh] at ho
      cases ho
  | activate ho hst hrem h =>
    obtain ⟨o₃, ho₃, rfl, hcore⟩ := activateTrigger_ok h
    obtain rfl := Option.some.inj (ho.symm.trans ho₃)
    refine .inl (.of_row ho (congrArg Core.orders hcore) rfl ?_)
    exact .of_pending hst rfl le_rfl fun h => by cases h
  | seize => exact .inl (.of_eq rfl)
  | evict hbest =>
    obtain ⟨sk, he, -⟩ := peekBest_spec hbest
    obtain ⟨⟨o₁, hrests⟩, -⟩ := hd.inv.entry _ _ _ he
    exact .inl (.of_closing (.of_resting hrests.order hrests.status
      (evictMakerOrder_outcome .cancelled hrests.order)))
  | fill h =>
    obtain ⟨-, -, o₁, sk, -, hrests, -, horders⟩ := h.orders hd.inv
    exact .inl (.of_row hrests.order horders rfl (.filled hrests.status _))
  | @store s t k o st hk hst h =>
    have horders : (coreOf t).orders = (coreOf s).orders.put { o with status := st } := by
      rw [openOrder_ok h]
      split_ifs <;> rfl
    cases k with
    | placing =>
      refine .inl (.of_put horders fun o₁ ho₁ => ?_)
      rw [hd.fresh o rfl] at ho₁
      cases ho₁
    | fired => exact .inr ⟨o, st, rfl, rfl, hst.matched, horders⟩
    | liquidating => exact absurd rfl hk
  | abandon h => exact .inl (.of_closing (hd.abandon_closing h))
  | release => exact .inl (.of_eq rfl)
  | forced h => exact .inl (.of_eq (by rw [h.forced.sameCore]))
  | outside h => exact .inl (.of_eq (by simp only [coreOf, h.book]))

/-- The order of a fired trigger has been in hand before, or has waited until now. -/
theorem Move.fired (h : Move d d') (hhand : d'.hand = some (.fired, o')) :
    (∃ o, d.hand = some (.fired, o) ∧ o'.orderIndex = o.orderIndex) ∨
      ∃ o, (coreOf d.state).orders.get o'.orderIndex = some o ∧ o.status = .triggeredPending := by
  cases h with
  | activate ho hst hrem h =>
    obtain ⟨o₃, ho₃, rfl, -⟩ := activateTrigger_ok h
    obtain ⟨-, rfl⟩ := Prod.mk.inj (Option.some.inj hhand)
    obtain ⟨ty, tif, p, -, htwin⟩ := executableTwin_eq { o₃ with status := .opened }
    refine .inr ⟨_, ?_, hst⟩
    rw [htwin]
    exact (Table.key_of_get ho₃).symm ▸ ho
  | evict hbest => exact .inl ⟨o', hhand, rfl⟩
  | fill h =>
    cases hhand
    exact .inl ⟨_, rfl, rfl⟩
  | _ => cases hhand

/-! ### Runs -/

/-- What has become of the orders of `c`. -/
def Desk.Aged (c : Core) (d : Desk) : Prop := ∀ i o, c.orders.get i = some o →
  ∃ o', (coreOf d.state).orders.get i = some o' ∧ o.AgesTo o' ∧
    (o.status ≠ .triggeredPending → ∀ o₁, d.hand = some (.fired, o₁) → o₁.orderIndex ≠ i)

omit [AddressCodec] in
theorem Desk.Sound.fired_identity (hd : d.Sound) (hhand : d.hand = some (.fired, r))
    (ho : (coreOf d.state).orders.get r.orderIndex = some o) :
    r.identity = o.identity ∧ r.remainingBaseAmount ≤ o.remainingBaseAmount := by
  obtain ⟨o₀, ho₀, -, -, b, hb, hr⟩ := hd.stored r hhand
  rw [ho, Option.some_inj] at ho₀
  subst ho₀
  obtain ⟨ty, tif, p, -, htwin⟩ := executableTwin_eq o
  rw [htwin] at hb hr
  rw [hr]
  exact ⟨rfl, hb⟩

theorem Move.aged (h : Move d d') (hd : d.Sound) (hc : d.Aged c) : d'.Aged c := by
  intro i o ho
  obtain ⟨o₁, ho₁, hage, hfree⟩ := hc i o ho
  rcases h.ages hd with hages | ⟨r, st, hhand, hnone, hst, horders⟩
  · obtain ⟨o₂, ho₂, hage'⟩ := hages i o₁ ho₁
    refine ⟨o₂, ho₂, hage.trans hage', fun hpending o₃ ho₃ hidx => ?_⟩
    rcases h.fired ho₃ with ⟨o₄, ho₄, hsame⟩ | ⟨o₄, ho₄, hwaits⟩
    · exact hfree hpending o₄ ho₄ (hsame.symm.trans hidx)
    · rw [hidx, ho₁, Option.some_inj] at ho₄
      exact hage.not_pending hpending (ho₄ ▸ hwaits)
  · by_cases hi : i = r.orderIndex
    · -- the order in hand is the trigger that has fired, so it was pending from the beginning
      subst hi
      obtain ⟨hid, hrem⟩ := hd.fired_identity hhand ho₁
      have hpending : o.status = .triggeredPending := by
        by_contra hpending
        exact hfree hpending r hhand rfl
      refine ⟨{ r with status := st }, by rw [horders]; exact Table.get_put_self _ _, ?_,
        fun h => absurd hpending h⟩
      exact .of_pending hpending (hid.trans hage.identity) (hrem.trans hage.remaining) hst
    · have hsame : (coreOf d'.state).orders.get i = (coreOf d.state).orders.get i := by
        rw [horders]
        exact Table.get_put_ne _ hi
      refine ⟨o₁, hsame.trans ho₁, hage, fun _ o₃ ho₃ => ?_⟩
      rw [hnone] at ho₃
      cases ho₃

/-- **An order only ages.**  In every run of messages and hooks, every stored order stays stored as the
order of the same account in the same market on the same side, what is left of it never grows, it never
goes back to an earlier status, it keeps its terms once it has left the trigger index and is untouched
while it is in it, and once it is closed it never changes again. -/
theorem order_lifecycle {s₀ : State} (hfresh : FreshBook s₀)
    (hreach : ExchangeRun (fun _ _ => True) (fun _ _ => True) s₀ s)
    (hrun : ExchangeRun (fun _ _ => True) (fun _ _ => True) s t)
    (ho : (coreOf s).orders.get i = some o) :
    ∃ o', (coreOf t).orders.get i = some o' ∧ o.AgesTo o' := by
  have hc : (coreOf s).Inv := hreach.inv hfresh.inv
  have hstart : Desk.Aged (coreOf s) ⟨s, none⟩ :=
    fun i o ho => ⟨o, ho, .refl o, fun _ _ hhand => by cases hhand⟩
  obtain ⟨-, haged⟩ := (hrun.moves hc).invariant
    (fun d d' hd hP hmove => hmove.aged hd hP) (.idle hc) hstart
  obtain ⟨o', ho', hage, -⟩ := haged i o ho
  exact ⟨o', ho', hage⟩

end Moves

/-- A stop order waits behind an offer, fires, and buys all of the offer: it is then a filled limit
order. -/
theorem order_lifecycle_stop_fires :
    let _ := AddressCodec.acceptAll
    let s := after (createOrder (purchase .stopLossLimitOrder 50))
      (after (createOrder (offer 100 hundred_le_maxUint32)) cappedMarket)
    let t := after matchingEndBlocker s
    ∃ o o', (coreOf s).orders.get 2 = some o ∧ o.status = .triggeredPending ∧
      (coreOf t).orders.get 2 = some o' ∧ o'.status = .filled ∧ o'.orderType = .limitOrder ∧
      o.AgesTo o' := by
  intro _ s t
  have hoffer : (createOrder (offer 100 hundred_le_maxUint32)).run cappedMarket
      = .ok ⟨1, .opened, 0⟩ _ := run_of_value (by decide +kernel)
  have hstop : (createOrder (purchase .stopLossLimitOrder 50)).run
      (after (createOrder (offer 100 hundred_le_maxUint32)) cappedMarket)
      = .ok ⟨2, .triggeredPending, 0⟩ s := run_of_value (by decide +kernel)
  have hfire : matchingEndBlocker.run s = .ok () t := run_of_succeeds (by decide +kernel)
  have hreach : ExchangeRun (fun _ _ => True) (fun _ _ => True) cappedMarket s :=
    .tail (.single (.createOrder _ hoffer fun _ _ _ _ => trivial))
      (.createOrder _ hstop fun _ _ _ _ => trivial)
  have ho : (coreOf s).orders.get 2
      = some { purchased 2 50 .stopLossLimitOrder with status := .triggeredPending } := by
    decide +kernel
  obtain ⟨o', ho', hage⟩ := order_lifecycle cappedMarket_fresh hreach
    (.single (.trigger hfire fun _ _ _ _ _ _ => trivial)) ho
  have hrow : (coreOf t).orders.get 2 = some { purchased 2 50 .limitOrder with
      remainingBaseAmount := 0, status := .filled } := by decide +kernel
  obtain rfl := Option.some.inj (hrow.symm.trans ho')
  exact ⟨_, _, ho, rfl, hrow, rfl, rfl, hage⟩

/-! ### Times in force -/

section Force

variable {s t : State} {msg : MsgCreateOrder}

theorem settled_timeInForce {m : ℕ} {r : SweepResult} (hmatch : (matchOrder o m).run s = .ok r t)
    (hrests : r.settled.status.isResting = true) : r.settled.timeInForce ≠ .ioc := by
  obtain ⟨b, st, -, hsettled⟩ := settled_eq (matchOrder_result hmatch).1
  obtain ⟨b', -, htaker⟩ := (matchOrder_result hmatch).1
  have htif := (SweepResult.settled_resting hrests).2.2.2
  rw [htaker] at htif
  rw [hsettled]
  exact htif

/-- **What is immediate or cancelled never rests**, whatever messages and hooks follow on an unused
book, and whether it came with a message or from a trigger. -/
theorem ioc_never_rests [AddressCodec] (hfresh : FreshBook s)
    (hrun : ExchangeRun (fun _ _ => True) (fun _ _ => True) s t) {k : ℕ ×ₗ SortKey}
    {e : OrderBookEntry} (he : t.book.orderBookEntries.get k = some e) :
    ∃ o, t.book.orders.get e.orderIndex = some o ∧ o.timeInForce ≠ .ioc := by
  let K : Order → Prop := fun o => o.timeInForce ≠ .ioc
  have hstart : (coreOf s).RestsOnly K := fun k e o he _ => by
    rw [hfresh.entries] at he
    cases he
  have hplaces : PlacesUnder (fun _ _ => True) fun _ => K :=
    fun _ _ _ _ _ _ _ hmatch _ hrests => settled_timeInForce hmatch hrests
  have hrests : RestsUnder (fun _ _ => True) fun _ => K :=
    fun _ _ _ _ _ hmatch hrests => settled_timeInForce hmatch hrests
  obtain ⟨hinv, honly⟩ := @ExchangeRun.invariant _ (fun _ => True) _ _ _ _ _ (Core.RestsOnly K)
    hplaces hrests (fun _ _ _ _ _ => trivial)
    (fun _ _ _ _ hc hstep => Core.Step.restsOnly (fun _ _ _ h => h) hc hstep) hrun hfresh.inv hstart
  obtain ⟨⟨o, ho⟩, -⟩ := hinv.entry (ofLex k).1 (ofLex k).2 e he
  exact ⟨o, ho.order, honly k e o he ho.order⟩

theorem entry_of_peekBest {m : ℕ} {isAsk : Bool} {e : OrderBookEntry}
    (h : peekBest m isAsk s = some e) : ∃ k, s.book.orderBookEntries.get k = some e := by
  obtain ⟨sk, he, -⟩ := peekBest_spec h
  exact ⟨_, he⟩

/-- A bid that is immediate or cancelled finds nothing, and the offer after it rests alone. -/
theorem ioc_never_rests_offer :
    let _ := AddressCodec.acceptAll
    let s := after (createOrder { purchase .limitOrder 50 with timeInForce := .ioc }) cappedMarket
    let t := after (createOrder (offer 100 hundred_le_maxUint32)) s
    peekBest 0 false t = none ∧ ∃ e o, peekBest 0 true t = some e ∧
      t.book.orders.get e.orderIndex = some o ∧ o.timeInForce ≠ .ioc := by
  intro _ s t
  have hbid : (createOrder { purchase .limitOrder 50 with timeInForce := .ioc }).run cappedMarket
      = .ok ⟨1, .cancelled, 0⟩ s := run_of_value (by decide +kernel)
  have hoffer : (createOrder (offer 100 hundred_le_maxUint32)).run s = .ok ⟨2, .opened, 0⟩ t :=
    run_of_value (by decide +kernel)
  obtain ⟨e, hbest⟩ := Option.isSome_iff_exists.mp
    (by decide +kernel : (peekBest 0 true t).isSome = true)
  obtain ⟨k, he⟩ := entry_of_peekBest hbest
  have hrun : ExchangeRun (fun _ _ => True) (fun _ _ => True) cappedMarket t :=
    .tail (.single (.createOrder _ hbid fun _ _ _ _ => trivial))
      (.createOrder _ hoffer fun _ _ _ _ => trivial)
  obtain ⟨o, ho, htif⟩ := ioc_never_rests cappedMarket_fresh hrun he
  exact ⟨by decide +kernel, e, o, hbest, ho, htif⟩

theorem sweep_unreached {isPerp : Bool} {attempt : Order → OrderBookEntry → ℕ → Tx FillOutcome}
    {goOn : Tx Bool} {fuel total left : ℕ} {r : SweepResult}
    (hfar : ∀ best, peekBest o.marketIndex (!o.isAsk) s = some best → priceAllows o best = false)
    (h : (sweep isPerp attempt goOn fuel o total left).run s = .ok r t) :
    t = s ∧ r.totalFilled = total := by
  cases fuel with
  | zero => cases h
  | succ fuel =>
    rw [sweep] at h
    split_ifs at h
    · cases h
      exact ⟨rfl, rfl⟩
    · cases h
      exact ⟨rfl, rfl⟩
    · simp only [run_bind_read, nextMaker, bind_assoc] at h
      cases hbest : peekBest o.marketIndex (!o.isAsk) s with
      | none =>
        simp only [hbest] at h
        cases h
        exact ⟨rfl, rfl⟩
      | some best =>
        simp only [hbest, hfar best hbest, if_true] at h
        cases h
        exact ⟨rfl, rfl⟩

theorem admitOrder_uncrossed [AddressCodec] {market : Market}
    (h : (admitOrder msg).run s = .ok market t) (hpost : msg.timeInForce = .postOnly) :
    wouldCross msg.marketIndex msg.isAsk msg.price s = false := by
  simp only [admitOrder, run_bind_lift_ok, run_bind_read_ok, run_bind_require_ok] at h
  obtain ⟨_, -, _, -, -, _, -, -, _, -, -, _, -, h⟩ := h
  obtain ⟨_, s₁, hlimits, h⟩ := run_bind_ok.mp h
  obtain rfl : s = s₁ := (checkMarketLimits_same _ _).ok hlimits
  obtain ⟨_, s₁, hopen, h⟩ := run_bind_ok.mp h
  obtain rfl : s = s₁ := (checkOpenOrders_same _ _).ok hopen
  simp only [run_bind_read_ok, run_bind_require_ok, Except.ok.injEq] at h
  obtain ⟨cross, rfl, hcross, -⟩ := h
  simpa [hpost] using hcross

/-- Accounts and positions are the same. -/
def NothingMoved (s t : State) : Prop :=
  t.account.accounts = s.account.accounts ∧ t.account.accountPositions = s.account.accountPositions

instance : IsPreorder State NothingMoved where
  refl _ := ⟨rfl, rfl⟩
  trans _ _ _ h h' := ⟨h'.1.trans h.1, h'.2.trans h.2⟩

theorem placeOrder_unreached {market : Market} {resp : MsgCreateOrderResponse}
    (hfar : ∀ best, peekBest o.marketIndex (!o.isAsk) s = some best → priceAllows o best = false)
    (h : (placeOrder market o).run s = .ok resp t) :
    resp.filledBaseAmount = 0 ∧ NothingMoved s t ∧
      ∀ i ≠ resp.orderIndex, (coreOf t).orders.get i = (coreOf s).orders.get i := by
  simp only [placeOrder, run_bind_read_ok] at h
  obtain ⟨params, -, h⟩ := h
  obtain ⟨r, s₁, hmatch, hrest⟩ := run_bind_ok.mp h
  simp only [matchOrder, runSweep, run_bind_read_ok] at hmatch
  obtain ⟨market, -, _, -, hsweep⟩ := hmatch
  obtain ⟨rfl, hfilled⟩ := sweep_unreached hfar hsweep
  obtain ⟨o', -, hrest⟩ := run_bind_read_ok.mp hrest
  obtain ⟨_, s₂, hopen, hrest⟩ := run_bind_ok.mp hrest
  cases hrest
  refine ⟨hfilled, ?_, fun i hi => ?_⟩
  · have hframe := (openOrder_frame _).ok hopen
    rw [OrderFrame] at hframe
    rw [hframe]
    exact ⟨rfl, rfl⟩
  · have horders : (coreOf t).orders = (coreOf s₁).orders.put o' := by
      rw [openOrder_ok hopen]
      split_ifs <;> rfl
    rw [horders, Table.get_put, if_neg hi]

/-- **A post-only order never takes.**  Whatever the book is, if the message succeeds then nothing is
filled, and no account, position or other order is touched. -/
theorem post_only_never_takes [AddressCodec] {resp : MsgCreateOrderResponse}
    (hpost : msg.timeInForce = .postOnly) (h : (createOrder msg).run s = .ok resp t) :
    resp.filledBaseAmount = 0 ∧ NothingMoved s t ∧
      ∀ i ≠ resp.orderIndex, (coreOf t).orders.get i = (coreOf s).orders.get i := by
  obtain ⟨prepared, s₁, hprepare, h⟩ := run_bind_ok.mp h
  obtain ⟨hadm, next, -, -, horder, hcore⟩ := prepareOrder_ok hprepare
  have hlimit : msg.orderType = .limitOrder := by
    have hfields := hadm.fields
    unfold MsgCreateOrder.checkFields at hfields
    by_contra hother
    simp only [hpost, ne_eq, hother, not_false_eq_true, and_self, if_true] at hfields
    split_ifs at hfields
  have haccounts : NothingMoved s s₁ := (prepareOrder_keeps (fun _ _ => ⟨rfl, rfl⟩)
    (allocateNonce_keeps fun _ _ _ _ _ => ⟨rfl, rfl⟩) msg).ok hprepare
  have hfar : ∀ best, peekBest prepared.2.marketIndex (!prepared.2.isAsk) s₁ = some best →
      priceAllows prepared.2 best = false := by
    -- the book was checked before the index and the nonce were handed out
    intro best hbest
    obtain ⟨_, _, hadmit, -⟩ := run_bind_ok.mp hprepare
    have hclear := admitOrder_uncrossed hadmit hpost
    have hsame : peekBest msg.marketIndex (!msg.isAsk) s₁ = peekBest msg.marketIndex (!msg.isAsk) s :=
      congrArg (fun c => (c.entries.first (onSide msg.marketIndex (!msg.isAsk))).map Prod.snd) hcore
    rw [horder] at hbest ⊢
    have hbest : peekBest msg.marketIndex (!msg.isAsk) s₁ = some best := hbest
    simp only [wouldCross, ← hsame, hbest] at hclear
    show (decide (msg.orderType = .marketOrder) || reaches msg.isAsk msg.price best.price) = false
    rw [hclear, hlimit]
    rfl
  rw [if_neg (by rw [hlimit]; decide)] at h
  obtain ⟨hfilled, hmoved, hothers⟩ := placeOrder_unreached hfar h
  refine ⟨hfilled, trans_of NothingMoved haccounts hmoved, fun i hi => ?_⟩
  rw [hothers i hi, hcore]

/-- A post-only offer behind a resting one. -/
theorem post_only_never_takes_offer :
    let _ := AddressCodec.acceptAll
    let msg := { offer 100 hundred_le_maxUint32 with timeInForce := .postOnly }
    let s := after (createOrder (offer 100 hundred_le_maxUint32)) cappedMarket
    (createOrder msg).run s = .ok ⟨2, .opened, 0⟩ (after (createOrder msg) s) ∧
      NothingMoved s (after (createOrder msg) s) := by
  intro _ msg s
  have h : (createOrder msg).run s = .ok ⟨2, .opened, 0⟩ _ := run_of_value (by decide +kernel)
  exact ⟨h, (post_only_never_takes rfl h).2.1⟩

end Force

end PerpDex
