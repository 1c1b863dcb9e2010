/-
The order book as a transition system, and the handlers as runs of it.

* `Core.Step` — what happens to a book: an order is closed, entries are swept away, indexes and nonces
  are handed out, an order is stored, rests, is parked or activated;
* `cancelOrder_steps`, `createOrder_steps`, `fireTrigger_steps`, `matchLiquidationOrder_steps` — what the
  keepers do is a run of the system.

The parameters say what is known of an order that comes to rest and of one that is parked.  A trigger
that fails half-way leaves an entry without its order for a moment; the run never shows it.
-/
import PerpDex.Sweep

namespace PerpDex

open Txn

namespace Core

/-- An order that may be stored and has neither entry nor trigger. -/
structure Detached (c : Core) (o : Order) : Prop where
  storable : c.Storable o
  noEntry : c.NoEntry o.orderIndex
  noTrigger : c.NoTrigger o.orderIndex

/-- Orders without entry other than `i` are left alone and get none. -/
def Spares (i : ℕ) (c c' : Core) : Prop :=
  ∀ j, j ≠ i → c.NoEntry j → c'.NoEntry j ∧ c'.orders.get j = c.orders.get j

/-- A step on behalf of order `i`. -/
inductive Step (Rest : Core → Order → Prop) (Park : Order → Prop) (i : ℕ) (c : Core) : Core → Prop
  | close {st : OrderStatus} {c' : Core} (h : Closing c i st c') : Step Rest Park i c c'
  | sweep {m : ℕ} {c' : Core} (hinv : c'.Inv) (h : Swept m c c') : Step Rest Park i c c'
  | grow {n : ℕ} {nonces : ℕ → Option (ℤ × ℤ)}
      (hinv : ({ c with nextIndex := n, nonces := nonces } : Core).Inv) :
      Step Rest Park i c { c with nextIndex := n, nonces := nonces }
  | store {o : Order} (hi : o.orderIndex = i) (ho : c.Detached o) : Step Rest Park i c (c.put o)
  | rest {o : Order} (hi : o.orderIndex = i) (ho : c.Detached o)
      (hst : o.status.isResting = true) (hrem : 0 < o.remainingBaseAmount) (hrest : Rest c o) :
      Step Rest Park i c ((c.insert o.marketIndex o.sortKey o.toEntry).put o)
  | park {o : Order} (hi : o.orderIndex = i) (ho : c.Detached o)
      (hst : o.status = .triggeredPending) (hrem : 0 < o.remainingBaseAmount) (hpark : Park o) :
      Step Rest Park i c
        ((c.put o).park (triggerKey o.marketIndex o.triggerPrice o.orderIndex))
  | activate {o : Order} (ho : c.orders.get i = some o) (hst : o.status = .triggeredPending) :
      Step Rest Park i c ((c.unpark (triggerKey o.marketIndex o.triggerPrice i)).put
        { o with status := .opened })

variable {Rest : Core → Order → Prop} {Park : Order → Prop} {i m : ℕ} {c c' : Core} {o o' : Order}

abbrev Steps (Rest : Core → Order → Prop) (Park : Order → Prop) (i : ℕ) : Core → Core → Prop :=
  Relation.ReflTransGen (Step Rest Park i)

theorem Step.inv (h : Step Rest Park i c c') (hc : c.Inv) : c'.Inv := by
  cases h with
  | close h => exact hc.closing h
  | sweep hinv _ => exact hinv
  | grow hinv => exact hinv
  | store _ ho => exact hc.put ho.storable ho.noEntry ho.noTrigger
  | rest _ ho hst hrem _ =>
    have hput := hc.put ho.storable ho.noEntry ho.noTrigger
    exact hput.insert (Table.get_put_self _ _) hst hrem ho.noEntry
  | @park o _ ho hst hrem _ =>
    have hput := hc.put ho.storable ho.noEntry ho.noTrigger
    exact hput.park ⟨Table.get_put_self c.orders o, rfl, rfl, hst, hrem⟩
  | activate ho hst => exact hc.put_unparked ho hst

theorem Steps.inv (h : Steps Rest Park i c c') (hc : c.Inv) : c'.Inv := by
  induction h with
  | refl => exact hc
  | tail _ hstep ih => exact hstep.inv ih

theorem NoEntry.dropOrder {j : ℕ} (h : c.NoEntry j) (m i : ℕ) : (c.dropOrder m i).NoEntry j :=
  fun m' sk e he => h m' sk e (dropOrder_get he)

theorem Closing.spares {st : OrderStatus} (h : Closing c i st c') : Spares i c c' := by
  intro j hj hno
  have hput : ∀ {o : Order} {st : OrderStatus}, c.orders.get i = some o →
      (c.orders.put { o with status := st }).get j = c.orders.get j := by
    intro o st ho
    have hidx : o.orderIndex = i := Table.key_of_get ho
    exact Table.get_put_ne _ (by
      show j ≠ o.orderIndex
      rw [hidx]
      exact hj)
  cases h with
  | untouched => exact ⟨hno, rfl⟩
  | dropped o ho hst => exact ⟨hno.dropOrder _ _, by rw [dropOrder_orders]⟩
  | closed o ho hst =>
    refine ⟨hno.dropOrder o.marketIndex i, ?_⟩
    simp only [Core.put, dropOrder_orders]
    exact hput ho
  | unparked o ho hst => exact ⟨hno, rfl⟩
  | cancelled o ho hst => exact ⟨hno, hput ho⟩

/-- **A step on behalf of one order leaves alone the others that have no entry.** -/
theorem Step.spares (h : Step Rest Park i c c') : Spares i c c' := by
  intro j hj hno
  have hput : ∀ {o : Order}, o.orderIndex = i → (c.orders.put o).get j = c.orders.get j := by
    intro o ho
    exact Table.get_put_ne _ (ho ▸ hj)
  cases h with
  | close h => exact h.spares j hj hno
  | sweep _ h => exact h.noEntry hno
  | grow _ => exact ⟨hno, rfl⟩
  | store hi _ => exact ⟨hno, hput hi⟩
  | @rest o hi _ _ _ _ =>
    refine ⟨?_, hput hi⟩
    intro m sk e he
    simp only [Core.put, Core.insert, KVStore.get_set] at he
    split at he
    · rw [← Option.some_inj.mp he]
      show o.orderIndex ≠ j
      rw [hi]
      exact hj.symm
    · exact hno m sk e he
  | park hi _ _ _ _ => exact ⟨hno, hput hi⟩
  | @activate o ho _ =>
    have hidx : o.orderIndex = i := Table.key_of_get ho
    exact ⟨hno, hput (o := { o with status := .opened }) hidx⟩

theorem Steps.spares (h : Steps Rest Park i c c') : Spares i c c' := by
  induction h with
  | refl => exact fun j _ hno => ⟨hno, rfl⟩
  | tail _ hstep ih =>
    intro j hj hno
    obtain ⟨hno', hsame⟩ := ih j hj hno
    obtain ⟨hno'', hsame'⟩ := hstep.spares j hj hno'
    exact ⟨hno'', hsame'.trans hsame⟩

theorem Swept.storable (h : Swept m c c') (ho : c.Storable o) : c'.Storable o where
  valid := by
    rw [h.nextIndex, h.nonces]
    exact ho.valid
  unrivaled j r hr hrivals := by
    rcases h.order j with hsame | ⟨-, -, r₀, b, st, -, -, hr₀, hr'⟩
    · exact ho.unrivaled j r (hsame ▸ hr) hrivals
    · rw [hr', Option.some_inj] at hr
      subst hr
      exact ho.unrivaled j r₀ hr₀ hrivals

theorem Swept.detached (h : Swept m c c') (ho : c.Detached o) : c'.Detached o where
  storable := h.storable ho.storable
  noEntry := (h.noEntry ho.noEntry).1
  noTrigger m p := by
    rw [h.triggers]
    exact ho.noTrigger m p

theorem Detached.of_eq (h : c.Detached o) (hidx : o'.orderIndex = o.orderIndex)
    (hmarket : o'.marketIndex = o.marketIndex) (hside : o'.isAsk = o.isAsk)
    (hnonce : o'.nonce = o.nonce) (hprice : o'.price ≤ o.price) : c.Detached o' where
  storable := h.storable.of_eq hidx hmarket hside hnonce hprice
  noEntry := hidx ▸ h.noEntry
  noTrigger := hidx ▸ h.noTrigger

theorem Inv.dropOrder_of_noEntry (hc : c.Inv) (h : c.NoEntry i) (m : ℕ) : c.dropOrder m i = c := by
  have hfind : c.find m i = none := by
    simp [Core.find, hc.pointer_free h m]
  rw [Core.dropOrder, hfind]

end Core

/-! ### The handlers as runs -/

section Runs

variable {Rest : Core → Order → Prop} {Park : Order → Prop} {s t : State} {u : Unit}

theorem cancelOrder_steps (i : ℕ) (s : State) :
    Core.Steps Rest Park i (coreOf s) (coreOf (after (cancelOrder i) s)) :=
  .single (.close (cancelOrder_outcome i s))

theorem matchLiquidationOrder_steps {victim m zeroPrice base feeBps recipient n : ℕ} (i : ℕ)
    (hc : (coreOf s).Inv)
    (h : (matchLiquidationOrder victim m zeroPrice base feeBps recipient).run s = .ok n t) :
    Core.Steps Rest Park i (coreOf s) (coreOf t) := by
  obtain ⟨hinv, hswept⟩ := (matchLiquidationOrder_sweptBy _ _ _ _ _ _).ok h hc
  exact .single (.sweep hinv hswept)

theorem openOrder_steps {o : Order} (ho : (coreOf s).Detached o)
    (hrem : o.status.isResting = true → 0 < o.remainingBaseAmount)
    (hrest : o.status.isResting = true → Rest (coreOf s) o)
    (h : (openOrder o).run s = .ok u t) :
    Core.Steps Rest Park o.orderIndex (coreOf s) (coreOf t) := by
  rw [openOrder_ok h]
  split_ifs with hst
  · exact .single (.rest rfl ho hst (hrem hst) (hrest hst))
  · exact .single (.store rfl ho)

theorem settled_eq {taker : Order} {r : SweepResult} (h : taker.ShrunkTo r.taker) :
    ∃ b st, b ≤ taker.remainingBaseAmount ∧
      r.settled = { taker with remainingBaseAmount := b, status := st } := by
  obtain ⟨b, hb, htaker⟩ := h
  unfold SweepResult.settled killResidue
  rw [htaker]
  split_ifs
  · exact ⟨b, .cancelled, hb, rfl⟩
  · exact ⟨b, r.status, hb, rfl⟩

/-- The order that matching returns is not in use in the book that it leaves. -/
theorem matchOrder_detached {o : Order} {n : ℕ} {r : SweepResult} (hc : (coreOf s).Inv)
    (ho : (coreOf s).Detached o) (h : (matchOrder o n).run s = .ok r t) :
    (coreOf t).Inv ∧ Core.Swept o.marketIndex (coreOf s) (coreOf t) ∧
      (coreOf t).Detached r.settled ∧ r.settled.orderIndex = o.orderIndex ∧
      r.settled.marketIndex = o.marketIndex := by
  obtain ⟨hinv, hswept⟩ := (matchOrder_sweptBy o _).ok h hc
  obtain ⟨b, st, -, hsettled⟩ := settled_eq (matchOrder_result h).1
  rw [hsettled]
  exact ⟨hinv, hswept, (hswept.detached ho).of_eq rfl rfl rfl rfl le_rfl, rfl, rfl⟩

theorem settled_remaining {r : SweepResult} (hst : r.settled.status.isResting = true) :
    0 < r.settled.remainingBaseAmount := by
  obtain ⟨heq, hrem, -, -⟩ := SweepResult.settled_resting hst
  rw [heq]
  exact Nat.pos_of_ne_zero hrem

theorem placeOrder_steps {market : Market} {order : Order} {resp : MsgCreateOrderResponse}
    (hc : (coreOf s).Inv) (ho : (coreOf s).Detached order)
    (hrest : ∀ r v, (matchOrder order s.matchingParams.maxFillsPerMsg).run s = .ok r v →
      gateSpotResidue market r.settled v = r.settled → r.settled.status.isResting = true →
      Rest (coreOf v) r.settled)
    (h : (placeOrder market order).run s = .ok resp t) :
    Core.Steps Rest Park order.orderIndex (coreOf s) (coreOf t) := by
  simp only [placeOrder, run_bind_ok, run_read_ok, run_pure_ok] at h
  obtain ⟨params, s₁, ⟨hparams, rfl⟩, r, s₂, hmatch, o, s₃, ⟨hgate, rfl⟩, _, s₄, hopen, -, rfl⟩ := h
  cases hparams
  have hgate : gateSpotResidue market r.settled s₃ = o := Except.ok.inj hgate
  obtain ⟨hinv, hswept, hdet, hidx, -⟩ := matchOrder_detached hc ho hmatch
  -- the gate for spot residues leaves the order as it is or cancels it
  have hcases : (coreOf s₃).Detached o ∧ o.orderIndex = order.orderIndex ∧
      (o.status.isResting = true → o = r.settled) := by
    rw [← hgate]
    unfold gateSpotResidue
    split_ifs
    · exact ⟨hdet.of_eq rfl rfl rfl rfl le_rfl, hidx,
        fun hst => absurd hst (by simp [OrderStatus.isResting])⟩
    · exact ⟨hdet, hidx, fun _ => rfl⟩
  obtain ⟨hdet', hidx', hresting⟩ := hcases
  refine Relation.ReflTransGen.head (.sweep hinv hswept) ?_
  rw [← hidx']
  refine openOrder_steps hdet' (fun hst => ?_) (fun hst => ?_) hopen
  · obtain rfl := hresting hst
    exact settled_remaining hst
  · obtain rfl := hresting hst
    exact hrest r _ hmatch hgate hst

/-- What a failed attempt to match and store an activated trigger leaves: a swept book, perhaps
with an entry whose order was not stored. -/
theorem fireOrder_error {o : Order} {e : Err} (hc : (coreOf s).Inv) (ho : (coreOf s).Detached o)
    (h : (fireOrder o).run s = .error e t) :
    ∃ c₂, c₂.Inv ∧ Core.Swept o.marketIndex (coreOf s) c₂ ∧ (coreOf t = c₂ ∨
      ∃ o' : Order, c₂.Detached o' ∧ o'.orderIndex = o.orderIndex ∧
        o'.marketIndex = o.marketIndex ∧ coreOf t = c₂.insert o'.marketIndex o'.sortKey o'.toEntry) := by
  simp only [fireOrder, run_bind_error, run_read_error, run_read_ok, reduceCtorEq, false_and,
    false_or] at h
  obtain ⟨params, s₁, ⟨-, rfl⟩, h⟩ := h
  rcases h with hmatch | ⟨r, s₂, hmatch, hopen⟩
  · obtain ⟨hinv, hswept⟩ := (matchOrder_sweptBy o _).error hmatch hc
    exact ⟨coreOf t, hinv, hswept, Or.inl rfl⟩
  · obtain ⟨hinv, hswept, hdet, hidx, hmarket⟩ := matchOrder_detached hc ho hmatch
    refine ⟨coreOf s₂, hinv, hswept, ?_⟩
    rcases openOrder_error hopen with hsame | hinsert
    · exact Or.inl hsame
    · exact Or.inr ⟨r.settled, hdet, hidx, hmarket, hinsert⟩

theorem fireOrder_steps {o : Order} (hc : (coreOf s).Inv) (ho : (coreOf s).Detached o)
    (hrest : ∀ r v, (matchOrder o s.matchingParams.maxFillsPerMsg).run s = .ok r v →
      r.settled.status.isResting = true → Rest (coreOf v) r.settled)
    (h : (fireOrder o).run s = .ok u t) :
    Core.Steps Rest Park o.orderIndex (coreOf s) (coreOf t) := by
  simp only [fireOrder, run_bind_ok, run_read_ok] at h
  obtain ⟨params, s₁, ⟨hparams, rfl⟩, r, s₂, hmatch, hopen⟩ := h
  cases hparams
  obtain ⟨hinv, hswept, hdet, hidx, -⟩ := matchOrder_detached hc ho hmatch
  refine Relation.ReflTransGen.head (.sweep hinv hswept) ?_
  rw [← hidx]
  exact openOrder_steps hdet settled_remaining (fun hst => hrest r _ hmatch hst) hopen

theorem executableTwin_eq (o : Order) : ∃ ty tif p, p ≤ o.price ∧
    executableTwin o = { o with orderType := ty, timeInForce := tif, price := p } := by
  unfold executableTwin
  split
  · exact ⟨.limitOrder, o.timeInForce, o.price, le_rfl, rfl⟩
  · exact ⟨.limitOrder, o.timeInForce, o.price, le_rfl, rfl⟩
  · exact ⟨.marketOrder, .ioc, 0, Nat.zero_le _, rfl⟩

/-- What an activation did: nothing, or a match with what follows from it, or a failed match and a
cancellation. -/
theorem fireTrigger_ok {i : ℕ} (h : (fireTrigger i).run s = .ok u t) :
    (∃ e, (activateTrigger i).run s = .error e t) ∨
      ∃ o s₁, (activateTrigger i).run s = .ok o s₁ ∧
        ((fireOrder (executableTwin o)).run s₁ = .ok () t ∨
          ∃ e s₂, (fireOrder (executableTwin o)).run s₁ = .error e s₂ ∧
            t = after (cancelOrder o.orderIndex) s₂) := by
  obtain ⟨activated, s₁, hlogged, hrest⟩ := run_bind_ok.mp h
  rcases run_attempt_ok.mp hlogged with ⟨o, rfl, hactivate⟩ | ⟨e, rfl, -, hactivate⟩
  · refine Or.inr ⟨o, s₁, hactivate, ?_⟩
    obtain ⟨fired, s₂, hlogged₂, hrest₂⟩ := run_bind_ok.mp hrest
    rcases run_attempt_ok.mp hlogged₂ with ⟨_, rfl, hfired⟩ | ⟨e, rfl, -, hfired⟩
    · obtain rfl := (run_pure_ok.mp hrest₂).2
      exact Or.inl hfired
    · obtain ⟨cancelled, s₃, hlogged₃, hrest₃⟩ := run_bind_ok.mp hrest₂
      obtain rfl := (run_pure_ok.mp hrest₃).2
      refine Or.inr ⟨e, s₂, hfired, ?_⟩
      rcases run_attempt_ok.mp hlogged₃ with ⟨_, -, hcancel⟩ | ⟨_, -, -, hcancel⟩
      · exact (after_of_ok hcancel).symm
      · exact (after_of_error hcancel).symm
  · obtain rfl := (run_pure_ok.mp hrest).2
    exact Or.inl ⟨e, hactivate⟩

theorem activateTrigger_detached {i : ℕ} {o o' : Order} (hc : (coreOf s).Inv)
    (ho : (coreOf s).orders.get i = some o) (hst : o.status = .triggeredPending)
    (h : (activateTrigger i).run s = .ok o' t) :
    o' = { o with status := .opened } ∧
      coreOf t = ((coreOf s).unpark (triggerKey o.marketIndex o.triggerPrice i)).put o' ∧
      (coreOf t).orders.get i = some o' ∧ (coreOf t).Detached o' := by
  obtain ⟨o₀, ho₀, rfl, hcore⟩ := activateTrigger_ok h
  rw [ho, Option.some_inj] at ho₀
  subst ho₀
  obtain rfl : o.orderIndex = i := Table.key_of_get ho
  have hinv : (coreOf t).Inv := by
    rw [hcore]
    exact hc.put_unparked ho hst
  have hrow : (coreOf t).orders.get o.orderIndex = some { o with status := .opened } := by
    rw [hcore]
    exact Table.get_put_self ((coreOf s).orders) { o with status := .opened }
  refine ⟨rfl, hcore, hrow, hinv.storable hrow, ?_, ?_⟩
  · rw [hcore]
    exact hc.noEntry_of_status ho (by rw [hst]; rfl)
  · rw [hcore]
    exact hc.unpark_noTrigger ho

/-- Cancelling an order whose matching or storing failed takes away the entry that was left
behind. -/
theorem cancelOrder_unplaced {c : Core} {o o₁ : Order} (hc : c.Inv) (ho : c.Detached o)
    (hrow : c.orders.get o.orderIndex = some o₁) (hst : o₁.status.isResting = true)
    (hrem : o₁.remainingBaseAmount ≠ 0) (hmarket : o.marketIndex = o₁.marketIndex)
    (hleft : coreOf s = c ∨ ∃ o' : Order, c.Detached o' ∧ o'.orderIndex = o.orderIndex ∧
      o'.marketIndex = o.marketIndex ∧ coreOf s = c.insert o'.marketIndex o'.sortKey o'.toEntry) :
    c.Closing o.orderIndex .cancelled (coreOf (after (cancelOrder o.orderIndex) s)) := by
  have hstored : (coreOf s).orders.get o.orderIndex = some o₁ := by
    rcases hleft with h | ⟨o', -, -, -, h⟩
    · rw [h]
      exact hrow
    · rw [h]
      exact hrow
  have hdrop : (coreOf s).dropOrder o₁.marketIndex o.orderIndex
      = c.dropOrder o₁.marketIndex o.orderIndex := by
    rcases hleft with h | ⟨o', hdet', hidx', hmarket', h⟩
    · rw [h]
    · have hput := hc.put hdet'.storable hdet'.noEntry hdet'.noTrigger
      have hfree := hput.key_free (Table.get_put_self _ o') hdet'.noEntry
      have hback := hc.dropOrder_insert hfree (e := o'.toEntry) hdet'.noEntry
      rw [hc.dropOrder_of_noEntry ho.noEntry, h, ← hidx', ← hmarket, ← hmarket']
      exact hback
  have houtcome := cancelOrder_resting hstored hst hrem
  rw [hdrop] at houtcome
  exact .of_resting hrow hst houtcome

/-- **Activating a trigger is a run of the system**, also when it fails half-way. -/
theorem fireTrigger_steps {i : ℕ} {o : Order} (hc : (coreOf s).Inv)
    (ho : (coreOf s).orders.get i = some o) (hst : o.status = .triggeredPending)
    (hrem : 0 < o.remainingBaseAmount)
    (hrest : ∀ o' s₁ r s₂, (activateTrigger i).run s = .ok o' s₁ →
      (matchOrder (executableTwin o') s₁.matchingParams.maxFillsPerMsg).run s₁ = .ok r s₂ →
      r.settled.status.isResting = true → Rest (coreOf s₂) r.settled)
    (h : (fireTrigger i).run s = .ok u t) :
    Core.Steps Rest Park i (coreOf s) (coreOf t) := by
  rcases fireTrigger_ok h with ⟨e, hactivate⟩ | ⟨o₁, s₁, hactivate, hfired⟩
  · rw [activateTrigger_error hactivate]
  obtain ⟨ho₁, hcore, hrow, hdet₁⟩ := activateTrigger_detached hc ho hst hactivate
  have hact : Core.Step Rest Park i (coreOf s) (coreOf s₁) := by
    rw [hcore, ho₁]
    exact .activate ho hst
  have hinv₁ := hact.inv hc
  have hidx₁ : o₁.orderIndex = i := Table.key_of_get hrow
  obtain ⟨ty, tif, p, hp, htwin⟩ := executableTwin_eq o₁
  have hdet : (coreOf s₁).Detached (executableTwin o₁) := by
    rw [htwin]
    exact hdet₁.of_eq rfl rfl rfl rfl hp
  have hidx : (executableTwin o₁).orderIndex = i := by
    rw [htwin]
    exact hidx₁
  have hmarket : (executableTwin o₁).marketIndex = o₁.marketIndex := by rw [htwin]
  refine Relation.ReflTransGen.head hact ?_
  rcases hfired with hfired | ⟨e, s₂, hfired, rfl⟩
  · rw [← hidx]
    exact fireOrder_steps hinv₁ hdet (fun r v => hrest o₁ s₁ r v hactivate) hfired
  · -- the order is cancelled, and with it an entry that was left behind
    obtain ⟨c₂, hinv₂, hswept, hleft⟩ := fireOrder_error hinv₁ hdet hfired
    obtain ⟨-, hsame⟩ := hswept.noEntry (hidx₁ ▸ hdet₁.noEntry)
    have hclosing := cancelOrder_unplaced hinv₂ (hswept.detached hdet)
      (by rw [hidx]; exact hsame.trans hrow) (by rw [ho₁]; rfl)
      (by rw [ho₁]; exact Nat.ne_of_gt hrem) hmarket hleft
    rw [hidx] at hclosing
    rw [hidx₁]
    exact .head (.sweep hinv₂ hswept) (.single (.close hclosing))

section Handlers

variable [AddressCodec]

theorem prepareOrder_detached {msg : MsgCreateOrder} {prepared : Market × Order}
    (hc : (coreOf s).Inv) (h : (prepareOrder msg).run s = .ok prepared t) :
    (coreOf t).Inv ∧ (coreOf t).Detached prepared.2 ∧
      Core.Steps Rest Park prepared.2.orderIndex (coreOf s) (coreOf t) := by
  obtain ⟨-, next, hnext, hlt, horder, hcore⟩ := prepareOrder_ok h
  have hrange := hc.nonces _ next hnext
  have hinv : (coreOf t).Inv := by
    rw [hcore]
    refine hc.grow (Nat.le_succ _) ?_ ?_
    · intro m next' hnext'
      by_cases hm : m = msg.marketIndex
      · subst hm
        rw [hnext, Option.some_inj] at hnext'
        subst hnext'
        refine ⟨_, Function.update_self _ _ _, ?_, ?_⟩
        · unfold nextNonces
          split_ifs <;> dsimp only <;> omega
        · unfold nextNonces
          split_ifs <;> dsimp only <;> omega
      · exact ⟨next', by rw [Function.update_of_ne hm, hnext'], le_rfl, le_rfl⟩
    · intro m next' hnext'
      by_cases hm : m = msg.marketIndex
      · subst hm
        rw [Function.update_self, Option.some_inj] at hnext'
        subst hnext'
        unfold nextNonces at hlt ⊢
        split_ifs at hlt ⊢ <;> dsimp only at hlt ⊢ <;> omega
      · rw [Function.update_of_ne hm] at hnext'
        exact hc.nonces m next' hnext'
  have hstorable : (coreOf t).Storable prepared.2 := by
    rw [horder, hcore]
    refine ⟨⟨Nat.lt_succ_self _, msg.price_le, nextNonces msg.isAsk next,
      Function.update_self _ _ _, ?_⟩, ?_⟩
    · show if msg.isAsk = true then _ else _
      simp only [MsgCreateOrder.toOrder, nonceFor, nextNonces]
      split_ifs <;> dsimp only <;> omega
    · -- the nonces of the orders there are were handed out before
      intro j o' ho' hrivals
      obtain ⟨next', hnext', hbetween⟩ := (hc.row j o' ho').allocated
      obtain ⟨hmarket, hside, hnonce⟩ := hrivals
      rw [← hmarket] at hnext'
      have hsame : next' = next := by
        have hnext'' : (coreOf s).nonces msg.marketIndex = some next' := hnext'
        rw [hnext, Option.some_inj] at hnext''
        exact hnext''.symm
      rw [hsame, ← hside, ← hnonce] at hbetween
      simp only [MsgCreateOrder.toOrder, nonceFor] at hbetween
      split_ifs at hbetween <;> omega
  have hidx : prepared.2.orderIndex = (coreOf s).nextIndex := by rw [horder]; rfl
  refine ⟨hinv, ⟨hstorable, ?_, ?_⟩, ?_⟩
  · rw [hidx, hcore]
    exact hc.noEntry_fresh le_rfl
  · rw [hidx, hcore]
    exact hc.noTrigger_fresh le_rfl
  · rw [hcore] at hinv ⊢
    exact .single (.grow hinv)

/-- **A new order is a run of the system**: it is parked, or matched and then stored. -/
theorem createOrder_steps {msg : MsgCreateOrder} {resp : MsgCreateOrderResponse}
    (hc : (coreOf s).Inv)
    (hpark : ∀ idx nonce, msg.checkFields = .ok () → isTriggerOrder msg.orderType = true →
      Park { msg.toOrder idx nonce with status := .triggeredPending })
    (hrest : ∀ prepared s₁ r s₂, (prepareOrder msg).run s = .ok prepared s₁ →
      isTriggerOrder msg.orderType = false →
      (matchOrder prepared.2 s₁.matchingParams.maxFillsPerMsg).run s₁ = .ok r s₂ →
      gateSpotResidue prepared.1 r.settled s₂ = r.settled → r.settled.status.isResting = true →
      Rest (coreOf s₂) r.settled)
    (h : (createOrder msg).run s = .ok resp t) :
    ∃ i, Core.Steps Rest Park i (coreOf s) (coreOf t) := by
  obtain ⟨prepared, s₁, hprepare, h⟩ := run_bind_ok.mp h
  obtain ⟨hinv, hdet, hsteps⟩ := prepareOrder_detached hc hprepare
  refine ⟨prepared.2.orderIndex, hsteps.trans ?_⟩
  split_ifs at h with htrigger
  · obtain ⟨_, s₂, hopen, hpure⟩ := run_bind_ok.mp h
    obtain rfl := (run_pure_ok.mp hpure).2
    obtain ⟨hadm, next, -, -, horder, -⟩ := prepareOrder_ok hprepare
    have hfields := hadm.fields
    rw [openTriggerOrder_ok hopen]
    refine .single (.park rfl (hdet.of_eq rfl rfl rfl rfl le_rfl) rfl ?_ ?_)
    · -- a message with base amount zero is not admitted
      rw [horder]
      show 0 < msg.baseAmount
      by_contra hzero
      have hzero : msg.baseAmount = 0 := by omega
      simp [MsgCreateOrder.checkFields, hzero, throw, throwThe, MonadExceptOf.throw] at hfields
    · rw [horder]
      exact hpark _ _ hfields htrigger
  · exact placeOrder_steps hinv hdet
      (fun r v => hrest prepared s₁ r v hprepare (by simpa using htrigger)) h

end Handlers

end Runs

end PerpDex
