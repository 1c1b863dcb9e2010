/-
What is left of an order, and what was filled of it.

* `Booked` — the moves of the exchange together with a ledger of the fills of every order.

Main results: `residue_is_unfilled`, `abandoned_trigger_forgets_fill`.

The ledger is a ghost: no operation reads it.  The stored row of an activated trigger is stale until it
is stored again, so the invariant leaves out the row of the trigger in hand.
-/
import PerpDex.Desk

namespace PerpDex

open Txn

variable {s t : State}
variable {x y : Desk × Ledger} {d : Desk} {i : ℕ} {o : Order} {L : Ledger}

/-! ### The ledger -/

abbrev Ledger := ℕ → ℕ

/-- Book a fill of the order in hand against the order of an entry; an order of a liquidation
has no index of its own. -/
def Ledger.bookFill (L : Ledger) (k : Task) (o : Order) (maker : OrderBookEntry) (base : ℕ) :
    Ledger := fun i =>
  L i + (if i = maker.orderIndex then base else 0) +
    (if k ≠ .liquidating ∧ i = o.orderIndex then base else 0)

section Moves

variable [AddressCodec]

/-- A move and what it adds to the ledger. -/
inductive Booked : Desk × Ledger → Desk × Ledger → Prop
  | fill {s v : State} {k : Task} {o : Order} {maker : OrderBookEntry} {base : ℕ} {L : Ledger}
      (h : Trades s k o maker base v) :
      Booked (⟨s, some (k, o)⟩, L) (⟨v, some (k, o.filledBy base)⟩, L.bookFill k o maker base)
  | other {d d' : Desk} {L : Ledger} (h : Move d d')
      (hhand : d.hand = none ∨ d'.hand = none ∨ d'.hand = d.hand) : Booked (d, L) (d', L)

theorem Booked.move (h : Booked x y) : Move x.1 y.1 := by
  cases h with
  | fill h => exact .fill h
  | other h hhand => exact h

theorem Move.booked {d' : Desk} (h : Move d d') (L : Ledger) : ∃ L', Booked (d, L) (d', L') := by
  by_cases hhand : d.hand = none ∨ d'.hand = none ∨ d'.hand = d.hand
  · exact ⟨L, .other h hhand⟩
  · cases h with
    | fill h => exact ⟨_, .fill h⟩
    | _ => simp at hhand

theorem DeskRun.booked {d' : Desk} (h : DeskRun d d') (L : Ledger) :
    ∃ L', Relation.ReflTransGen Booked (d, L) (d', L') := by
  induction h with
  | refl => exact ⟨L, .refl⟩
  | tail _ hmove ih =>
    obtain ⟨L₁, hrun⟩ := ih
    obtain ⟨L₂, hbooked⟩ := hmove.booked L₁
    exact ⟨L₂, hrun.tail hbooked⟩

/-! ### Orders and ledger agree -/

/-- Orders and ledger agree.  The row of the trigger in hand is left out: what was filled of it
is in hand. -/
structure Reconciled (x : Desk × Ledger) : Prop where
  fresh : ∀ i, (coreOf x.1.state).nextIndex ≤ i → x.2 i = 0
  bounded : ∀ i o, (coreOf x.1.state).orders.get i = some o →
    o.remainingBaseAmount ≤ o.initialBaseAmount
  filled : ∀ i o, (coreOf x.1.state).orders.get i = some o →
    (o.status = .filled ↔ o.remainingBaseAmount = 0)
  rows : ∀ i o, (coreOf x.1.state).orders.get i = some o →
    (∀ o', x.1.hand = some (.fired, o') → o'.orderIndex ≠ i) →
    o.initialBaseAmount = o.remainingBaseAmount + x.2 i
  hand : ∀ k o, x.1.hand = some (k, o) → k ≠ .liquidating →
    o.initialBaseAmount = o.remainingBaseAmount + x.2 o.orderIndex

/-- At most one order was cancelled that had something left. -/
def Core.Retires (c c' : Core) : Prop :=
  c'.nextIndex = c.nextIndex ∧ ∀ i o', c'.orders.get i = some o' →
    ∃ o, c.orders.get i = some o ∧
      (o' = o ∨ (o.status ≠ .filled ∧ o' = { o with status := .cancelled }))

omit [AddressCodec] in
theorem Core.Retires.of_put {c c' : Core} (ho : c.orders.get i = some o)
    (hst : o.status ≠ .filled) (hnext : c'.nextIndex = c.nextIndex)
    (horders : c'.orders = c.orders.put { o with status := .cancelled }) : c.Retires c' := by
  obtain rfl : o.orderIndex = i := Table.key_of_get ho
  refine ⟨hnext, fun j o' hrow => ?_⟩
  rw [horders, Table.get_put] at hrow
  split_ifs at hrow with hj
  · cases hrow
    exact ⟨o, hj ▸ ho, Or.inr ⟨hst, rfl⟩⟩
  · exact ⟨o', hrow, Or.inl rfl⟩

omit [AddressCodec] in
theorem Core.Closing.retires {c c' : Core} (h : c.Closing i .cancelled c') :
    c.Retires c' := by
  cases h with
  | untouched => exact ⟨rfl, fun i o hrow => ⟨o, hrow, Or.inl rfl⟩⟩
  | dropped o ho hst => exact ⟨by simp, fun i o hrow => ⟨o, by simpa using hrow, Or.inl rfl⟩⟩
  | closed o ho hst =>
    refine .of_put ho (fun hfilled => ?_) (by simp [Core.put]) (by simp [Core.put])
    rw [hfilled] at hst
    exact absurd hst (by decide)
  | unparked o ho hst => exact ⟨rfl, fun i o hrow => ⟨o, hrow, Or.inl rfl⟩⟩
  | cancelled o ho hst => exact .of_put ho (by rw [hst]; decide) rfl rfl

omit [AddressCodec] in
theorem Reconciled.retires (h : Reconciled (d, L))
    (hret : (coreOf d.state).Retires (coreOf t)) : Reconciled (⟨t, d.hand⟩, L) where
  fresh i hi := h.fresh i (by rw [← hret.1]; exact hi)
  bounded i o' hrow := by
    obtain ⟨o, ho, rfl | ⟨-, rfl⟩⟩ := hret.2 i o' hrow
    · exact h.bounded i _ ho
    · exact h.bounded i o ho
  filled i o' hrow := by
    obtain ⟨o, ho, rfl | ⟨hst, rfl⟩⟩ := hret.2 i o' hrow
    · exact h.filled i _ ho
    · have hrem : o.remainingBaseAmount ≠ 0 := fun hzero => hst ((h.filled i o ho).mpr hzero)
      simpa using hrem
  rows i o' hrow hother := by
    obtain ⟨o, ho, rfl | ⟨-, rfl⟩⟩ := hret.2 i o' hrow
    · exact h.rows i _ ho hother
    · exact h.rows i o ho hother
  hand := h.hand

omit [AddressCodec] in
theorem Reconciled.stored (h : Reconciled (d, L))
    (hother : ∀ o', d.hand = some (.fired, o') → o'.orderIndex = o.orderIndex)
    (hnext : (coreOf d.state).nextIndex ≤ (coreOf t).nextIndex)
    (horders : (coreOf t).orders = (coreOf d.state).orders.put o)
    (hfilled : o.status = .filled ↔ o.remainingBaseAmount = 0)
    (hrow : o.initialBaseAmount = o.remainingBaseAmount + L o.orderIndex) :
    Reconciled (⟨t, none⟩, L) := by
  have hcases : ∀ i o', (coreOf t).orders.get i = some o' →
      (i = o.orderIndex ∧ o' = o) ∨
        (i ≠ o.orderIndex ∧ (coreOf d.state).orders.get i = some o') := by
    intro i o' hget
    rw [horders, Table.get_put] at hget
    split_ifs at hget with hi
    · exact Or.inl ⟨hi, (Option.some.inj hget).symm⟩
    · exact Or.inr ⟨hi, hget⟩
  refine ⟨fun i hi => h.fresh i (hnext.trans hi), fun i o' hget => ?_, fun i o' hget => ?_,
    fun i o' hget _ => ?_, fun k o' hhand => by simp at hhand⟩
  · rcases hcases i o' hget with ⟨-, rfl⟩ | ⟨-, hold⟩
    · omega
    · exact h.bounded i o' hold
  · rcases hcases i o' hget with ⟨-, rfl⟩ | ⟨-, hold⟩
    · exact hfilled
    · exact h.filled i o' hold
  · rcases hcases i o' hget with ⟨rfl, rfl⟩ | ⟨hi, hold⟩
    · exact hrow
    · exact h.rows i o' hold fun o₁ hhand heq => hi (heq.symm.trans (hother o₁ hhand))

theorem Reconciled.accepted {msg : MsgCreateOrder} {prepared : Market × Order}
    (h : Reconciled (⟨s, none⟩, L)) (hrun : (prepareOrder msg).run s = .ok prepared t) :
    prepared.2.initialBaseAmount = prepared.2.remainingBaseAmount + L prepared.2.orderIndex ∧
      prepared.2.remainingBaseAmount ≠ 0 ∧ (coreOf t).orders = (coreOf s).orders ∧
      (coreOf t).nextIndex = (coreOf s).nextIndex + 1 := by
  obtain ⟨hadm, next, -, -, horder, hcore⟩ := prepareOrder_ok hrun
  have hzero : L (coreOf s).nextIndex = 0 := h.fresh _ le_rfl
  rw [horder, hcore]
  refine ⟨by simp [MsgCreateOrder.toOrder, hzero], ?_, rfl, rfl⟩
  have hfields := hadm.fields
  unfold MsgCreateOrder.checkFields at hfields
  intro hbase
  have hbase : msg.baseAmount = 0 := hbase
  simp [hbase] at hfields

/-- A trigger is abandoned only before anything was filled of it. -/
def SparesFills (x y : Desk × Ledger) : Prop :=
  ∀ o u, x.1.hand = some (.fired, o) → Unplaced o x.1.state u →
    y.1 = ⟨after (cancelOrder o.orderIndex) u, none⟩ → x.2 o.orderIndex = 0

omit [AddressCodec] in
theorem Reconciled.fill {v : State} {k : Task} {maker : OrderBookEntry} {base : ℕ}
    (hx : Reconciled (⟨s, some (k, o)⟩, L)) (hd : Desk.Sound ⟨s, some (k, o)⟩)
    (h : Trades s k o maker base v) :
    Reconciled (⟨v, some (k, o.filledBy base)⟩, L.bookFill k o maker base) := by
  obtain ⟨hne, hle, o₁, sk, he, hrests, hle₁, horders⟩ := h.orders hd.inv
  have hnext : (coreOf v).nextIndex = (coreOf s).nextIndex := (h.sweptBy hd.inv).2.nextIndex
  have hidx : o₁.orderIndex = maker.orderIndex := Table.key_of_get hrests.order
  -- the order in hand is not on the book, so it is not the maker
  have hhand : k ≠ .liquidating → o.orderIndex ≠ maker.orderIndex := fun hk heq =>
    (hd.detached k o rfl hk).noEntry _ _ _ he heq.symm
  have hcases : ∀ i o', (coreOf v).orders.get i = some o' →
      (i = maker.orderIndex ∧ o' = applyOrderResidue o₁ base) ∨
        (i ≠ maker.orderIndex ∧ (coreOf s).orders.get i = some o') := by
    intro i o' hget
    rw [horders, Table.get_put] at hget
    split_ifs at hget with hi
    · exact Or.inl ⟨hi.trans hidx, (Option.some.inj hget).symm⟩
    · exact Or.inr ⟨fun heq => hi (heq.trans hidx.symm), hget⟩
  have hresidue : (applyOrderResidue o₁ base).remainingBaseAmount
      = o₁.remainingBaseAmount - base := by
    simp [applyOrderResidue, Nat.min_eq_left hle₁]
  refine ⟨fun i hi => ?_, fun i o' hget => ?_, fun i o' hget => ?_, fun i o' hget hother => ?_,
    fun k' o' hhand' hk => ?_⟩
  · have hi : (coreOf s).nextIndex ≤ i := hnext ▸ hi
    have hmaker : i ≠ maker.orderIndex := by
      have hlt : o₁.orderIndex < (coreOf s).nextIndex := (hd.inv.row _ _ hrests.order).index_lt
      omega
    have htaker : ¬ (k ≠ .liquidating ∧ i = o.orderIndex) := by
      rintro ⟨hk, heq⟩
      have hlt : o.orderIndex < (coreOf s).nextIndex :=
        (hd.detached k o rfl hk).storable.valid.index_lt
      omega
    show L.bookFill k o maker base i = 0
    rw [Ledger.bookFill, if_neg hmaker, if_neg htaker]
    exact hx.fresh i hi
  · rcases hcases i o' hget with ⟨-, rfl⟩ | ⟨-, hold⟩
    · have hbound := hx.bounded _ o₁ hrests.order
      rw [hresidue]
      exact (Nat.sub_le _ _).trans hbound
    · exact hx.bounded i o' hold
  · rcases hcases i o' hget with ⟨-, rfl⟩ | ⟨-, hold⟩
    · simp only [applyOrderResidue]
      split_ifs with hzero
      · simp [hzero]
      · simp [hzero]
    · exact hx.filled i o' hold
  · rcases hcases i o' hget with ⟨rfl, rfl⟩ | ⟨hi, hold⟩
    · have hrow : o₁.initialBaseAmount = o₁.remainingBaseAmount + L maker.orderIndex :=
        hx.rows _ o₁ hrests.order fun o₂ hfired heq => by
          cases hfired
          exact hhand (by decide) heq
      have htaker : ¬ (k ≠ .liquidating ∧ maker.orderIndex = o.orderIndex) :=
        fun hk => hhand hk.1 hk.2.symm
      rw [hresidue]
      simp only [Ledger.bookFill, if_true, if_neg htaker]
      have hinit : (applyOrderResidue o₁ base).initialBaseAmount = o₁.initialBaseAmount := rfl
      omega
    · have htaker : ¬ (k ≠ .liquidating ∧ i = o.orderIndex) := by
        rintro ⟨hk, rfl⟩
        cases k with
        | placing =>
          rw [hd.fresh o rfl] at hold
          simp at hold
        | fired => exact hother _ rfl rfl
        | liquidating => exact hk rfl
      simp only [Ledger.bookFill, if_neg hi, if_neg htaker, Nat.add_zero]
      refine hx.rows i o' hold fun o₂ hfired heq => ?_
      cases hfired
      exact hother _ rfl heq
  · cases hhand'
    have hrow : o.initialBaseAmount = o.remainingBaseAmount + L o.orderIndex :=
      hx.hand _ o rfl hk
    show o.initialBaseAmount
      = o.remainingBaseAmount - base + L.bookFill _ o maker base o.orderIndex
    rw [Ledger.bookFill, if_neg (hhand hk), if_pos ⟨hk, rfl⟩]
    omega

omit [AddressCodec] in
theorem Reconciled.activate {o' : Order} (hx : Reconciled (⟨s, none⟩, L))
    (ho : (coreOf s).orders.get i = some o) (hrem : 0 < o.remainingBaseAmount)
    (h : (activateTrigger i).run s = .ok o' t) :
    Reconciled (⟨t, some (.fired, executableTwin o')⟩, L) := by
  obtain ⟨o₁, ho₁, rfl, hcore⟩ := activateTrigger_ok h
  cases ho.symm.trans ho₁
  obtain rfl : o.orderIndex = i := Table.key_of_get ho
  obtain ⟨ty, tif, p, -, htwin⟩ := executableTwin_eq { o with status := .opened }
  have hrow : o.initialBaseAmount = o.remainingBaseAmount + L o.orderIndex :=
    hx.rows _ o ho fun _ hhand => by simp at hhand
  have hcases : ∀ j o', (coreOf t).orders.get j = some o' →
      (j = o.orderIndex ∧ o' = { o with status := .opened }) ∨
        (coreOf s).orders.get j = some o' := by
    intro j o' hget
    rw [hcore] at hget
    have hget : ((coreOf s).orders.put { o with status := .opened }).get j = some o' := hget
    rw [Table.get_put] at hget
    split_ifs at hget with hj
    · exact Or.inl ⟨hj, (Option.some.inj hget).symm⟩
    · exact Or.inr hget
  refine ⟨fun j hj => hx.fresh j (by rw [hcore] at hj; exact hj), fun j o' hget => ?_,
    fun j o' hget => ?_, fun j o' hget hother => ?_, fun k o' hhand _ => ?_⟩
  · rcases hcases j o' hget with ⟨-, rfl⟩ | hold
    · exact hx.bounded _ o ho
    · exact hx.bounded j o' hold
  · rcases hcases j o' hget with ⟨-, rfl⟩ | hold
    · simpa using Nat.ne_of_gt hrem
    · exact hx.filled j o' hold
  · rcases hcases j o' hget with ⟨rfl, rfl⟩ | hold
    · exact hrow
    · exact hx.rows j o' hold fun _ hhand => by simp at hhand
  · obtain ⟨-, rfl⟩ := Prod.mk.inj (Option.some.inj hhand)
    rw [htwin]
    exact hrow

omit [AddressCodec] in
theorem Reconciled.abandon {u : State}
    (hx : Reconciled (⟨s, some (.fired, o)⟩, L)) (hd : Desk.Sound ⟨s, some (.fired, o)⟩)
    (h : Unplaced o s u) (hzero : L o.orderIndex = 0) :
    Reconciled (⟨after (cancelOrder o.orderIndex) u, none⟩, L) := by
  have hret := hx.retires (hd.abandon_closing h).retires
  refine ⟨hret.fresh, hret.bounded, hret.filled, fun i o' hget _ => ?_,
    fun _ _ hhand => by simp at hhand⟩
  by_cases hi : o.orderIndex = i
  · subst hi
    obtain ⟨o₀, hrow, -, -, b, hb, ho⟩ := hd.stored o rfl
    obtain ⟨ty, tif, p, -, htwin⟩ := executableTwin_eq o₀
    have hhand : o.initialBaseAmount = o.remainingBaseAmount + L o.orderIndex :=
      hx.hand _ o rfl (by decide)
    have hbound : o₀.remainingBaseAmount ≤ o₀.initialBaseAmount := hx.bounded _ o₀ hrow
    have hinit : o.initialBaseAmount = o₀.initialBaseAmount := by rw [ho, htwin]
    have hrem : o.remainingBaseAmount = b := by rw [ho]
    rw [htwin] at hb
    have hb : b ≤ o₀.remainingBaseAmount := hb
    have hfull : o₀.initialBaseAmount = o₀.remainingBaseAmount + L o.orderIndex := by omega
    obtain ⟨o₂, ho₂, heq⟩ := ((hd.abandon_closing h).retires).2 _ o' hget
    cases hrow.symm.trans ho₂
    rcases heq with rfl | ⟨-, rfl⟩
    · exact hfull
    · exact hfull
  · exact hret.rows i o' hget fun o₁ hfired => by
      obtain ⟨-, rfl⟩ := Prod.mk.inj (Option.some.inj hfired)
      exact hi

omit [AddressCodec] in
theorem Reconciled.idle (hx : Reconciled (d, L)) (hhand : ∀ o, d.hand ≠ some (.fired, o))
    (horders : (coreOf t).orders = (coreOf d.state).orders)
    (hnext : (coreOf t).nextIndex = (coreOf d.state).nextIndex) : Reconciled (⟨t, none⟩, L) where
  fresh i hi := hx.fresh i (hnext ▸ hi)
  bounded i o hget := hx.bounded i o (horders ▸ hget)
  filled i o hget := hx.filled i o (horders ▸ hget)
  rows i o hget _ := hx.rows i o (horders ▸ hget) fun o' hfired => absurd hfired (hhand o')
  hand k o hd := by simp at hd

/-- **Every move keeps orders and ledger in agreement**, if a trigger is abandoned only before
anything was filled of it. -/
theorem Booked.reconciled (h : Booked x y) (hspares : SparesFills x y)
    (hd : x.1.Sound) (hx : Reconciled x) : Reconciled y := by
  cases h with
  | fill h => exact hx.fill hd h
  | @other d d' L h hhand =>
    cases h with
    | @cancel s i => exact hx.retires (cancelOrder_outcome i s).retires
    | @accept s t msg prepared h htype =>
      obtain ⟨hrow, -, horders, hnext⟩ := hx.accepted h
      refine ⟨fun i hi => hx.fresh i ?_, fun i o hget => hx.bounded i o (horders ▸ hget),
        fun i o hget => hx.filled i o (horders ▸ hget), fun i o hget _ => ?_, fun k o hhand _ => ?_⟩
      · have hi : (coreOf t).nextIndex ≤ i := hi
        show (coreOf s).nextIndex ≤ i
        omega
      · exact hx.rows i o (horders ▸ hget) fun _ hfired => by simp at hfired
      · obtain ⟨-, rfl⟩ := Prod.mk.inj (Option.some.inj hhand)
        exact hrow
    | @park s s₁ t msg prepared h htype hpark =>
      obtain ⟨hrow, hrem, horders, hnext⟩ := hx.accepted h
      have hcore := openTriggerOrder_ok hpark
      refine hx.stored (o := { prepared.2 with status := .triggeredPending })
        (fun _ hfired => by simp at hfired) ?_ ?_ (by simpa using hrem) hrow
      · rw [hcore]
        show (coreOf s).nextIndex ≤ (coreOf s₁).nextIndex
        omega
      · rw [hcore, ← horders]
        rfl
    | activate ho hst hrem h => exact hx.activate ho hrem h
    | seize victim m isAsk zeroPrice base =>
      refine ⟨hx.fresh, hx.bounded, hx.filled, fun i o hget _ => ?_, fun k o hhand hk => ?_⟩
      · exact hx.rows i o hget fun _ hfired => by simp at hfired
      · obtain ⟨rfl, -⟩ := Prod.mk.inj (Option.some.inj hhand)
        exact absurd rfl hk
    | @evict s k o best hbest =>
      obtain ⟨sk, he, -⟩ := peekBest_spec hbest
      obtain ⟨⟨o₁, hrests⟩, -⟩ := hd.inv.entry _ _ _ he
      have hclosing : (coreOf s).Closing best.orderIndex .cancelled _ :=
        .of_resting hrests.order hrests.status (evictMakerOrder_outcome .cancelled hrests.order)
      exact hx.retires hclosing.retires
    | @fill s v k o maker base h =>
      -- a fill takes something off the order in hand
      obtain ⟨hne, hle, -⟩ := h.orders hd.inv
      exfalso
      rcases hhand with hhand | hhand | hhand
      · simp at hhand
      · simp at hhand
      · have heq := congrArg Order.remainingBaseAmount (Prod.mk.inj (Option.some.inj hhand)).2
        have heq : o.remainingBaseAmount - base = o.remainingBaseAmount := heq
        omega
    | @store s t k o st hk hst h =>
      refine hx.stored (o := { o with status := st }) (fun o' hfired => ?_) ?_ ?_ hst.filled
        (hx.hand k o rfl hk)
      · obtain ⟨-, rfl⟩ := Prod.mk.inj (Option.some.inj hfired)
        rfl
      · rw [openOrder_ok h]
        split_ifs <;> exact le_rfl
      · rw [openOrder_ok h]
        split_ifs <;> rfl
    | @abandon s u o h => exact hx.abandon hd h (hspares o u rfl h rfl)
    | release => exact hx.idle (fun _ hfired => by simp at hfired) rfl rfl
    | forced h =>
      have hcore := h.forced.sameCore
      exact hx.idle (fun _ hfired => by simp at hfired) (by rw [hcore]) (by rw [hcore])
    | outside h =>
      refine hx.idle (fun _ hfired => by simp at hfired) ?_ ?_
      · simp only [coreOf, h.book]
      · simp only [coreOf, h.book]

/-- **What is left of an order is what was not filled of it.**  In every run in which triggers are
abandoned only before anything was filled of them, the amount an order has lost is the total of
its fills, as taker and as maker, and it is filled exactly when nothing is left. -/
theorem residue_is_unfilled {s₀ : State} {L : Ledger} (hfresh : FreshBook s₀)
    (hrun : Relation.ReflTransGen (fun x y => Booked x y ∧ SparesFills x y)
      (⟨s₀, none⟩, fun _ => 0) (⟨s, none⟩, L)) :
    ∀ i o, (coreOf s).orders.get i = some o →
      (o.initialBaseAmount : ℤ) - o.remainingBaseAmount = L i ∧
        (o.status = .filled ↔ o.remainingBaseAmount = 0) := by
  have hstart : Reconciled (⟨s₀, none⟩, fun _ => 0) := by
    have hnone : ∀ i, (coreOf s₀).orders.get i = none := by
      intro i
      simp [coreOf, hfresh.book]
    refine ⟨fun _ _ => rfl, fun i o hget => ?_, fun i o hget => ?_, fun i o hget => ?_,
      fun _ _ hhand => by simp at hhand⟩
    all_goals
      have hget : (coreOf s₀).orders.get i = some o := hget
      simp [hnone] at hget
  have hend : ∀ y, Relation.ReflTransGen (fun x y => Booked x y ∧ SparesFills x y)
      (⟨s₀, none⟩, fun _ => 0) y → y.1.Sound ∧ Reconciled y := by
    intro y hy
    induction hy with
    | refl => exact ⟨.idle hfresh.inv, hstart⟩
    | tail _ hstep ih =>
      exact ⟨hstep.1.move.sound ih.1, hstep.1.reconciled hstep.2 ih.1 ih.2⟩
  obtain ⟨-, hrec⟩ := hend _ hrun
  intro i o hget
  have hrow := hrec.rows i o hget fun _ hfired => by simp at hfired
  refine ⟨?_, hrec.filled i o hget⟩
  have hrow : o.initialBaseAmount = o.remainingBaseAmount + L i := hrow
  omega

omit [AddressCodec] in
theorem SparesFills.of_not_fired (h : ∀ o, x.1.hand ≠ some (.fired, o)) :
    SparesFills x y := fun o _ hhand => absurd hhand (h o)

theorem Booked.rest (s : State) (msg : MsgCreateOrder) {prepared : Market × Order}
    (hprepare : value (prepareOrder msg) s = some prepared)
    (htype : isTriggerOrder msg.orderType = false) (hst : Settles prepared.2 .opened)
    (hopen : succeeds (openOrder { prepared.2 with status := .opened })
      (after (prepareOrder msg) s) = true) :
    Relation.ReflTransGen (fun x y => Booked x y ∧ SparesFills x y) (⟨s, none⟩, L)
      (⟨after (openOrder { prepared.2 with status := .opened }) (after (prepareOrder msg) s),
        none⟩, L) := by
  refine .tail (.single ⟨.other (.accept (run_of_value hprepare) htype) (Or.inl rfl),
    .of_not_fired fun _ h => by simp at h⟩) ⟨.other (.store (by decide) hst
      (run_of_succeeds hopen)) (Or.inr (Or.inl rfl)), .of_not_fired fun _ h => ?_⟩
  simp at h

end Moves

/-- A market whose open interest may not exceed 60, and two users with collateral. -/
def cappedMarket : State where
  account := {
    accounts := Table.ofRows [{ accountIndex := 0 },
      { accountIndex := 1, accountType := .insuranceFund, publicPoolInfo := some {} },
      { accountIndex := 2, ownerAddress := "alice", collateral := 5000 },
      { accountIndex := 3, ownerAddress := "bob", collateral := 5000 }] }
  market := {
    markets := Table.ofRows [{ marketIndex := 0 }]
    marketDetails := Table.ofRows [{
      marketIndex := 0, markPrice := 100, openInterestLimit := 60,
      defaultInitialMarginFraction := 1000, minInitialMarginFraction := 500,
      maintenanceMarginFraction := 400, closeOutMarginFraction := 200 }] }

theorem cappedMarket_fresh : FreshBook cappedMarket := .of_rows rfl (by decide +kernel)

def offer (price : ℕ) (h : price ≤ maxUint32) : MsgCreateOrder where
  sender := "alice"
  accountIndex := 2
  marketIndex := 0
  isAsk := true
  baseAmount := 50
  price := price
  expiry := 2000
  price_le := h

/-- The second user buys, at once or, with a stop order, when the mark price has reached 100. -/
def purchase (orderType : OrderType) (base : ℕ) : MsgCreateOrder where
  sender := "bob"
  accountIndex := 3
  marketIndex := 0
  isAsk := false
  orderType := orderType
  baseAmount := base
  price := 101
  triggerPrice := 100
  expiry := 2000

def offered (i price : ℕ) (h : price ≤ maxUint32) : Order := (offer price h).toOrder i i

def purchased (i base : ℕ) (orderType : OrderType) : Order :=
  (purchase orderType base).toOrder i firstBidNonce

/-- The state in which an offer has come to rest. -/
def afterOffer (i price : ℕ) (h : price ≤ maxUint32) (s : State) : State :=
  let _ := AddressCodec.acceptAll
  after (openOrder { offered i price h with status := .opened }) (after (prepareOrder (offer price h)) s)

def oneOffer : State := afterOffer 1 100 hundred_le_maxUint32 cappedMarket

def twoOffers : State := afterOffer 2 101 (by decide) oneOffer

theorem afterOffer_booked {price : ℕ} {h : price ≤ maxUint32} (market : Market) (s : State) :
    let _ := AddressCodec.acceptAll
    value (prepareOrder (offer price h)) s = some (market, offered i price h) →
    succeeds (openOrder { offered i price h with status := .opened })
      (after (prepareOrder (offer price h)) s) = true →
    Relation.ReflTransGen (fun x y => Booked x y ∧ SparesFills x y) (⟨s, none⟩, L)
      (⟨afterOffer i price h s, none⟩, L) := by
  intro _ hprepare hopen
  have hst : Settles (offered i price h) .opened :=
    ⟨by simp [offered, offer, MsgCreateOrder.toOrder], by decide,
      fun _ => by simp [offered, offer, MsgCreateOrder.toOrder]⟩
  exact Booked.rest s (offer price h) hprepare rfl hst hopen

theorem oneOffer_booked :
    let _ := AddressCodec.acceptAll
    Relation.ReflTransGen (fun x y => Booked x y ∧ SparesFills x y)
      (⟨cappedMarket, none⟩, fun _ => 0) (⟨oneOffer, none⟩, fun _ => 0) :=
  afterOffer_booked { marketIndex := 0 } cappedMarket (by decide +kernel)
    (by decide +kernel)

/-- The offer of 50 is bought, and both orders are filled. -/
theorem residue_is_unfilled_purchase :
    let _ := AddressCodec.acceptAll
    let s₁ := after (prepareOrder (purchase .limitOrder 50)) oneOffer
    let o := purchased 2 50 .limitOrder
    let maker := (offered 1 100 (by decide)).toEntry
    let s₂ := after (fillMakerOrder 1 50) (after (userTrade { marketIndex := 0 } o maker 50) s₁)
    let t := after (openOrder { o.filledBy 50 with status := .filled }) s₂
    let L := Ledger.bookFill (fun _ => 0) .placing o maker 50
    (coreOf t).orders.get 1
        = some { offered 1 100 (by decide) with remainingBaseAmount := 0, status := .filled } ∧
      L 1 = 50 ∧ L 2 = 50 ∧ ∀ i o, (coreOf t).orders.get i = some o →
        (o.initialBaseAmount : ℤ) - o.remainingBaseAmount = L i ∧
          (o.status = .filled ↔ o.remainingBaseAmount = 0) := by
  intro _ s₁ o maker s₂ t L
  have haccept : Move ⟨oneOffer, none⟩ ⟨s₁, some (.placing, o)⟩ :=
    .accept (run_of_value (a := ({ marketIndex := 0 }, o)) (by decide +kernel)) rfl
  have htrade : Trades s₁ .placing o maker 50 s₂ :=
    .of_values { marketIndex := 0 }
      { offered 1 100 (by decide) with remainingBaseAmount := 0, status := .filled }
      (by decide) (by decide +kernel) (by decide +kernel) (by decide) (by decide) (by decide)
      (by decide +kernel) (by decide +kernel) (by decide +kernel)
  have hstore : Move ⟨s₂, some (.placing, o.filledBy 50)⟩ ⟨t, none⟩ :=
    .store (by decide) ⟨by decide, by decide, by decide⟩ (run_of_succeeds (by decide +kernel))
  refine ⟨by decide +kernel, by decide, by decide, residue_is_unfilled cappedMarket_fresh
    (.tail (.tail (.tail oneOffer_booked ⟨.other haccept (Or.inl rfl), ?_⟩) ⟨.fill htrade, ?_⟩)
      ⟨.other hstore (Or.inr (Or.inl rfl)), ?_⟩)⟩
  all_goals exact .of_not_fired fun _ h => by simp at h

/-- **A trigger that fails half-way forgets what was filled of it.**  A stop order for 100 units buys
the 50 units of the first offer; the second fill would exceed the limit on the open interest.  The
order is cancelled with a residue of 100. -/
theorem abandoned_trigger_forgets_fill :
    let _ := AddressCodec.acceptAll
    let stop := purchased 3 100 .stopLossLimitOrder
    let s₁ := after (openTriggerOrder { stop with status := .triggeredPending })
      (after (prepareOrder (purchase .stopLossLimitOrder 100)) twoOffers)
    let s₂ := after (activateTrigger 3) s₁
    let o := { stop with orderType := .limitOrder, status := .opened }
    let maker := (offered 1 100 (by decide)).toEntry
    let s₃ := after (fillMakerOrder 1 50) (after (userTrade { marketIndex := 0 } o maker 50) s₂)
    let t := after (cancelOrder 3) s₃
    let L := Ledger.bookFill (fun _ => 0) .fired o maker 50
    -- the same by the messages and the hook themselves
    let u := after matchingEndBlocker (after (createOrder (purchase .stopLossLimitOrder 100))
      (after (createOrder (offer 101 (by decide)))
        (after (createOrder (offer 100 (by decide))) cappedMarket)))
    (FreshBook cappedMarket ∧ Relation.ReflTransGen Booked (⟨cappedMarket, none⟩, fun _ => 0)
        (⟨t, none⟩, L) ∧ L 3 = 50 ∧
      (coreOf t).orders.get 3 = some { stop with status := .cancelled } ∧
      stop.initialBaseAmount = 100 ∧ stop.remainingBaseAmount = 100) ∧
    (coreOf u).orders.get 3 = some { stop with status := .cancelled } ∧
      (getPosition u 3 0).baseSize = 50 := by
  intro _ stop s₁ s₂ o maker s₃ t L u
  have hfirst : Relation.ReflTransGen Booked (⟨cappedMarket, none⟩, fun _ => 0)
      (⟨oneOffer, none⟩, fun _ => 0) :=
    Relation.ReflTransGen.mono (fun _ _ h => h.1) _ _ oneOffer_booked
  have hsecond : Relation.ReflTransGen Booked (⟨oneOffer, none⟩, fun _ => 0)
      (⟨twoOffers, none⟩, fun _ => 0) :=
    Relation.ReflTransGen.mono (fun _ _ h => h.1) _ _
      (afterOffer_booked { marketIndex := 0 } oneOffer (by decide +kernel)
        (by decide +kernel))
  have hpark : Move ⟨twoOffers, none⟩ ⟨s₁, none⟩ :=
    .park (run_of_value (a := ({ marketIndex := 0 }, stop)) (by decide +kernel)) rfl
      (run_of_succeeds (by decide +kernel))
  have hactivate : Move ⟨s₁, none⟩ ⟨s₂, some (.fired, o)⟩ :=
    .activate (o := { stop with status := .triggeredPending })
      (by decide +kernel) rfl (by decide)
      (run_of_value (a := { stop with status := .opened }) (by decide +kernel))
  have htrade : Trades s₂ .fired o maker 50 s₃ :=
    .of_values { marketIndex := 0 }
      { offered 1 100 (by decide) with remainingBaseAmount := 0, status := .filled }
      (by decide) (by decide +kernel) (by decide +kernel) (by decide) (by decide) (by decide)
      (by decide +kernel) (by decide +kernel) (by decide +kernel)
  have habandon : Move ⟨s₃, some (.fired, o.filledBy 50)⟩ ⟨t, none⟩ := .abandon (Or.inl rfl)
  refine ⟨⟨cappedMarket_fresh, ?_, by decide, by decide +kernel, by decide, by decide⟩,
    by decide +kernel, by decide +kernel⟩
  exact (hfirst.trans hsecond).tail (.other hpark (Or.inl rfl))
    |>.tail (.other hactivate (Or.inl rfl)) |>.tail (.fill htrade)
    |>.tail (.other habandon (Or.inr (Or.inl rfl)))

end PerpDex
