/-
The order book as one object: orders, entries, triggers and nonces.

* `Core.Inv` — an entry is the image of a resting order, pointers and entries are inverse to each other,
  triggers belong to pending orders, and nonces are not used twice;
* `Swept` — a book from which entries of one market were filled or removed.

An order whose status says that it rests need not have an entry: a hook that fails between the two
writes leaves such an order.  The invariant says nothing about it.
-/
import Mathlib.Data.Prod.Lex
import PerpDex.Orderbook

namespace PerpDex

/-- The stores of the book that refer to each other, and the nonces the markets hand out. -/
structure Core where
  orders : Table Order.orderIndex
  entries : KVStore (ℕ ×ₗ SortKey) OrderBookEntry
  pointers : KVStore (ℕ ×ₗ ℕ) SortKey
  triggers : KVStore (ℕ ×ₗ ℕ ×ₗ ℕ) Unit
  nextIndex : ℕ
  /-- The next ask and bid nonce of a market. -/
  nonces : ℕ → Option (ℤ × ℤ)

def coreOf (s : State) : Core where
  orders := s.book.orders
  entries := s.book.orderBookEntries
  pointers := s.book.orderToSortKey
  triggers := s.book.triggerIndex
  nextIndex := s.book.nextOrderIndex
  nonces m := (s.market.marketDetails.get m).map fun d => (d.askNonce, d.bidNonce)

def Order.sortKey (o : Order) : SortKey := sortableKey o.price o.nonce o.isAsk

/-! ### Keys -/

theorem nonceWord_of_range {n : ℤ} (h : firstAskNonce ≤ n) (h' : n ≤ firstBidNonce) :
    nonceWord n = n.toNat := by
  unfold firstAskNonce at h
  unfold firstBidNonce at h'
  rw [nonceWord, Int.emod_eq_of_lt (by omega) (by omega)]

theorem int64_of_range {n : ℤ} (h : firstAskNonce ≤ n ∧ n ≤ firstBidNonce) :
    minInt64 ≤ n ∧ n ≤ maxInt64 := by
  unfold firstAskNonce firstBidNonce at h
  unfold minInt64 maxInt64
  omega

theorem sortableKey_inj {p p' : ℕ} {n n' : ℤ} {a a' : Bool} (hp : p ≤ maxUint32)
    (hp' : p' ≤ maxUint32) (hn : minInt64 ≤ n ∧ n ≤ maxInt64) (hn' : minInt64 ≤ n' ∧ n' ≤ maxInt64)
    (h : sortableKey p n a = sortableKey p' n' a') : a = a' ∧ p = p' ∧ n = n' := by
  unfold minInt64 maxInt64 at hn hn'
  unfold maxUint32 at hp hp'
  cases a <;> cases a' <;>
    simp only [sortableKey, sideByte, nonceWord, EmbeddingLike.apply_eq_iff_eq, Prod.mk.injEq,
      maxUint32, maxUint64, Bool.false_eq_true, if_true, if_false] at h
  · exact ⟨rfl, by omega, by omega⟩
  · omega
  · omega
  · exact ⟨rfl, by omega, by omega⟩

@[simp] theorem onSide_sortableKey (m m' p : ℕ) (n : ℤ) (a a' : Bool) :
    onSide m a (toLex (m', sortableKey p n a')) = true ↔ m' = m ∧ a' = a := by
  cases a <;> cases a' <;> simp [onSide, sortableKey, sideByte]

theorem price_le_of_askKey_le {p p' : ℕ} {n n' : ℤ}
    (h : sortableKey p n true ≤ sortableKey p' n' true) : p ≤ p' := by
  simp only [sortableKey, if_true, Prod.Lex.le_iff, ofLex_toLex] at h
  omega

theorem price_le_of_bidKey_le {p p' : ℕ} {n n' : ℤ} (hp' : p' ≤ maxUint32)
    (h : sortableKey p n false ≤ sortableKey p' n' false) : p' ≤ p := by
  simp only [sortableKey, Bool.false_eq_true, if_false, Prod.Lex.le_iff, ofLex_toLex] at h
  omega

namespace Core

variable (c : Core)

/-! ### Writes -/

def put (o : Order) : Core := { c with orders := c.orders.put o }

def insert (m : ℕ) (sk : SortKey) (e : OrderBookEntry) : Core :=
  { c with
    entries := c.entries.set (toLex (m, sk)) e
    pointers := c.pointers.set (toLex (m, e.orderIndex)) sk }

def setEntry (m : ℕ) (sk : SortKey) (e : OrderBookEntry) : Core :=
  { c with entries := c.entries.set (toLex (m, sk)) e }

def drop (m i : ℕ) (sk : SortKey) : Core :=
  { c with
    entries := c.entries.remove (toLex (m, sk))
    pointers := c.pointers.remove (toLex (m, i)) }

/-- The entry of an order, found through its pointer. -/
def find (m i : ℕ) : Option (SortKey × OrderBookEntry) := do
  let sk ← c.pointers.get (toLex (m, i))
  let e ← c.entries.get (toLex (m, sk))
  return (sk, e)

/-- Remove the entry of an order, if it has one. -/
def dropOrder (m i : ℕ) : Core :=
  match c.find m i with
  | none => c
  | some found => c.drop m i found.1

def park (k : ℕ ×ₗ ℕ ×ₗ ℕ) : Core := { c with triggers := c.triggers.set k () }

def unpark (k : ℕ ×ₗ ℕ ×ₗ ℕ) : Core := { c with triggers := c.triggers.remove k }

/-! ### Consistency -/

end Core

/-- The nonce was handed out by the market to an order on the given side. -/
def Allocated (nonces : ℕ → Option (ℤ × ℤ)) (m : ℕ) (isAsk : Bool) (n : ℤ) : Prop :=
  ∃ next, nonces m = some next ∧
    if isAsk then firstAskNonce ≤ n ∧ n < next.1 else next.2 < n ∧ n ≤ firstBidNonce

namespace Order

/-- Two orders that could have the same key. -/
def Rivals (o o' : Order) : Prop :=
  o.marketIndex = o'.marketIndex ∧ o.isAsk = o'.isAsk ∧ o.nonce = o'.nonce

/-- What is asked of every stored order. -/
structure Valid (o : Order) (nextIndex : ℕ) (nonces : ℕ → Option (ℤ × ℤ)) : Prop where
  index_lt : o.orderIndex < nextIndex
  price_le : o.price ≤ maxUint32
  allocated : Allocated nonces o.marketIndex o.isAsk o.nonce

/-- The order is stored and is what the entry `e` under `sk` stands for. -/
structure Rests (o : Order) (orders : Table Order.orderIndex) (m : ℕ) (sk : SortKey)
    (e : OrderBookEntry) : Prop where
  order : orders.get e.orderIndex = some o
  market : o.marketIndex = m
  key : o.sortKey = sk
  entry : o.toEntry = e
  status : o.status.isResting = true
  remaining : 0 < o.remainingBaseAmount

/-- The order is stored and waits for the trigger price `p`. -/
structure Waits (o : Order) (orders : Table Order.orderIndex) (m p i : ℕ) : Prop where
  order : orders.get i = some o
  market : o.marketIndex = m
  price : o.triggerPrice = p
  status : o.status = .triggeredPending
  remaining : 0 < o.remainingBaseAmount

end Order

namespace Core

variable (c : Core)

structure Inv : Prop where
  entry : ∀ m sk e, c.entries.get (toLex (m, sk)) = some e →
    (∃ o : Order, o.Rests c.orders m sk e) ∧ c.pointers.get (toLex (m, e.orderIndex)) = some sk
  pointer : ∀ m i sk, c.pointers.get (toLex (m, i)) = some sk →
    ∃ e, c.entries.get (toLex (m, sk)) = some e ∧ e.orderIndex = i
  trigger : ∀ m p i, c.triggers.get (triggerKey m p i) = some () →
    ∃ o : Order, o.Waits c.orders m p i
  row : ∀ i (o : Order), c.orders.get i = some o → o.Valid c.nextIndex c.nonces
  unrivaled : ∀ i i' (o o' : Order), c.orders.get i = some o → c.orders.get i' = some o' →
    o.Rivals o' → i = i'
  nonces : ∀ m next, c.nonces m = some next →
    firstAskNonce ≤ next.1 ∧ next.1 < next.2 ∧ next.2 ≤ firstBidNonce

def NoEntry (i : ℕ) : Prop :=
  ∀ m sk e, c.entries.get (toLex (m, sk)) = some e → e.orderIndex ≠ i

def NoTrigger (i : ℕ) : Prop := ∀ m p, c.triggers.get (triggerKey m p i) = none

end Core

namespace Core

variable {c : Core} {m i : ℕ} {sk : SortKey} {e : OrderBookEntry} {o : Order}

theorem Inv.nonce_range (hc : c.Inv) {a : Bool} {n : ℤ} (h : Allocated c.nonces m a n) :
    firstAskNonce ≤ n ∧ n ≤ firstBidNonce := by
  obtain ⟨next, hnext, hn⟩ := h
  have hrange := hc.nonces m next hnext
  cases a with
  | true =>
    simp only [if_true] at hn
    omega
  | false =>
    simp only [Bool.false_eq_true, if_false] at hn
    omega

theorem Inv.entry_of_order (hc : c.Inv) (he : c.entries.get (toLex (m, sk)) = some e)
    (ho : c.orders.get e.orderIndex = some o) : o.Rests c.orders m sk e := by
  obtain ⟨⟨o', hrests⟩, -⟩ := hc.entry m sk e he
  rw [hrests.order] at ho
  rw [← Option.some_inj.mp ho]
  exact hrests

theorem Inv.noEntry_of_status (hc : c.Inv) (ho : c.orders.get i = some o)
    (hstatus : o.status.isResting = false) : c.NoEntry i := by
  intro m sk e he hei
  have hrests := hc.entry_of_order he (hei ▸ ho)
  rw [hrests.status] at hstatus
  exact absurd hstatus (by simp)

theorem Inv.noTrigger_of_status (hc : c.Inv) (ho : c.orders.get i = some o)
    (hstatus : o.status ≠ .triggeredPending) : c.NoTrigger i := by
  intro m p
  by_contra hne
  obtain ⟨u, hu⟩ := Option.ne_none_iff_exists'.mp hne
  obtain ⟨o', hwaits⟩ := hc.trigger m p i hu
  rw [hwaits.order] at ho
  rw [Option.some_inj.mp ho] at hwaits
  exact hstatus hwaits.status

theorem Inv.order_fresh (hc : c.Inv) (hi : c.nextIndex ≤ i) : c.orders.get i = none := by
  by_contra hne
  obtain ⟨o, ho⟩ := Option.ne_none_iff_exists'.mp hne
  have hlt := (hc.row i o ho).index_lt
  rw [Table.key_of_get ho] at hlt
  omega

theorem Inv.noEntry_fresh (hc : c.Inv) (hi : c.nextIndex ≤ i) : c.NoEntry i := by
  intro m sk e he hei
  obtain ⟨⟨o, hrests⟩, -⟩ := hc.entry m sk e he
  have horder := hrests.order
  rw [hei, hc.order_fresh hi] at horder
  simp at horder

theorem Inv.noTrigger_fresh (hc : c.Inv) (hi : c.nextIndex ≤ i) : c.NoTrigger i := by
  intro m p
  by_contra hne
  obtain ⟨u, hu⟩ := Option.ne_none_iff_exists'.mp hne
  obtain ⟨o, hwaits⟩ := hc.trigger m p i hu
  have horder := hwaits.order
  rw [hc.order_fresh hi] at horder
  simp at horder

/-! ### Finding and removing entries -/

theorem find_eq_some : c.find m i = some (sk, e) ↔
    c.pointers.get (toLex (m, i)) = some sk ∧ c.entries.get (toLex (m, sk)) = some e := by
  unfold find
  rcases c.pointers.get (toLex (m, i)) with _ | sk'
  · simp
  · rcases he : c.entries.get (toLex (m, sk')) with _ | e'
    · simp only [Option.bind_eq_bind, Option.bind_some, he, Option.bind_none, reduceCtorEq,
        Option.some.injEq, false_iff, not_and]
      rintro rfl
      rw [he]
      simp
    · simp only [Option.bind_eq_bind, Option.bind_some, he, Option.pure_def, Option.some.injEq,
        Prod.mk.injEq]
      constructor
      · rintro ⟨rfl, rfl⟩
        exact ⟨rfl, he⟩
      · rintro ⟨rfl, he'⟩
        rw [he, Option.some_inj] at he'
        exact ⟨rfl, he'⟩

theorem Inv.find_spec (hc : c.Inv) (h : c.find m i = some (sk, e)) :
    c.entries.get (toLex (m, sk)) = some e ∧ e.orderIndex = i := by
  obtain ⟨hptr, he⟩ := find_eq_some.mp h
  obtain ⟨e', he', hidx⟩ := hc.pointer m i sk hptr
  rw [he, Option.some_inj] at he'
  exact ⟨he, he' ▸ hidx⟩

theorem Inv.find_of_entry (hc : c.Inv) (he : c.entries.get (toLex (m, sk)) = some e) :
    c.find m e.orderIndex = some (sk, e) :=
  find_eq_some.mpr ⟨(hc.entry m sk e he).2, he⟩

theorem Inv.drop (hc : c.Inv) (h : c.find m i = some (sk, e)) : (c.drop m i sk).Inv where
  entry m' sk' e' he' := by
    simp only [Core.drop, KVStore.get_remove] at he' ⊢
    split at he'
    · simp at he'
    · rename_i hne
      obtain ⟨⟨o, hrests⟩, hptr⟩ := hc.entry m' sk' e' he'
      refine ⟨⟨o, hrests⟩, ?_⟩
      -- the removed pointer is not the one to this entry
      rw [if_neg, hptr]
      intro hkey
      rw [hkey, (find_eq_some.mp h).1, Option.some_inj] at hptr
      simp only [EmbeddingLike.apply_eq_iff_eq, Prod.mk.injEq] at hkey
      exact hne (by rw [hkey.1, hptr])
  pointer m' i' sk' hptr := by
    simp only [Core.drop, KVStore.get_remove] at hptr ⊢
    split at hptr
    · simp at hptr
    · rename_i hne
      obtain ⟨e', he', hidx⟩ := hc.pointer m' i' sk' hptr
      refine ⟨e', ?_, hidx⟩
      rw [if_neg, he']
      intro hkey
      have hi := hc.find_spec h
      rw [hkey, hi.1, Option.some_inj] at he'
      simp only [EmbeddingLike.apply_eq_iff_eq, Prod.mk.injEq] at hkey
      exact hne (by rw [hkey.1, ← hidx, ← he', hi.2])
  trigger := hc.trigger
  row := hc.row
  unrivaled := hc.unrivaled
  nonces := hc.nonces

theorem Inv.dropOrder (hc : c.Inv) (m i : ℕ) : (c.dropOrder m i).Inv := by
  unfold Core.dropOrder
  rcases h : c.find m i with _ | ⟨sk, e⟩
  · exact hc
  · exact hc.drop h

@[simp] theorem dropOrder_orders (c : Core) (m i : ℕ) : (c.dropOrder m i).orders = c.orders := by
  unfold Core.dropOrder
  split <;> rfl

@[simp] theorem dropOrder_triggers (c : Core) (m i : ℕ) :
    (c.dropOrder m i).triggers = c.triggers := by
  unfold Core.dropOrder
  split <;> rfl

@[simp] theorem dropOrder_nextIndex (c : Core) (m i : ℕ) :
    (c.dropOrder m i).nextIndex = c.nextIndex := by
  unfold Core.dropOrder
  split <;> rfl

@[simp] theorem dropOrder_nonces (c : Core) (m i : ℕ) : (c.dropOrder m i).nonces = c.nonces := by
  unfold Core.dropOrder
  split <;> rfl

theorem dropOrder_get {k : ℕ ×ₗ SortKey} {e' : OrderBookEntry}
    (h : (c.dropOrder m i).entries.get k = some e') : c.entries.get k = some e' := by
  unfold Core.dropOrder at h
  rcases hfind : c.find m i with _ | ⟨sk, e⟩
  · rw [hfind] at h
    exact h
  · simp only [hfind, Core.drop, KVStore.get_remove] at h
    split at h
    · simp at h
    · exact h

theorem Inv.dropOrder_noEntry (hc : c.Inv) (ho : c.orders.get i = some o) :
    (c.dropOrder o.marketIndex i).NoEntry i := by
  intro m sk e he hei
  have hentry := dropOrder_get he
  have hrests := hc.entry_of_order hentry (hei ▸ ho)
  have hfind := hc.find_of_entry hentry
  rw [hei, ← hrests.market] at hfind
  rw [← hrests.market] at he
  simp [Core.dropOrder, hfind, Core.drop] at he

end Core

/-! ### Storing orders -/

namespace Core

variable {c : Core} {m i : ℕ} {sk : SortKey} {e : OrderBookEntry} {o o' : Order}

/-- The order may be stored: its fields are in range and no other order has its nonce. -/
structure Storable (c : Core) (o : Order) : Prop where
  valid : o.Valid c.nextIndex c.nonces
  unrivaled : ∀ i (o' : Order), c.orders.get i = some o' → o.Rivals o' → i = o.orderIndex

theorem Inv.storable (hc : c.Inv) (ho : c.orders.get i = some o) : c.Storable o where
  valid := hc.row i o ho
  unrivaled j o' ho' hrivals := by
    rw [Table.key_of_get ho]
    exact (hc.unrivaled i j o o' ho ho' hrivals).symm

theorem Storable.of_eq (h : c.Storable o) (hidx : o'.orderIndex = o.orderIndex)
    (hmarket : o'.marketIndex = o.marketIndex) (hside : o'.isAsk = o.isAsk)
    (hnonce : o'.nonce = o.nonce) (hprice : o'.price ≤ o.price) : c.Storable o' where
  valid := {
    index_lt := hidx ▸ h.valid.index_lt
    price_le := hprice.trans h.valid.price_le
    allocated := by
      rw [hmarket, hside, hnonce]
      exact h.valid.allocated }
  unrivaled j o'' ho'' hrivals := by
    rw [hidx]
    refine h.unrivaled j o'' ho'' ?_
    rw [Order.Rivals, hmarket, hside, hnonce] at hrivals
    exact hrivals

theorem Inv.put (hc : c.Inv) (ho : c.Storable o) (hentry : c.NoEntry o.orderIndex)
    (htrigger : c.NoTrigger o.orderIndex) : (c.put o).Inv where
  entry m sk e he := by
    obtain ⟨⟨o', hrests⟩, hptr⟩ := hc.entry m sk e he
    refine ⟨⟨o', { hrests with order := ?_ }⟩, hptr⟩
    rw [Core.put, Table.get_put_ne _ (hentry m sk e he)]
    exact hrests.order
  pointer := hc.pointer
  trigger m p i hi := by
    obtain ⟨o', hwaits⟩ := hc.trigger m p i hi
    have hne : i ≠ o.orderIndex := by
      rintro rfl
      rw [Core.put, htrigger m p] at hi
      simp at hi
    refine ⟨o', { hwaits with order := ?_ }⟩
    rw [Core.put, Table.get_put_ne _ hne]
    exact hwaits.order
  row j o' hj := by
    simp only [Core.put, Table.get_put] at hj
    split at hj
    · rw [← Option.some_inj.mp hj]
      exact ho.valid
    · exact hc.row j o' hj
  unrivaled j j' r r' hj hj' hrivals := by
    simp only [Core.put, Table.get_put] at hj hj'
    split at hj <;> split at hj'
    · rename_i h₁ h₂
      rw [h₁, h₂]
    · rename_i h₁ h₂
      rw [← Option.some_inj.mp hj] at hrivals
      rw [h₁]
      exact (ho.unrivaled j' r' hj' hrivals).symm
    · rename_i h₁ h₂
      rw [← Option.some_inj.mp hj'] at hrivals
      rw [h₂]
      exact ho.unrivaled j r hj ⟨hrivals.1.symm, hrivals.2.1.symm, hrivals.2.2.symm⟩
    · exact hc.unrivaled j j' r r' hj hj' hrivals
  nonces := hc.nonces

theorem Inv.key_free (hc : c.Inv) (ho : c.orders.get o.orderIndex = some o)
    (hentry : c.NoEntry o.orderIndex) :
    c.entries.get (toLex (o.marketIndex, o.sortKey)) = none := by
  by_contra hne
  obtain ⟨e, he⟩ := Option.ne_none_iff_exists'.mp hne
  obtain ⟨⟨o', hrests⟩, -⟩ := hc.entry _ _ e he
  have hvalid := hc.row _ o ho
  have hvalid' := hc.row _ o' hrests.order
  have hinj := sortableKey_inj hvalid'.price_le hvalid.price_le
    (int64_of_range (hc.nonce_range hvalid'.allocated))
    (int64_of_range (hc.nonce_range hvalid.allocated)) hrests.key
  exact hentry _ _ e he
    (hc.unrivaled _ _ o' o hrests.order ho ⟨hrests.market, hinj.1, hinj.2.2⟩)

theorem Inv.pointer_free (hc : c.Inv) (hentry : c.NoEntry i) (m : ℕ) :
    c.pointers.get (toLex (m, i)) = none := by
  by_contra hne
  obtain ⟨sk, hsk⟩ := Option.ne_none_iff_exists'.mp hne
  obtain ⟨e, he, hidx⟩ := hc.pointer m i sk hsk
  exact hentry m sk e he hidx

theorem Inv.insert (hc : c.Inv) (ho : c.orders.get o.orderIndex = some o)
    (hstatus : o.status.isResting = true) (hremaining : 0 < o.remainingBaseAmount)
    (hentry : c.NoEntry o.orderIndex) :
    (c.insert o.marketIndex o.sortKey o.toEntry).Inv where
  entry m sk e he := by
    simp only [Core.insert, KVStore.get_set] at he ⊢
    split at he
    · rename_i hkey
      simp only [EmbeddingLike.apply_eq_iff_eq, Prod.mk.injEq] at hkey
      obtain ⟨rfl, rfl⟩ := hkey
      obtain rfl := Option.some_inj.mp he
      exact ⟨⟨o, ⟨ho, rfl, rfl, rfl, hstatus, hremaining⟩⟩, if_pos rfl⟩
    · obtain ⟨hrests, hptr⟩ := hc.entry m sk e he
      refine ⟨hrests, ?_⟩
      rw [if_neg, hptr]
      intro hkey
      simp only [EmbeddingLike.apply_eq_iff_eq, Prod.mk.injEq] at hkey
      exact hentry m sk e he hkey.2
  pointer m i sk hptr := by
    simp only [Core.insert, KVStore.get_set] at hptr ⊢
    split at hptr
    · rename_i hkey
      simp only [EmbeddingLike.apply_eq_iff_eq, Prod.mk.injEq] at hkey
      obtain ⟨rfl, rfl⟩ := hkey
      obtain rfl := Option.some_inj.mp hptr
      exact ⟨o.toEntry, if_pos rfl, rfl⟩
    · obtain ⟨e, he, hidx⟩ := hc.pointer m i sk hptr
      refine ⟨e, ?_, hidx⟩
      rw [if_neg, he]
      intro hkey
      rw [hkey, hc.key_free ho hentry] at he
      simp at he
  trigger := hc.trigger
  row := hc.row
  unrivaled := hc.unrivaled
  nonces := hc.nonces

theorem Inv.dropOrder_insert (hc : c.Inv) (hkey : c.entries.get (toLex (m, sk)) = none)
    (hentry : c.NoEntry e.orderIndex) : (c.insert m sk e).dropOrder m e.orderIndex = c := by
  have hfind : (c.insert m sk e).find m e.orderIndex = some (sk, e) := by
    rw [find_eq_some]
    exact ⟨KVStore.get_set_self _ _ _, KVStore.get_set_self _ _ _⟩
  have hentries : (c.entries.set (toLex (m, sk)) e).remove (toLex (m, sk)) = c.entries := by
    refine KVStore.ext_get fun k => ?_
    rw [KVStore.get_remove, KVStore.get_set]
    split
    · rename_i hk
      rw [hk, hkey]
    · rfl
  have hpointers : (c.pointers.set (toLex (m, e.orderIndex)) sk).remove (toLex (m, e.orderIndex))
      = c.pointers := by
    refine KVStore.ext_get fun k => ?_
    rw [KVStore.get_remove, KVStore.get_set]
    split
    · rename_i hk
      rw [hk, hc.pointer_free hentry]
    · rfl
  rw [Core.dropOrder, hfind]
  simp only [Core.drop, Core.insert, hentries, hpointers]

theorem Inv.shrink (hc : c.Inv) (he : c.entries.get (toLex (m, sk)) = some e)
    (ho : o.Rests c.orders m sk e) {r : ℕ} {st : OrderStatus} (hr : 0 < r)
    (hst : st.isResting = true) :
    ((c.setEntry m sk { e with remainingBaseAmount := r }).put
      { o with remainingBaseAmount := r, status := st }).Inv := by
  -- the same as removing the entry, storing the order and inserting the new entry
  set o' : Order := { o with remainingBaseAmount := r, status := st } with ho'
  have hidx : o.orderIndex = e.orderIndex := by
    rw [← ho.entry]
    rfl
  have hfind := hc.find_of_entry he
  have hdrop := hc.drop hfind
  have hno : (c.drop m e.orderIndex sk).NoEntry e.orderIndex := by
    have h := hc.dropOrder_noEntry ho.order
    rw [ho.market] at h
    simpa only [Core.dropOrder, hfind] using h
  have hpend : o.status ≠ .triggeredPending := by
    intro h
    have hstatus := ho.status
    rw [h] at hstatus
    exact absurd hstatus (by decide)
  have hput : ((c.drop m e.orderIndex sk).put o').Inv := by
    refine hdrop.put ((hdrop.storable ho.order).of_eq rfl rfl rfl rfl le_rfl) ?_ ?_
    · show (c.drop m e.orderIndex sk).NoEntry o.orderIndex
      rw [hidx]
      exact hno
    · show (c.drop m e.orderIndex sk).NoTrigger o.orderIndex
      rw [hidx]
      exact hdrop.noTrigger_of_status ho.order hpend
  have hins := hput.insert (o := o') (Table.get_put_self _ o') hst hr
    (by
      show (c.drop m e.orderIndex sk).NoEntry o.orderIndex
      rw [hidx]
      exact hno)
  have hsame : ((c.drop m e.orderIndex sk).put o').insert o'.marketIndex o'.sortKey o'.toEntry
      = (c.setEntry m sk { e with remainingBaseAmount := r }).put o' := by
    have hmarket : o'.marketIndex = m := ho.market
    have hkey : o'.sortKey = sk := ho.key
    have hentry : o'.toEntry = { e with remainingBaseAmount := r } := by
      rw [← ho.entry]
      rfl
    have hentries : (c.entries.remove (toLex (m, sk))).set (toLex (m, sk))
          { e with remainingBaseAmount := r }
        = c.entries.set (toLex (m, sk)) { e with remainingBaseAmount := r } := by
      refine KVStore.ext_get fun k => ?_
      simp only [KVStore.get_set, KVStore.get_remove]
      split <;> rfl
    have hpointers : (c.pointers.remove (toLex (m, e.orderIndex))).set (toLex (m, e.orderIndex)) sk
        = c.pointers := by
      refine KVStore.ext_get fun k => ?_
      simp only [KVStore.get_set, KVStore.get_remove]
      split
      · rename_i hk
        rw [hk, (hc.entry m sk e he).2]
      · rfl
    simp only [Core.insert, Core.put, Core.drop, Core.setEntry, hmarket, hkey, hentry, hentries,
      hpointers]
  rw [← hsame]
  exact hins

end Core

/-! ### Triggers and allocation -/

namespace Core

variable {c : Core} {m p i : ℕ} {o : Order}

theorem triggerKey_inj {m m' p p' i i' : ℕ} (h : triggerKey m p i = triggerKey m' p' i') :
    m = m' ∧ p = p' ∧ i = i' := by
  simpa [triggerKey] using h

theorem Inv.park (hc : c.Inv) (ho : o.Waits c.orders m p i) :
    (c.park (triggerKey m p i)).Inv where
  entry := hc.entry
  pointer := hc.pointer
  trigger m' p' i' h := by
    simp only [Core.park, KVStore.get_set] at h
    split at h
    · rename_i hkey
      obtain ⟨rfl, rfl, rfl⟩ := triggerKey_inj hkey
      exact ⟨o, ho⟩
    · exact hc.trigger m' p' i' h
  row := hc.row
  unrivaled := hc.unrivaled
  nonces := hc.nonces

theorem Inv.unpark (hc : c.Inv) (k : ℕ ×ₗ ℕ ×ₗ ℕ) : (c.unpark k).Inv where
  entry := hc.entry
  pointer := hc.pointer
  trigger m' p' i' h := by
    simp only [Core.unpark, KVStore.get_remove] at h
    split at h
    · simp at h
    · exact hc.trigger m' p' i' h
  row := hc.row
  unrivaled := hc.unrivaled
  nonces := hc.nonces

theorem Inv.unpark_noTrigger (hc : c.Inv) (ho : c.orders.get i = some o) :
    (c.unpark (triggerKey o.marketIndex o.triggerPrice i)).NoTrigger i := by
  intro m p
  simp only [Core.unpark, KVStore.get_remove]
  split
  · rfl
  · rename_i hne
    by_contra hsome
    obtain ⟨u, hu⟩ := Option.ne_none_iff_exists'.mp hsome
    obtain ⟨o', hwaits⟩ := hc.trigger m p i hu
    have horder := hwaits.order
    rw [ho, Option.some_inj] at horder
    rw [← hwaits.market, ← hwaits.price, horder] at hne
    exact hne rfl

theorem Inv.grow (hc : c.Inv) {n : ℕ} {nonces : ℕ → Option (ℤ × ℤ)} (hn : c.nextIndex ≤ n)
    (hmono : ∀ m next, c.nonces m = some next →
      ∃ next', nonces m = some next' ∧ next.1 ≤ next'.1 ∧ next'.2 ≤ next.2)
    (hrange : ∀ m next, nonces m = some next →
      firstAskNonce ≤ next.1 ∧ next.1 < next.2 ∧ next.2 ≤ firstBidNonce) :
    ({ c with nextIndex := n, nonces := nonces } : Core).Inv where
  entry := hc.entry
  pointer := hc.pointer
  trigger := hc.trigger
  row i o ho := by
    have hvalid := hc.row i o ho
    obtain ⟨next, hnext, hbetween⟩ := hvalid.allocated
    obtain ⟨next', hnext', hask, hbid⟩ := hmono _ next hnext
    refine ⟨lt_of_lt_of_le hvalid.index_lt hn, hvalid.price_le, next', hnext', ?_⟩
    split at hbetween
    · rw [if_pos ‹_›]
      omega
    · rw [if_neg ‹_›]
      omega
  unrivaled := hc.unrivaled
  nonces := hrange

end Core

/-! ### Books from which a sweep took entries -/

/-- `c'` is `c` with entries of market `m` filled or removed and their orders changed
accordingly. -/
structure Core.Swept (m : ℕ) (c c' : Core) : Prop where
  entry : ∀ k e', c'.entries.get k = some e' →
    ∃ e r, c.entries.get k = some e ∧ e' = { e with remainingBaseAmount := r }
  other : ∀ k, (ofLex k).1 ≠ m → c'.entries.get k = c.entries.get k
  order : ∀ i, c'.orders.get i = c.orders.get i ∨
    ∃ sk e o r st, c.entries.get (toLex (m, sk)) = some e ∧ e.orderIndex = i ∧
      c.orders.get i = some o ∧
      c'.orders.get i = some { o with remainingBaseAmount := r, status := st }
  triggers : c'.triggers = c.triggers
  nextIndex : c'.nextIndex = c.nextIndex
  nonces : c'.nonces = c.nonces

namespace Core.Swept

variable {m i : ℕ} {c c' c'' : Core}

theorem refl (m : ℕ) (c : Core) : Swept m c c where
  entry _ e' h := ⟨e', e'.remainingBaseAmount, h, rfl⟩
  other _ _ := rfl
  order _ := Or.inl rfl
  triggers := rfl
  nextIndex := rfl
  nonces := rfl

theorem trans (h : Swept m c c') (h' : Swept m c' c'') : Swept m c c'' where
  entry k e'' he'' := by
    obtain ⟨e', r, he', rfl⟩ := h'.entry k e'' he''
    obtain ⟨e, r', he, rfl⟩ := h.entry k e' he'
    exact ⟨e, r, he, rfl⟩
  other k hk := (h'.other k hk).trans (h.other k hk)
  order i := by
    rcases h'.order i with hsame | ⟨sk, e', o', r, st, he', hidx, ho', ho''⟩
    · rw [hsame]
      exact h.order i
    · -- an order changed by the second part had its entry from the start
      obtain ⟨e, r', he, rfl⟩ := h.entry _ e' he'
      right
      rcases h.order i with hsame | ⟨-, -, o, r₁, st₁, -, -, ho, hi⟩
      · exact ⟨sk, e, o', r, st, he, hidx, hsame ▸ ho', ho''⟩
      · rw [hi, Option.some_inj] at ho'
        subst ho'
        exact ⟨sk, e, o, r, st, he, hidx, ho, ho''⟩
  triggers := h'.triggers.trans h.triggers
  nextIndex := h'.nextIndex.trans h.nextIndex
  nonces := h'.nonces.trans h.nonces

theorem noEntry (h : Swept m c c') (hi : c.NoEntry i) :
    c'.NoEntry i ∧ c'.orders.get i = c.orders.get i := by
  constructor
  · intro m' sk e' he' hidx
    obtain ⟨e, r, he, rfl⟩ := h.entry _ e' he'
    exact hi m' sk e he hidx
  · rcases h.order i with hsame | ⟨sk, e, -, -, -, he, hidx, -⟩
    · exact hsame
    · exact absurd hidx (hi m sk e he)

end Core.Swept

/-! ### Closing an order -/

/-- How far the closing of an order came: the final status is stored last. -/
inductive Core.Closing (c : Core) (i : ℕ) (st : OrderStatus) : Core → Prop
  | untouched : Closing c i st c
  | dropped (o : Order) (ho : c.orders.get i = some o) (hst : o.status.isResting = true) :
      Closing c i st (c.dropOrder o.marketIndex i)
  | closed (o : Order) (ho : c.orders.get i = some o) (hst : o.status.isResting = true) :
      Closing c i st ((c.dropOrder o.marketIndex i).put { o with status := st })
  | unparked (o : Order) (ho : c.orders.get i = some o) (hst : o.status = .triggeredPending) :
      Closing c i st (c.unpark (triggerKey o.marketIndex o.triggerPrice i))
  | cancelled (o : Order) (ho : c.orders.get i = some o) (hst : o.status = .triggeredPending) :
      Closing c i st
        ((c.unpark (triggerKey o.marketIndex o.triggerPrice i)).put { o with status := st })

namespace Core

variable {c c' : Core} {m i : ℕ} {sk : SortKey} {e : OrderBookEntry} {o : Order}
  {st : OrderStatus}

theorem status_ne_pending (h : o.status.isResting = true) : o.status ≠ .triggeredPending := by
  intro hpending
  rw [hpending] at h
  exact absurd h (by decide)

theorem Closing.of_resting (ho : c.orders.get i = some o) (hst : o.status.isResting = true)
    (h : c' = c.dropOrder o.marketIndex i ∨
      c' = (c.dropOrder o.marketIndex i).put { o with status := st }) : Closing c i st c' := by
  rcases h with rfl | rfl
  · exact .dropped o ho hst
  · exact .closed o ho hst

theorem Inv.put_dropped (hc : c.Inv) (ho : c.orders.get i = some o)
    (hst : o.status.isResting = true) {r : ℕ} :
    ((c.dropOrder o.marketIndex i).put
      { o with remainingBaseAmount := r, status := st }).Inv := by
  have hdrop := hc.dropOrder o.marketIndex i
  have hidx : o.orderIndex = i := Table.key_of_get ho
  have ho' : (c.dropOrder o.marketIndex i).orders.get i = some o := by
    rw [dropOrder_orders]
    exact ho
  refine hdrop.put ((hdrop.storable ho').of_eq rfl rfl rfl rfl le_rfl) ?_ ?_
  · show NoEntry _ o.orderIndex
    rw [hidx]
    exact hc.dropOrder_noEntry ho
  · show NoTrigger _ o.orderIndex
    rw [hidx]
    exact hdrop.noTrigger_of_status ho' (status_ne_pending hst)

theorem Inv.put_unparked (hc : c.Inv) (ho : c.orders.get i = some o)
    (hst : o.status = .triggeredPending) :
    ((c.unpark (triggerKey o.marketIndex o.triggerPrice i)).put { o with status := st }).Inv := by
  have hunpark := hc.unpark (triggerKey o.marketIndex o.triggerPrice i)
  have hidx : o.orderIndex = i := Table.key_of_get ho
  refine hunpark.put ((hunpark.storable ho).of_eq rfl rfl rfl rfl le_rfl) ?_ ?_
  · show NoEntry _ o.orderIndex
    rw [hidx]
    exact hc.noEntry_of_status ho (by rw [hst]; rfl)
  · show NoTrigger _ o.orderIndex
    rw [hidx]
    exact hc.unpark_noTrigger ho

/-- **The book is consistent however far the closing of an order came.** -/
theorem Inv.closing (hc : c.Inv) (h : Closing c i st c') : c'.Inv := by
  cases h with
  | untouched => exact hc
  | dropped o ho hst => exact hc.dropOrder _ _
  | closed o ho hst => exact hc.put_dropped ho hst
  | unparked o ho hst => exact hc.unpark _
  | cancelled o ho hst => exact hc.put_unparked ho hst

theorem Inv.swept_dropOrder (hc : c.Inv) (he : c.entries.get (toLex (m, sk)) = some e) :
    Swept m c (c.dropOrder m e.orderIndex) where
  entry k e' he' := ⟨e', e'.remainingBaseAmount, dropOrder_get he', rfl⟩
  other k hk := by
    rw [Core.dropOrder, hc.find_of_entry he]
    simp only [Core.drop]
    refine KVStore.get_remove_ne _ ?_
    rintro rfl
    exact hk rfl
  order j := Or.inl (by rw [dropOrder_orders])
  triggers := dropOrder_triggers _ _ _
  nextIndex := dropOrder_nextIndex _ _ _
  nonces := dropOrder_nonces _ _ _

theorem Swept.put (h : Swept m c c') (he : c.entries.get (toLex (m, sk)) = some e)
    (ho : c.orders.get e.orderIndex = some o) (r : ℕ) (st : OrderStatus) :
    Swept m c (c'.put { o with remainingBaseAmount := r, status := st }) where
  entry := h.entry
  other := h.other
  order i := by
    have hidx : o.orderIndex = e.orderIndex := Table.key_of_get ho
    by_cases hi : i = e.orderIndex
    · right
      refine ⟨sk, e, o, r, st, he, hi.symm, hi ▸ ho, ?_⟩
      rw [hi, ← hidx]
      exact Table.get_put_self c'.orders { o with remainingBaseAmount := r, status := st }
    · have hsame : (c'.put { o with remainingBaseAmount := r, status := st }).orders.get i
          = c'.orders.get i := Table.get_put_ne c'.orders (hidx ▸ hi)
      rw [hsame]
      exact h.order i
  triggers := h.triggers
  nextIndex := h.nextIndex
  nonces := h.nonces

theorem Inv.swept_closing (hc : c.Inv) (he : c.entries.get (toLex (m, sk)) = some e)
    (h : Closing c e.orderIndex st c') : Swept m c c' := by
  obtain ⟨⟨o₀, hrests⟩, -⟩ := hc.entry m sk e he
  -- the order rests, so its trigger is not what was removed
  have hsame : ∀ o, c.orders.get e.orderIndex = some o → o = o₀ := by
    intro o ho
    rw [hrests.order, Option.some_inj] at ho
    exact ho.symm
  cases h with
  | untouched => exact Swept.refl m c
  | dropped o ho hst =>
    obtain rfl := hsame o ho
    rw [hrests.market]
    exact hc.swept_dropOrder he
  | closed o ho hst =>
    obtain rfl := hsame o ho
    have hdrop := hc.swept_dropOrder he
    rw [← hrests.market] at hdrop ⊢
    exact hdrop.put (hrests.market ▸ he) ho o.remainingBaseAmount st
  | unparked o ho hst =>
    obtain rfl := hsame o ho
    exact absurd hst (status_ne_pending hrests.status)
  | cancelled o ho hst =>
    obtain rfl := hsame o ho
    exact absurd hst (status_ne_pending hrests.status)

theorem Inv.swept_shrink (he : c.entries.get (toLex (m, sk)) = some e)
    (ho : c.orders.get e.orderIndex = some o) (r : ℕ) (st : OrderStatus) :
    Swept m c ((c.setEntry m sk { e with remainingBaseAmount := r }).put
      { o with remainingBaseAmount := r, status := st }) := by
  have hentry : Swept m c (c.setEntry m sk { e with remainingBaseAmount := r }) :=
    { entry := by
        intro k e' he'
        simp only [Core.setEntry, KVStore.get_set] at he'
        split at he'
        · rename_i hk
          exact ⟨e, r, hk ▸ he, (Option.some_inj.mp he').symm⟩
        · exact ⟨e', e'.remainingBaseAmount, he', rfl⟩
      other := by
        intro k hk
        refine KVStore.get_set_ne _ _ ?_
        rintro rfl
        exact hk rfl
      order := fun i => Or.inl rfl
      triggers := rfl
      nextIndex := rfl
      nonces := rfl }
  exact hentry.put he ho r st

end Core

end PerpDex
