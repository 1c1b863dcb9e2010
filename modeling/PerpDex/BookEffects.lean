/-
What the functions of the order book do to its core, outcome by outcome.

A hook goes on after an error, so the outcome of a failed call matters as much as that of a successful
one.  Functions that only run inside a transaction are described for success alone.
-/
import PerpDex.BookCore
import PerpDex.EngineSpec
import PerpDex.MatchingMsgs

namespace PerpDex

open Txn

variable {α : Type} {i m : ℕ} {isAsk : Bool} {o o' : Order} {msg : MsgCreateOrder}

def SameCore (s t : State) : Prop := coreOf t = coreOf s

instance : IsPreorder State SameCore where
  refl _ := rfl
  trans _ _ _ h h' := Eq.trans h' h

variable {s t : State} {u : Unit} {e : Err}

/-! ### Functions that leave the core alone -/

theorem adjustPriceLevel_core (m : ℕ) (isAsk : Bool) (price base quote : ℕ) (sign : Sign)
    (count : ℤ) : Keeps SameCore (adjustPriceLevel m isAsk price base quote sign count) :=
  Keeps.bind Keeps.read fun _ => Keeps.write fun _ => rfl

theorem bumpAccountOpenOrderCount_core (account market : ℕ) (delta : ℤ) :
    Keeps SameCore (bumpAccountOpenOrderCount account market delta) :=
  Keeps.bind Keeps.read fun _ => Keeps.bind Keeps.require fun _ =>
    Keeps.bind Keeps.require fun _ => Keeps.write fun _ => rfl

theorem indexOpenOrder_core (o : Order) : Keeps SameCore (indexOpenOrder o) := by
  refine Keeps.bind (Keeps.when fun _ => Keeps.write fun _ => rfl) fun _ => Keeps.bind ?_ fun _ =>
    Keeps.when fun _ => Keeps.write fun _ => rfl
  exact Keeps.bind Keeps.read fun _ => Keeps.bind (Keeps.write fun _ => rfl) fun _ =>
    Keeps.when fun _ => bumpAccountOpenOrderCount_core _ _ _

theorem unindexAccountOpenOrder_core (o : Order) : Keeps SameCore (unindexAccountOpenOrder o) :=
  Keeps.bind Keeps.read fun _ => Keeps.bind (Keeps.write fun _ => rfl) fun _ =>
    Keeps.when fun _ => bumpAccountOpenOrderCount_core _ _ _

theorem removeExpiryIndex_core (o : Order) : Keeps SameCore (removeExpiryIndex o) :=
  Keeps.when fun _ => Keeps.write fun _ => rfl

theorem unindexOpenOrder_core (o : Order) : Keeps SameCore (unindexOpenOrder o) :=
  Keeps.bind (Keeps.when fun _ => Keeps.write fun _ => rfl) fun _ =>
    Keeps.bind (unindexAccountOpenOrder_core o) fun _ => removeExpiryIndex_core o

/-- The stores of the order book and the nonces of the markets are the same. -/
structure SameBook (s t : State) : Prop where
  book : t.book = s.book
  nonces : ∀ m, (t.market.marketDetails.get m).map (fun d => (d.askNonce, d.bidNonce))
    = (s.market.marketDetails.get m).map fun d => (d.askNonce, d.bidNonce)

instance : IsPreorder State SameBook where
  refl _ := ⟨rfl, fun _ => rfl⟩
  trans _ _ _ h h' := ⟨h'.book.trans h.book, fun m => (h'.nonces m).trans (h.nonces m)⟩

theorem SameBook.core (h : SameBook s t) : SameCore s t := by
  simp only [SameCore, coreOf, h.book, h.nonces]

theorem keepsCore {x : Tx α} (h : Keeps SameBook x) : Keeps SameCore x :=
  h.mono fun _ _ h => h.core

theorem increaseLockedBalance_book (acc asset : ℕ) (amount : ℤ) :
    Keeps SameBook (increaseLockedBalance acc asset amount) := by
  unfold increaseLockedBalance
  split
  · exact Keeps.pure
  · split
    · exact Keeps.throw
    · exact Keeps.bind Keeps.read fun _ => Keeps.bind Keeps.require fun _ =>
        Keeps.write fun _ => ⟨rfl, fun _ => rfl⟩

theorem decreaseLockedBalance_book (acc asset : ℕ) (amount : ℤ) :
    Keeps SameBook (decreaseLockedBalance acc asset amount) := by
  unfold decreaseLockedBalance
  split
  · exact Keeps.pure
  · split
    · exact Keeps.throw
    · exact Keeps.bind Keeps.read fun _ => Keeps.write fun _ => ⟨rfl, fun _ => rfl⟩

theorem withSpotLock_book {f : ℕ → ℕ → ℤ → Tx Unit}
    (hf : ∀ acc asset amount, Keeps SameBook (f acc asset amount)) (o : Order) :
    Keeps SameBook (withSpotLock f o) :=
  Keeps.bind Keeps.read fun _ => Keeps.when fun _ => hf _ _ _

theorem applySpotLockOnOpen_book (o : Order) : Keeps SameBook (applySpotLockOnOpen o) :=
  withSpotLock_book increaseLockedBalance_book o

theorem releaseSpotLockOnClose_book (o : Order) : Keeps SameBook (releaseSpotLockOnClose o) :=
  withSpotLock_book decreaseLockedBalance_book o

theorem transferAccountAssetBalance_book (src dst asset : ℕ) (amount : ℤ) (drain : Bool) :
    Keeps SameBook (transferAccountAssetBalance src dst asset amount drain) := by
  unfold transferAccountAssetBalance
  split
  · exact Keeps.pure
  · split
    · exact Keeps.throw
    · exact Keeps.bind Keeps.read fun _ => Keeps.bind Keeps.require fun _ =>
        Keeps.bind Keeps.read fun _ => Keeps.bind (Keeps.write fun _ => ⟨rfl, fun _ => rfl⟩)
          fun _ => Keeps.write fun _ => ⟨rfl, fun _ => rfl⟩

theorem spotDebit_book (shortfall : Sentinel) (drain : Bool) (src dst asset : ℕ) (amount : ℤ) :
    Keeps SameBook (spotDebit shortfall drain src dst asset amount) := by
  unfold spotDebit
  split
  · exact Keeps.throw
  · exact Keeps.mapError (transferAccountAssetBalance_book _ _ _ _ _)

theorem applySpotMatching_book (f : SpotFill) (base quote : ℕ) :
    Keeps SameBook (applySpotMatching f base quote) := by
  refine Keeps.bind ?_ fun _ => Keeps.when fun _ =>
    Keeps.bind (Keeps.when fun _ => spotDebit_book _ _ _ _ _ _) fun _ =>
      Keeps.when fun _ => spotDebit_book _ _ _ _ _ _
  unfold swapAssets
  split <;> exact Keeps.bind (spotDebit_book _ _ _ _ _ _) fun _ => spotDebit_book _ _ _ _ _ _

theorem nonces_of_details
    (h : ∀ m, (t.market.marketDetails.get m).map ({ · with openInterest := 0 })
      = (s.market.marketDetails.get m).map ({ · with openInterest := 0 })) (m : ℕ) :
    (t.market.marketDetails.get m).map (fun d => (d.askNonce, d.bidNonce))
      = (s.market.marketDetails.get m).map fun d => (d.askNonce, d.bidNonce) := by
  have hd := congrArg (Option.map fun d : MarketDetails => (d.askNonce, d.bidNonce)) (h m)
  simpa only [Option.map_map, Function.comp_def] using hd

theorem Traded.sameBook (h : Traded s t) : SameBook s t :=
  ⟨by rw [h.frame], nonces_of_details h.details⟩

theorem applyPerpsMatching_book (f : Fill) : Keeps SameBook (applyPerpsMatching f) :=
  (apply_keeps f).mono fun _ _ h => h.sameBook

/-- Nothing outside the stores of the order book differs. -/
def BookOnly (s t : State) : Prop := t = { s with book := t.book }

instance : IsPreorder State BookOnly where
  refl _ := rfl
  trans _ _ _ h h' := by
    rw [BookOnly, h', h]

theorem adjustPriceLevel_bookOnly (m : ℕ) (isAsk : Bool) (price base quote : ℕ) (sign : Sign)
    (count : ℤ) : Keeps BookOnly (adjustPriceLevel m isAsk price base quote sign count) :=
  Keeps.bind Keeps.read fun _ => Keeps.write fun _ => rfl

theorem unindexAccountOpenOrder_bookOnly (o : Order) :
    Keeps BookOnly (unindexAccountOpenOrder o) :=
  Keeps.bind Keeps.read fun _ => Keeps.bind (Keeps.write fun _ => rfl) fun _ =>
    Keeps.when fun _ => Keeps.bind Keeps.read fun _ => Keeps.bind Keeps.require fun _ =>
      Keeps.bind Keeps.require fun _ => Keeps.write fun _ => rfl

theorem fillMakerOrder_bookOnly (i base : ℕ) : Keeps BookOnly (fillMakerOrder i base) := by
  refine Keeps.bind Keeps.read fun maker => Keeps.bind ?_ fun removed =>
    Keeps.bind Keeps.require fun _ => Keeps.bind ?_ fun _ =>
      Keeps.bind (Keeps.write fun _ => rfl) fun _ => Keeps.pure
  · refine Keeps.bind Keeps.read fun found => Keeps.bind Keeps.read fun quote =>
      Keeps.bind (adjustPriceLevel_bookOnly _ _ _ _ _ _ _) fun _ => ?_
    split
    · exact Keeps.bind (Keeps.bind (Keeps.write fun _ => rfl) fun _ => Keeps.write fun _ => rfl)
        fun _ => Keeps.bind (adjustPriceLevel_bookOnly _ _ _ _ _ _ _) fun _ => Keeps.pure
    · exact Keeps.bind (Keeps.write fun _ => rfl) fun _ => Keeps.pure
  · exact Keeps.when fun _ => Keeps.bind (Keeps.when fun _ => Keeps.write fun _ => rfl) fun _ =>
      Keeps.bind (unindexAccountOpenOrder_bookOnly _) fun _ =>
        Keeps.when fun _ => Keeps.write fun _ => rfl

theorem unindexOpenOrder_bookOnly (o : Order) : Keeps BookOnly (unindexOpenOrder o) :=
  Keeps.bind (Keeps.when fun _ => Keeps.write fun _ => rfl) fun _ =>
    (unindexAccountOpenOrder_bookOnly o).bind fun _ => Keeps.when fun _ => Keeps.write fun _ => rfl

theorem removeEntry_bookOnly (m : ℕ) (isAsk : Bool) (i : ℕ) :
    Keeps BookOnly (removeEntry m isAsk i) := by
  refine Keeps.read.bind fun found => ?_
  cases found with
  | none => exact Keeps.pure
  | some found =>
    exact Keeps.bind (Keeps.bind (Keeps.write fun _ => rfl) fun _ => Keeps.write fun _ => rfl)
      fun _ => Keeps.read.bind fun _ => adjustPriceLevel_bookOnly _ _ _ _ _ _ _

theorem closeOrder_bookOnly (o : Order) (st : OrderStatus) : Keeps BookOnly (closeOrder o st) :=
  (unindexOpenOrder_bookOnly _).bind fun _ => Keeps.bind (Keeps.write fun _ => rfl) fun _ =>
    Keeps.pure

theorem insertEntry_bookOnly (m : ℕ) (isAsk : Bool) (entry : OrderBookEntry) :
    Keeps BookOnly (insertEntry m isAsk entry) :=
  Keeps.bind Keeps.read fun _ => Keeps.bind (Keeps.write fun _ => rfl) fun _ =>
    Keeps.bind (Keeps.write fun _ => rfl) fun _ => adjustPriceLevel_bookOnly _ _ _ _ _ _ _

theorem indexOpenOrder_bookOnly (o : Order) : Keeps BookOnly (indexOpenOrder o) := by
  refine Keeps.bind (Keeps.when fun _ => Keeps.write fun _ => rfl) fun _ => Keeps.bind ?_ fun _ =>
    Keeps.when fun _ => Keeps.write fun _ => rfl
  exact Keeps.bind Keeps.read fun _ => Keeps.bind (Keeps.write fun _ => rfl) fun _ =>
    Keeps.when fun _ => Keeps.bind Keeps.read fun _ => Keeps.bind Keeps.require fun _ =>
      Keeps.bind Keeps.require fun _ => Keeps.write fun _ => rfl

theorem openTriggerOrder_bookOnly (o : Order) : Keeps BookOnly (openTriggerOrder o) :=
  Keeps.bind (Keeps.write fun _ => rfl) fun _ => Keeps.bind (indexOpenOrder_bookOnly o) fun _ =>
    Keeps.write fun _ => rfl

theorem activateTrigger_bookOnly (i : ℕ) : Keeps BookOnly (activateTrigger i) :=
  Keeps.bind Keeps.read fun _ => Keeps.bind (Keeps.write fun _ => rfl) fun _ =>
    Keeps.bind (Keeps.when fun _ => Keeps.write fun _ => rfl) fun _ =>
      Keeps.bind (Keeps.write fun _ => rfl) fun _ => Keeps.pure

/-! ### Entries -/

theorem modifyBook_ok {f : BookStore → BookStore} (h : (modifyBook f).run s = .ok u t) :
    t = { s with book := f s.book } := by
  simp only [modifyBook, run_write, EStateM.Result.ok.injEq] at h
  exact h.2.symm

theorem insertEntry_ok {entry : OrderBookEntry} (h : (insertEntry m isAsk entry).run s = .ok u t) :
    coreOf t = (coreOf s).insert m (sortableKey entry.price entry.nonce isAsk) entry := by
  simp only [insertEntry, run_bind_ok, run_lift_ok] at h
  obtain ⟨quote, s₁, ⟨-, rfl⟩, _, s₂, h₂, _, s₃, h₃, h₄⟩ := h
  have hcore : coreOf t = coreOf s₃ := (adjustPriceLevel_core _ _ _ _ _ _ _).ok h₄
  rw [hcore, modifyBook_ok h₃, modifyBook_ok h₂]
  rfl

theorem insertEntry_error {entry : OrderBookEntry}
    (h : (insertEntry m isAsk entry).run s = .error e t) :
    coreOf t = coreOf s ∨
      coreOf t = (coreOf s).insert m (sortableKey entry.price entry.nonce isAsk) entry := by
  simp only [insertEntry, run_bind_error, run_lift_ok, modifyBook, run_write,
    EStateM.Result.ok.injEq, reduceCtorEq, false_or] at h
  rcases h with h | ⟨quote, s₁, ⟨-, rfl⟩, _, s₂, ⟨-, rfl⟩, _, s₃, ⟨-, rfl⟩, h₄⟩
  · left
    rw [(run_read_error.mp h).2]
  · right
    have hcore : coreOf t = coreOf _ := (adjustPriceLevel_core _ _ _ _ _ _ _).error h₄
    rw [hcore]
    rfl

theorem entryOf_eq_find (s : State) (m i : ℕ) : entryOf s m i = (coreOf s).find m i := rfl

theorem removeEntry_core (m : ℕ) (isAsk : Bool) (i : ℕ) (s : State) :
    coreOf (after (removeEntry m isAsk i) s) = (coreOf s).dropOrder m i := by
  rw [removeEntry, after_bind_read, Core.dropOrder, ← entryOf_eq_find]
  dsimp only
  rcases entryOf s m i with _ | ⟨sk, entry⟩
  · rfl
  · have hrest : Keeps SameCore (do
        let quote ← Txn.lift (checkedQuote entry.remainingBaseAmount entry.price)
        adjustPriceLevel m isAsk entry.price entry.remainingBaseAmount quote .minus (-1) :
          Tx Unit) :=
      Keeps.bind Keeps.read fun _ => adjustPriceLevel_core _ _ _ _ _ _ _
    exact hrest _

theorem shrinkEntryResidue_ok {delta : ℕ} {removed : Bool}
    (h : (shrinkEntryResidue m isAsk i delta).run s = .ok removed t) :
    ∃ sk entry, (coreOf s).find m i = some (sk, entry) ∧
      removed = decide (entry.remainingBaseAmount ≤ delta) ∧
      coreOf t = if removed then (coreOf s).drop m i sk
        else (coreOf s).setEntry m sk
          { entry with remainingBaseAmount := entry.remainingBaseAmount - delta } := by
  simp only [shrinkEntryResidue, run_bind_ok, run_read_ok] at h
  obtain ⟨⟨sk, entry⟩, s₁, ⟨hfind, rfl⟩, quote, s₂, hquote, _, s₃, hadjust, h⟩ := h
  rw [(run_lift_ok.mp hquote).2] at hadjust
  have hcore : coreOf s₃ = coreOf s₁ := (adjustPriceLevel_core _ _ _ _ _ _ _).ok hadjust
  have hfound : (coreOf s₁).find m i = some (sk, entry) := by
    rw [← entryOf_eq_find]
    rcases hentry : entryOf s₁ m i with _ | found
    · simp [hentry] at hfind
    · simp only [hentry, Except.ok.injEq] at hfind
      rw [hfind]
  refine ⟨sk, entry, hfound, ?_⟩
  have hmin : entry.remainingBaseAmount - min delta entry.remainingBaseAmount
      = entry.remainingBaseAmount - delta := by omega
  rw [hmin] at h
  split at h
  · rename_i hrest
    simp only [dropEntry, bind_assoc, run_bind_ok, run_pure_ok] at h
    obtain ⟨_, s₄, h₄, _, s₅, h₅, _, s₆, h₆, rfl, rfl⟩ := h
    have hcore' : coreOf t = coreOf s₅ := (adjustPriceLevel_core _ _ _ _ _ _ _).ok h₆
    refine ⟨(decide_eq_true (by omega)).symm, ?_⟩
    rw [if_pos rfl, hcore', modifyBook_ok h₅, modifyBook_ok h₄, ← hcore]
    rfl
  · rename_i hrest
    simp only [run_bind_ok, run_pure_ok] at h
    obtain ⟨_, s₄, h₄, rfl, rfl⟩ := h
    refine ⟨(decide_eq_false (by omega)).symm, ?_⟩
    rw [if_neg (by simp), modifyBook_ok h₄, ← hcore]
    rfl

theorem shrinkEntryResidue_error {delta : ℕ}
    (h : (shrinkEntryResidue m isAsk i delta).run s = .error e t) :
    coreOf t = coreOf s ∨
      ∃ sk entry, (coreOf s).find m i = some (sk, entry) ∧ coreOf t = (coreOf s).drop m i sk := by
  rw [shrinkEntryResidue, run_bind_error] at h
  rcases h with hread | ⟨⟨sk, entry⟩, s₁, hread, h⟩
  · exact Or.inl (by rw [(run_read_error.mp hread).2])
  obtain ⟨hfind, rfl⟩ := run_read_ok.mp hread
  rw [run_bind_error] at h
  rcases h with hquote | ⟨quote, s₂, hquote, h⟩
  · exact Or.inl (by rw [(run_read_error.mp hquote).2])
  obtain rfl := (run_lift_ok.mp hquote).2
  rw [run_bind_error] at h
  rcases h with hadjust | ⟨_, s₃, hadjust, h⟩
  · exact Or.inl ((adjustPriceLevel_core _ _ _ _ _ _ _).error hadjust)
  have hcore : coreOf s₃ = coreOf s₂ := (adjustPriceLevel_core _ _ _ _ _ _ _).ok hadjust
  split at h
  · right
    refine ⟨sk, entry, ?_, ?_⟩
    · rw [← entryOf_eq_find]
      rcases hentry : entryOf s₂ m i with _ | found
      · simp [hentry] at hfind
      · simp only [hentry, Except.ok.injEq] at hfind
        rw [hfind]
    · -- the two writes succeed, so the count of the price is what fails
      rw [dropEntry, bind_assoc] at h
      simp only [modifyBook, run_bind_write] at h
      rw [run_bind_error] at h
      rcases h with hcount | ⟨_, s₄, -, hret⟩
      · have hlast := (adjustPriceLevel_core _ _ _ _ _ _ _).error hcount
        rw [SameCore] at hlast
        rw [hlast, ← hcore]
        rfl
      · simp [EStateM.run_pure] at hret
  · simp only [modifyBook, run_bind_write, EStateM.run_pure, reduceCtorEq] at h

/-! ### Life cycle -/

theorem setOrder_ok (h : (setOrder o).run s = .ok u t) :
    coreOf t = (coreOf s).put o := by
  rw [modifyBook_ok h]
  rfl

theorem openOrder_ok (h : (openOrder o).run s = .ok u t) :
    coreOf t = if o.status.isResting
      then ((coreOf s).insert o.marketIndex o.sortKey o.toEntry).put o
      else (coreOf s).put o := by
  unfold openOrder at h
  split at h
  · rename_i hst
    simp only [run_bind_ok] at h
    obtain ⟨_, s₁, h₁, _, s₂, h₂, _, s₃, h₃, h₄⟩ := h
    have hlock : coreOf s₁ = coreOf s := ((applySpotLockOnOpen_book o).ok h₁).core
    have hindex : coreOf s₃ = coreOf s₂ := (indexOpenOrder_core o).ok h₃
    rw [if_pos hst, setOrder_ok h₄, hindex, insertEntry_ok h₂, hlock]
    rfl
  · rename_i hst
    simp only [run_bind_ok] at h
    obtain ⟨_, s₁, h₁, h₂⟩ := h
    have hindex : coreOf s₁ = coreOf s := (unindexOpenOrder_core o).ok h₁
    rw [if_neg hst, setOrder_ok h₂, hindex]

theorem openOrder_error (h : (openOrder o).run s = .error e t) :
    coreOf t = coreOf s ∨ coreOf t = (coreOf s).insert o.marketIndex o.sortKey o.toEntry := by
  unfold openOrder at h
  split at h
  · simp only [run_bind_error] at h
    rcases h with h₁ | ⟨_, s₁, h₁, h₂ | ⟨_, s₂, h₂, h₃ | ⟨_, s₃, h₃, h₄⟩⟩⟩
    · exact Or.inl (((applySpotLockOnOpen_book o).error h₁).core)
    · have hlock : coreOf s₁ = coreOf s := ((applySpotLockOnOpen_book o).ok h₁).core
      rw [← hlock]
      exact insertEntry_error h₂
    · have hlock : coreOf s₁ = coreOf s := ((applySpotLockOnOpen_book o).ok h₁).core
      have hindex : coreOf t = coreOf s₂ := (indexOpenOrder_core o).error h₃
      right
      rw [hindex, insertEntry_ok h₂, hlock]
      rfl
    · simp [setOrder, modifyBook, run_write] at h₄
  · simp only [run_bind_error] at h
    rcases h with h₁ | ⟨_, s₁, h₁, h₂⟩
    · exact Or.inl ((unindexOpenOrder_core o).error h₁)
    · simp [setOrder, modifyBook, run_write] at h₂

theorem openTriggerOrder_ok (h : (openTriggerOrder o).run s = .ok u t) :
    coreOf t = ((coreOf s).put o).park (triggerKey o.marketIndex o.triggerPrice o.orderIndex) := by
  simp only [openTriggerOrder, run_bind_ok] at h
  obtain ⟨_, s₁, h₁, _, s₂, h₂, h₃⟩ := h
  have hindex : coreOf s₂ = coreOf s₁ := (indexOpenOrder_core o).ok h₂
  rw [setOrder_ok h₃, hindex, modifyBook_ok h₁]
  rfl

theorem closeOrder_ok {st : OrderStatus} (h : (closeOrder o st).run s = .ok o' t) :
    o' = { o with status := st } ∧ coreOf t = (coreOf s).put { o with status := st } := by
  simp only [closeOrder, run_bind_ok, run_pure_ok] at h
  obtain ⟨_, s₁, h₁, _, s₂, h₂, rfl, rfl⟩ := h
  have hindex : coreOf s₁ = coreOf s := (unindexOpenOrder_core _).ok h₁
  rw [setOrder_ok h₂, hindex]
  exact ⟨rfl, rfl⟩

theorem closeOrder_error {st : OrderStatus}
    (h : (closeOrder o st).run s = .error e t) : coreOf t = coreOf s := by
  simp only [closeOrder, run_bind_error, setOrder, modifyBook, run_write, reduceCtorEq,
    EStateM.run_pure, and_false, exists_false, or_false] at h
  exact (unindexOpenOrder_core _).error h

theorem detach_close_outcome (o : Order) (st : OrderStatus) (s : State) :
    let c' := coreOf (after (do
      removeEntry o.marketIndex o.isAsk o.orderIndex
      releaseSpotLockOnClose o
      closeOrder o st) s)
    c' = (coreOf s).dropOrder o.marketIndex o.orderIndex ∨
      c' = ((coreOf s).dropOrder o.marketIndex o.orderIndex).put { o with status := st } := by
  have hremove := removeEntry_core o.marketIndex o.isAsk o.orderIndex s
  refine after_bind (P := fun t => coreOf t = _ ∨ coreOf t = _) ?_ ?_
  · intro _ s₁ h₁
    rw [after_of_ok h₁] at hremove
    refine after_bind (P := fun t => coreOf t = _ ∨ coreOf t = _) ?_ ?_
    · intro _ s₂ h₂
      have hlock : coreOf s₂ = coreOf s₁ := ((releaseSpotLockOnClose_book o).ok h₂).core
      rw [← hremove, ← hlock]
      cases h₃ : (closeOrder o st).run s₂ with
      | ok o' t =>
        rw [after_of_ok h₃]
        exact Or.inr (closeOrder_ok h₃).2
      | error e t =>
        rw [after_of_error h₃]
        exact Or.inl (closeOrder_error h₃)
    · intro e s₂ h₂
      have hlock : coreOf s₂ = coreOf s₁ := ((releaseSpotLockOnClose_book o).error h₂).core
      exact Or.inl (hlock.trans hremove)
  · intro e s₁ h₁
    rw [after_of_error h₁] at hremove
    exact Or.inl hremove

theorem getOrder_eq_ok :
    getOrder i s = .ok o ↔ (coreOf s).orders.get i = some o := by
  show _ ↔ s.book.orders.get i = some o
  unfold getOrder
  cases s.book.orders.get i with
  | none => simp
  | some o' => simp

theorem after_getOrder {f : Order → Tx α} (ho : (coreOf s).orders.get i = some o) :
    after (Txn.read (getOrder i) >>= f) s = after (f o) s := by
  rw [after, run_bind_read, getOrder_eq_ok.mpr ho]
  rfl

theorem after_getOrder_none {f : Order → Tx α}
    (ho : (coreOf s).orders.get i = none) : after (Txn.read (getOrder i) >>= f) s = s := by
  have hnone : s.book.orders.get i = none := ho
  rw [after, run_bind_read, getOrder, hnone]

theorem evictMakerOrder_outcome (st : OrderStatus) (ho : (coreOf s).orders.get i = some o) :
    let c' := coreOf (after (evictMakerOrder i st) s)
    c' = (coreOf s).dropOrder o.marketIndex i ∨
      c' = ((coreOf s).dropOrder o.marketIndex i).put { o with status := st } := by
  obtain rfl : o.orderIndex = i := Table.key_of_get ho
  rw [evictMakerOrder, after_getOrder ho]
  exact detach_close_outcome o st s

theorem cancelOrder_resting (ho : (coreOf s).orders.get i = some o)
    (hst : o.status.isResting = true) (hrem : o.remainingBaseAmount ≠ 0) :
    let c' := coreOf (after (cancelOrder i) s)
    c' = (coreOf s).dropOrder o.marketIndex i ∨
      c' = ((coreOf s).dropOrder o.marketIndex i).put { o with status := .cancelled } := by
  have hidx : o.orderIndex = i := Table.key_of_get ho
  have hsplit : after (cancelOrder i) s = after (do
      removeEntry o.marketIndex o.isAsk o.orderIndex
      releaseSpotLockOnClose o
      closeOrder o .cancelled) s := by
    rw [cancelOrder, after_getOrder ho, detachOrder, if_pos hst, Txn.require, if_pos hrem]
    simp only [pure_bind, bind_assoc]
  rw [hsplit, ← hidx]
  exact detach_close_outcome o .cancelled s

theorem cancelOrder_pending (ho : (coreOf s).orders.get i = some o)
    (hst : o.status = .triggeredPending) :
    (coreOf s).Closing i .cancelled (coreOf (after (cancelOrder i) s)) := by
  have hidx : o.orderIndex = i := Table.key_of_get ho
  have hresting : ¬ o.status.isResting = true := by
    rw [hst]
    decide
  rw [cancelOrder, after_getOrder ho, detachOrder, if_neg hresting, if_pos hst]
  set s₁ : State := after (removeTrigger o.marketIndex o.triggerPrice o.orderIndex) s with hs₁
  have hcore : coreOf s₁
      = (coreOf s).unpark (triggerKey o.marketIndex o.triggerPrice i) := by
    rw [← hidx]
    rfl
  show Core.Closing _ i .cancelled (coreOf (after (closeOrder o .cancelled) s₁))
  cases h : (closeOrder o .cancelled).run s₁ with
  | ok o' t =>
    rw [after_of_ok h, (closeOrder_ok h).2, hcore]
    exact .cancelled o ho hst
  | error e t =>
    rw [after_of_error h, closeOrder_error h, hcore]
    exact .unparked o ho hst

/-- **Cancellation closes the order or comes part of the way.** -/
theorem cancelOrder_outcome (i : ℕ) (s : State) :
    (coreOf s).Closing i .cancelled (coreOf (after (cancelOrder i) s)) := by
  rcases ho : (coreOf s).orders.get i with _ | o
  · rw [cancelOrder, after_getOrder_none ho]
    exact .untouched
  · by_cases hst : o.status.isResting = true
    · by_cases hrem : o.remainingBaseAmount = 0
      · have hsame : after (cancelOrder i) s = s := by
          rw [cancelOrder, after_getOrder ho, detachOrder, if_pos hst, Txn.require,
            if_neg (not_not.mpr hrem)]
          rfl
        rw [hsame]
        exact .untouched
      · exact .of_resting ho hst (cancelOrder_resting ho hst hrem)
    · by_cases hpending : o.status = .triggeredPending
      · exact cancelOrder_pending ho hpending
      · have hsame : after (cancelOrder i) s = s := by
          rw [cancelOrder, after_getOrder ho, detachOrder, if_neg hst, if_neg hpending]
          rfl
        rw [hsame]
        exact .untouched

theorem fillMakerOrder_ok {b : ℕ} (h : (fillMakerOrder i b).run s = .ok o' t) :
    ∃ o sk entry, (coreOf s).orders.get i = some o ∧
      (coreOf s).find o.marketIndex i = some (sk, entry) ∧
      (entry.remainingBaseAmount ≤ min b o.remainingBaseAmount ↔ o.remainingBaseAmount ≤ b) ∧
      coreOf t = if o.remainingBaseAmount ≤ b
        then ((coreOf s).drop o.marketIndex i sk).put
          { o with remainingBaseAmount := 0, status := .filled }
        else ((coreOf s).setEntry o.marketIndex sk
            { entry with remainingBaseAmount := entry.remainingBaseAmount - b }).put
          { o with remainingBaseAmount := o.remainingBaseAmount - b, status := .partiallyFilled } := by
  simp only [fillMakerOrder, run_bind_ok, run_read_ok, run_require_ok, run_pure_ok] at h
  obtain ⟨o, s₁, ⟨ho, rfl⟩, removed, s₂, hshrink, _, s₃, ⟨hdrained, rfl⟩, _, s₄, hindex, _, s₅,
    hset, rfl, rfl⟩ := h
  obtain ⟨sk, entry, hfind, hremoved, hcore⟩ := shrinkEntryResidue_ok hshrink
  refine ⟨o, sk, entry, getOrder_eq_ok.mp ho, hfind, ?_⟩
  have hsame : coreOf s₄ = coreOf s₃ := by
    refine Keeps.ok (R := SameCore) ?_ hindex
    exact Keeps.when fun _ => Keeps.bind (Keeps.when fun _ => Keeps.write fun _ => rfl) fun _ =>
      Keeps.bind (unindexAccountOpenOrder_core _) fun _ => removeExpiryIndex_core _
  have hiff : entry.remainingBaseAmount ≤ min b o.remainingBaseAmount
      ↔ o.remainingBaseAmount ≤ b := by
    rw [hremoved] at hdrained
    have hdrained := decide_eq_decide.mp hdrained
    simp only [applyOrderResidue] at hdrained
    omega
  refine ⟨hiff, ?_⟩
  rw [setOrder_ok hset, hsame, hcore]
  by_cases hle : o.remainingBaseAmount ≤ b
  · have hzero : o.remainingBaseAmount - min (min b o.remainingBaseAmount) o.remainingBaseAmount
        = 0 := by omega
    rw [if_pos hle, hremoved, if_pos (decide_eq_true (hiff.mpr hle))]
    simp only [applyOrderResidue, hzero, if_true]
  · have hmin : min b o.remainingBaseAmount = b := by omega
    have hne : ¬ o.remainingBaseAmount - b = 0 := by omega
    rw [if_neg hle, hremoved, if_neg (by simpa using mt hiff.mp hle)]
    simp only [applyOrderResidue, hmin, hne, if_false]

theorem activateTrigger_ok (h : (activateTrigger i).run s = .ok o' t) :
    ∃ o, (coreOf s).orders.get i = some o ∧ o' = { o with status := .opened } ∧
      coreOf t = ((coreOf s).unpark (triggerKey o.marketIndex o.triggerPrice i)).put o' := by
  simp only [activateTrigger, run_bind_ok, run_read_ok, run_pure_ok] at h
  obtain ⟨o, s₁, ⟨ho, rfl⟩, _, s₂, h₂, _, s₃, h₃, _, s₄, h₄, rfl, rfl⟩ := h
  have ho := getOrder_eq_ok.mp ho
  have hidx : o.orderIndex = i := Table.key_of_get ho
  have hsame : coreOf s₃ = coreOf s₂ := (removeExpiryIndex_core _).ok h₃
  refine ⟨o, ho, rfl, ?_⟩
  rw [setOrder_ok h₄, hsame, modifyBook_ok h₂, ← hidx]
  rfl

theorem activateTrigger_error (h : (activateTrigger i).run s = .error e t) : t = s := by
  simp only [activateTrigger, run_bind_error, run_read_error] at h
  rcases h with h | ⟨o, s₁, -, h⟩
  · exact h.2
  · -- past the read there are only writes
    simp only [removeTrigger, modifyBook, run_write, removeExpiryIndex, run_when, setOrder,
      EStateM.run_pure, reduceCtorEq, and_false, exists_false, or_false, false_or] at h
    obtain ⟨_, s₂, -, h⟩ := h
    split at h <;> simp at h

/-! ### New orders -/

/-- The nonces of a market after one was handed out. -/
def nextNonces (isAsk : Bool) (next : ℤ × ℤ) : ℤ × ℤ :=
  if isAsk then (next.1 + 1, next.2) else (next.1, next.2 - 1)

/-- The nonce an order on the given side gets. -/
def nonceFor (isAsk : Bool) (next : ℤ × ℤ) : ℤ := if isAsk then next.1 else next.2

theorem allocateNonce_ok {n : ℤ} (h : (allocateNonce m isAsk).run s = .ok n t) :
    ∃ next, (coreOf s).nonces m = some next ∧ n = nonceFor isAsk next ∧
      (nextNonces isAsk next).1 < (nextNonces isAsk next).2 ∧
      t.book = s.book ∧ t.matchingParams = s.matchingParams ∧
      coreOf t = { coreOf s with
        nonces := Function.update (coreOf s).nonces m (some (nextNonces isAsk next)) } := by
  simp only [allocateNonce, run_bind_ok, run_read_ok, run_require_ok, setMarketDetails, run_write,
    run_pure_ok, EStateM.Result.ok.injEq] at h
  obtain ⟨d, s₁, ⟨hd, rfl⟩, _, s₂, ⟨-, rfl⟩, _, s₃, ⟨hlt, rfl⟩, _, s₄, ⟨-, rfl⟩, rfl, rfl⟩ := h
  have hd := getMarketDetails_eq_ok.mp hd
  have hidx : d.marketIndex = m := Table.key_of_get hd
  refine ⟨(d.askNonce, d.bidNonce), ?_, rfl, ?_, rfl, rfl, ?_⟩
  · simp only [coreOf, hd, Option.map_some]
  · cases isAsk <;> simp [nextNonces] at hlt ⊢ <;> omega
  · simp only [coreOf, State.putDetails, Core.mk.injEq, true_and]
    funext m'
    rw [Table.get_put, Function.update_apply]
    have hkey : (if isAsk = true then { d with askNonce := d.askNonce + 1 }
        else { d with bidNonce := d.bidNonce - 1 }).marketIndex = m := by
      cases isAsk <;> exact hidx
    rw [hkey]
    by_cases hm : m' = m
    · rw [if_pos hm, if_pos hm]
      cases isAsk <;> rfl
    · rw [if_neg hm, if_neg hm]

theorem checkMarketLimits_same (market : Market) (msg : MsgCreateOrder) :
    Keeps Eq (checkMarketLimits market msg) :=
  Keeps.bind Keeps.require fun _ => Keeps.bind Keeps.require fun _ => Keeps.require

theorem checkOpenOrders_same (market : Market) (msg : MsgCreateOrder) :
    Keeps Eq (checkOpenOrders market msg) :=
  Keeps.bind Keeps.read fun _ => Keeps.bind Keeps.require fun _ =>
    Keeps.bind Keeps.read fun _ => Keeps.require

section Handlers

variable [AddressCodec]

theorem admitOrder_same (msg : MsgCreateOrder) : Keeps Eq (admitOrder msg) :=
  Keeps.bind Keeps.read fun _ => Keeps.bind Keeps.read fun _ => Keeps.bind Keeps.require fun _ =>
    Keeps.bind Keeps.read fun _ => Keeps.bind Keeps.require fun _ =>
    Keeps.bind Keeps.read fun _ => Keeps.bind Keeps.require fun _ =>
    Keeps.bind Keeps.read fun _ => Keeps.bind (checkMarketLimits_same _ _) fun _ =>
    Keeps.bind (checkOpenOrders_same _ _) fun _ => Keeps.bind Keeps.read fun _ =>
    Keeps.bind Keeps.require fun _ => Keeps.bind Keeps.read fun _ =>
    Keeps.bind Keeps.require fun _ => Keeps.pure

/-- What an admitted message has passed. -/
structure Admissible (msg : MsgCreateOrder) (market : Market) (s : State) : Prop where
  fields : msg.checkFields = .ok ()
  stored : getMarket msg.marketIndex s = .ok market
  active : market.status = .active
  unique : hasOpenClientOrder msg.marketIndex msg.accountIndex msg.clientOrderIndex s = false
  slot : ¬ (0 < market.maxOpenOrdersPerAccount ∧ willConsumeOpenSlot msg = true ∧
    market.maxOpenOrdersPerAccount ≤ getAccountOpenOrderCount s msg.accountIndex msg.marketIndex)
  reduces : msg.reduceOnly = true →
    reducedBy (getPosition s msg.accountIndex msg.marketIndex) msg.isAsk = true

omit [AddressCodec] in
theorem checkOpenOrders_ok {market : Market} (h : (checkOpenOrders market msg).run s = .ok u t) :
    hasOpenClientOrder msg.marketIndex msg.accountIndex msg.clientOrderIndex s = false ∧
      ¬ (0 < market.maxOpenOrdersPerAccount ∧ willConsumeOpenSlot msg = true ∧
        market.maxOpenOrdersPerAccount
          ≤ getAccountOpenOrderCount s msg.accountIndex msg.marketIndex) := by
  simp only [checkOpenOrders, run_bind_ok, run_read_ok, run_require_ok] at h
  obtain ⟨has, _, ⟨hhas, rfl⟩, _, _, ⟨hunique, rfl⟩, count, _, ⟨hcount, rfl⟩, hslot, -⟩ := h
  cases hhas
  cases hcount
  exact ⟨hunique, hslot⟩

theorem admitOrder_ok {market : Market}
    (h : (admitOrder msg).run s = .ok market t) : Admissible msg market s := by
  simp only [admitOrder, run_bind_lift_ok, run_bind_read_ok, run_bind_require_ok] at h
  obtain ⟨_, hvalid, _, -, -, _, -, -, market', hmarket, hactive, _, -, h⟩ := h
  obtain ⟨_, s₁, hlimits, h⟩ := run_bind_ok.mp h
  obtain rfl : s = s₁ := (checkMarketLimits_same _ _).ok hlimits
  obtain ⟨_, s₁, hopen, h⟩ := run_bind_ok.mp h
  obtain rfl : s = s₁ := (checkOpenOrders_same _ _).ok hopen
  simp only [run_bind_read_ok, run_bind_require_ok, run_pure_ok, Except.ok.injEq] at h
  obtain ⟨_, -, -, reduces, rfl, hro, rfl, -⟩ := h
  obtain ⟨hunique, hslot⟩ := checkOpenOrders_ok hopen
  simp only [MsgCreateOrder.validateBasic, except_bind_ok] at hvalid
  obtain ⟨_, -, hfields⟩ := hvalid
  refine ⟨hfields, hmarket, hactive, hunique, hslot, fun hreduce => ?_⟩
  by_contra hfalse
  exact hro ⟨hreduce, by simpa [reduceOnlyCompatible] using hfalse⟩

theorem prepareOrder_ok {prepared : Market × Order}
    (h : (prepareOrder msg).run s = .ok prepared t) :
    Admissible msg prepared.1 s ∧
      ∃ next, (coreOf s).nonces msg.marketIndex = some next ∧
        (nextNonces msg.isAsk next).1 < (nextNonces msg.isAsk next).2 ∧
        prepared.2 = msg.toOrder (coreOf s).nextIndex (nonceFor msg.isAsk next) ∧
        coreOf t = { coreOf s with
          nextIndex := (coreOf s).nextIndex + 1
          nonces := Function.update (coreOf s).nonces msg.marketIndex
            (some (nextNonces msg.isAsk next)) } := by
  simp only [prepareOrder, allocateOrderIndex, bind_assoc, pure_bind, run_bind_ok, run_read_ok,
    run_pure_ok, modifyBook, run_write, EStateM.Result.ok.injEq] at h
  obtain ⟨market, s₁, hadmit, idx, s₂, ⟨hidx, rfl⟩, _, s₃, ⟨-, rfl⟩, n, s₄, hnonce, rfl, rfl⟩ := h
  have hsame : s = s₂ := (admitOrder_same msg).ok hadmit
  obtain ⟨next, hnext, rfl, hlt, -, -, hcore⟩ := allocateNonce_ok hnonce
  have hidx : s₂.book.nextOrderIndex = idx := Except.ok.inj hidx
  subst hsame
  refine ⟨admitOrder_ok hadmit, next, hnext, hlt, ?_, ?_⟩
  · rw [← hidx]
    rfl
  · rw [hcore, ← hidx]
    rfl

end Handlers

end PerpDex
