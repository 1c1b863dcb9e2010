/-
The matching loops of the source have no bound of their own.

Main results: `Pass.progress`, `matching_terminates`, `rejected_fill_leaves_no_trace`.

The loop is taken with an arbitrary trade that does not write the book.
-/
import PerpDex.DeskBook

namespace PerpDex

open Txn

variable {s t u v : State} {held : Option ℕ} {m : ℕ} {isAsk : Bool} {best : OrderBookEntry}

/-! ### The entries of a side -/

def sideCount (s : State) (m : ℕ) (isAsk : Bool) : ℕ :=
  (s.book.orderBookEntries.range (onSide m isAsk)).length

theorem sideCount_le_entryCount (s : State) (m : ℕ) (isAsk : Bool) :
    sideCount s m isAsk ≤ entryCount s :=
  List.length_filter_le _ _

theorem sideCount_congr (h : t.book = s.book) (m : ℕ) (isAsk : Bool) :
    sideCount t m isAsk = sideCount s m isAsk := by
  rw [sideCount, sideCount, h]

theorem sideCount_le (h : ∀ k e', t.book.orderBookEntries.get k = some e' →
    ∃ e, s.book.orderBookEntries.get k = some e) (m : ℕ) (isAsk : Bool) :
    sideCount t m isAsk ≤ sideCount s m isAsk := by
  change (t.book.orderBookEntries.restrict _).entries.length ≤
    (s.book.orderBookEntries.restrict _).entries.length
  refine KVStore.length_le_of_keys fun k e' he' => ?_
  rw [KVStore.get_restrict] at he' ⊢
  split_ifs at he' ⊢ with hside
  exact h k e' he'

theorem sideCount_lt {sk : SortKey} {e : OrderBookEntry}
    (h : ∀ k e', t.book.orderBookEntries.get k = some e' →
      ∃ e, s.book.orderBookEntries.get k = some e)
    (he : s.book.orderBookEntries.get (toLex (m, sk)) = some e)
    (hside : onSide m isAsk (toLex (m, sk)) = true)
    (hgone : t.book.orderBookEntries.get (toLex (m, sk)) = none) :
    sideCount t m isAsk < sideCount s m isAsk := by
  change (t.book.orderBookEntries.restrict _).entries.length <
    (s.book.orderBookEntries.restrict _).entries.length
  refine KVStore.length_lt_of_keys (k := toLex (m, sk)) (v := e) (fun k e' he' => ?_) ?_ ?_
  · rw [KVStore.get_restrict] at he' ⊢
    split_ifs at he' ⊢ with hside'
    exact h k e' he'
  · rw [KVStore.get_restrict, if_pos hside, he]
  · rw [KVStore.get_restrict, if_pos hside, hgone]

/-! ### The best entry leaves or shrinks -/

/-- What is left of an order; nothing of an order that is not stored. -/
def residueOf (s : State) (i : ℕ) : ℕ :=
  (s.book.orders.get i).elim 0 Order.remainingBaseAmount

theorem residueOf_congr (h : t.book = s.book) (i : ℕ) : residueOf t i = residueOf s i := by
  rw [residueOf, residueOf, h]

theorem BookRep.order_of_best (h : BookRep s held) (hbest : peekBest m isAsk s = some best) :
    ∃ sk o, (coreOf s).entries.get (toLex (m, sk)) = some best ∧
      onSide m isAsk (toLex (m, sk)) = true ∧
      (coreOf s).find m best.orderIndex = some (sk, best) ∧
      s.book.orders.get best.orderIndex = some o ∧ o.shown held = true ∧ o.marketIndex = m ∧
      o.isAsk = isAsk ∧ o.toEntry = best := by
  obtain ⟨sk, he, hside, -⟩ := peekBest_spec hbest
  obtain ⟨o, ho, hshown, hkey, rfl⟩ := h.shown_of_get he
  have hmarket : o.marketIndex = m := congrArg (fun k => (ofLex k).1) hkey
  have hpointer : (coreOf s).pointers.get (toLex (m, o.toEntry.orderIndex)) = some sk :=
    (h.consistent.pointers m o.toEntry.orderIndex sk).mpr ⟨_, he, rfl⟩
  have hfind : (coreOf s).find m o.toEntry.orderIndex = some (sk, o.toEntry) := by
    simp only [Core.find, hpointer, he, Option.bind_eq_bind, Option.bind_some, Option.pure_def]
  obtain rfl : o.sortKey = sk := congrArg (fun k => (ofLex k).2) hkey
  refine ⟨_, o, he, hside, hfind, ho, hshown, hmarket, ?_, rfl⟩
  rw [Order.sortKey, onSide_sortableKey] at hside
  exact hside.2

theorem residueOf_put {o r : Order} {taken : ℕ} (ho : s.book.orders.get r.orderIndex = some o)
    (hr : o.remainingBaseAmount = r.remainingBaseAmount + taken)
    (h : t.book.orders = s.book.orders.put r) (i : ℕ) :
    residueOf s i = residueOf t i + if i = r.orderIndex then taken else 0 := by
  rw [residueOf, residueOf, h, Table.get_put]
  split_ifs with hi
  · rw [hi, ho]
    exact hr
  · rfl

/-- **The best entry can be evicted**; the side is then shorter, and of every order there is left
what was left. -/
theorem BookRep.evict_best (h : BookRep s held) (hbest : peekBest m isAsk s = some best) :
    ∃ o t, (evictMakerOrder best.orderIndex .cancelled).run s = .ok o t ∧ BookRep t held ∧
      sideCount t m isAsk < sideCount s m isAsk ∧ ∀ i, residueOf t i = residueOf s i := by
  obtain ⟨sk, o, he, hside, hfind, ho, hshown, rfl, -, rfl⟩ := h.order_of_best hbest
  have hend : OrderStatus.cancelled.isResting = false := rfl
  obtain ⟨t, hrun, hrep⟩ := evictMakerOrder_run h ho hshown hend
  have hcore := evictMakerOrder_outcome .cancelled ho
  rw [after_of_ok hrun] at hcore
  have hentries : t.book.orderBookEntries
      = s.book.orderBookEntries.remove (toLex (o.marketIndex, sk)) := by
    have hdrop : ((coreOf s).dropOrder o.marketIndex o.orderIndex).entries
        = s.book.orderBookEntries.remove (toLex (o.marketIndex, sk)) := by
      rw [Core.dropOrder, show (coreOf s).find o.marketIndex o.orderIndex = _ from hfind]
      rfl
    rw [← hdrop]
    rcases hcore with hcore | hcore
    · exact congrArg Core.entries hcore
    · exact congrArg Core.entries hcore
  refine ⟨_, t, hrun, hrep, sideCount_lt (fun k e' he' => ?_) he hside ?_, fun i => ?_⟩
  · rw [hentries, KVStore.get_remove] at he'
    split_ifs at he'
    exact ⟨e', he'⟩
  · rw [hentries]
    exact KVStore.get_remove_self _ _
  · have hdrop := Core.dropOrder_orders (coreOf s) o.marketIndex o.orderIndex
    rcases hcore with hcore | hcore
    · have horders : t.book.orders = s.book.orders := (congrArg Core.orders hcore).trans hdrop
      rw [residueOf, residueOf, horders]
    · have hres := residueOf_put (r := { o with status := .cancelled }) ho (Nat.add_zero _).symm
        ((congrArg Core.orders hcore).trans (congrArg (Table.put · _) hdrop)) i
      simpa using hres.symm

/-- **A fill of the best entry** takes no key from the other entries, and takes its size from the
maker. -/
theorem BookRep.fill_best {base : ℕ} {o' : Order} (h : BookRep s held)
    (hbest : peekBest m isAsk s = some best) (hbase : base ≤ best.remainingBaseAmount)
    (hrun : (fillMakerOrder best.orderIndex base).run s = .ok o' t) :
    BookRep t held ∧ (∀ m' isAsk', sideCount t m' isAsk' ≤ sideCount s m' isAsk') ∧
      ∀ i, residueOf s i = residueOf t i + if i = best.orderIndex then base else 0 := by
  obtain ⟨sk, o, he, hside, hfind, ho, hshown, rfl, -, rfl⟩ := h.order_of_best hbest
  have hrep : BookRep t held := after_of_ok hrun ▸ (fillMakerOrder_rep h _ base).after
  obtain ⟨o₁, sk₁, e₁, ho₁, hfind₁, -, hcore⟩ := fillMakerOrder_ok hrun
  cases ho.symm.trans ho₁
  cases hfind.symm.trans hfind₁
  refine ⟨hrep, fun m' isAsk' => sideCount_le (fun k e' he' => ?_) m' isAsk', fun i => ?_⟩
  · have hget : (coreOf t).entries.get k = some e' := he'
    rw [hcore] at hget
    split_ifs at hget
    · simp only [Core.put, Core.drop, KVStore.get_remove] at hget
      split_ifs at hget
      exact ⟨e', hget⟩
    · simp only [Core.put, Core.setEntry, KVStore.get_set] at hget
      split_ifs at hget with hk
      · exact ⟨_, hk ▸ he⟩
      · exact ⟨e', hget⟩
  · have hle : base ≤ o.remainingBaseAmount := hbase
    by_cases hall : o.remainingBaseAmount ≤ base
    · rw [if_pos hall] at hcore
      exact residueOf_put (r := { o with remainingBaseAmount := 0, status := .filled }) ho
        (by dsimp only; omega) (congrArg Core.orders hcore) i
    · rw [if_neg hall] at hcore
      exact residueOf_put (r := { o with
        remainingBaseAmount := o.remainingBaseAmount - base, status := .partiallyFilled }) ho
        (by dsimp only; omega) (congrArg Core.orders hcore) i

/-! ### The search for a maker ends -/

section Search

variable {taker : Order} {isPerp : Bool}

/-- The search for a maker returns, with every bound past the entries of the other side, and has
only taken entries from that side. -/
def SearchEnds (taker : Order) (isPerp : Bool) (held : Option ℕ) (s : State) : Prop :=
  ∃ r t, (∀ n, sideCount s taker.marketIndex (!taker.isAsk) < n →
      (nextMaker taker isPerp n).run s = .ok r t) ∧
    BookRep t held ∧
    sideCount t taker.marketIndex (!taker.isAsk) ≤ sideCount s taker.marketIndex (!taker.isAsk) ∧
    ∀ i, residueOf t i = residueOf s i

theorem SearchEnds.stop {r : MakerSearch} (h : BookRep s held)
    (hr : ∀ n, (nextMaker taker isPerp (n + 1)).run s = .ok r s) :
    SearchEnds taker isPerp held s := by
  refine ⟨r, s, fun n hn => ?_, h, le_rfl, fun _ => rfl⟩
  obtain ⟨n, rfl⟩ := Nat.exists_eq_add_one_of_ne_zero (Nat.ne_zero_of_lt hn)
  exact hr n

theorem SearchEnds.skip {o : Order} (h : SearchEnds taker isPerp held t)
    (hevict : (evictMakerOrder best.orderIndex .cancelled).run s = .ok o t)
    (hlt : sideCount t taker.marketIndex (!taker.isAsk)
      < sideCount s taker.marketIndex (!taker.isAsk))
    (hres : ∀ i, residueOf t i = residueOf s i)
    (hstep : ∀ n, (nextMaker taker isPerp (n + 1)).run s
      = (evictMakerOrder best.orderIndex .cancelled >>= fun _ => nextMaker taker isPerp n).run s) :
    SearchEnds taker isPerp held s := by
  obtain ⟨r, u, hrun, hrep, hle, hres'⟩ := h
  refine ⟨r, u, fun n hn => ?_, hrep, hle.trans hlt.le, fun i => (hres' i).trans (hres i)⟩
  obtain ⟨n, rfl⟩ := Nat.exists_eq_add_one_of_ne_zero (Nat.ne_zero_of_lt hn)
  rw [hstep n]
  exact run_bind_ok.mpr ⟨o, t, hevict, hrun n (by omega)⟩

variable (taker isPerp) in
theorem nextMaker_ends (h : BookRep s held) : SearchEnds taker isPerp held s := by
  induction hcount : sideCount s taker.marketIndex (!taker.isAsk) using Nat.strong_induction_on
    generalizing s with
  | h c ih =>
    subst hcount
    have hskip : ∀ best, peekBest taker.marketIndex (!taker.isAsk) s = some best →
        (∀ n, (nextMaker taker isPerp (n + 1)).run s
          = (evictMakerOrder best.orderIndex .cancelled >>= fun _ =>
              nextMaker taker isPerp n).run s) → SearchEnds taker isPerp held s := by
      intro best hbest hstep
      obtain ⟨o, t, hevict, hrep, hlt, hres⟩ := h.evict_best hbest
      exact (ih _ hlt hrep rfl).skip hevict hlt hres hstep
    rcases hbest : peekBest taker.marketIndex (!taker.isAsk) s with _ | best
    · exact .stop h fun n => by rw [nextMaker_succ, hbest]
    · have hstep := fun n => nextMaker_succ taker isPerp n s
      simp only [hbest] at hstep
      split_ifs at hstep
      · exact .stop h hstep
      · exact .stop h hstep
      · exact hskip best hbest hstep
      · exact .stop h hstep
      · exact hskip best hbest hstep
      · exact .stop h hstep

theorem BookRep.search_run (h : BookRep s held) (taker : Order) (isPerp : Bool) :
    ∃ r t, (nextMaker taker isPerp (entryCount s + 1)).run s = .ok r t := by
  obtain ⟨r, t, hrun, -⟩ := nextMaker_ends taker isPerp h
  exact ⟨r, t, hrun _ (Nat.lt_succ_of_le (sideCount_le_entryCount s _ _))⟩

theorem BookRep.search {r : MakerSearch} (h : BookRep s held)
    (hrun : (nextMaker taker isPerp (entryCount s + 1)).run s = .ok r t) :
    BookRep t held ∧
      sideCount t taker.marketIndex (!taker.isAsk) ≤ sideCount s taker.marketIndex (!taker.isAsk) ∧
      ∀ i, residueOf t i = residueOf s i := by
  obtain ⟨r', t', hrun', hrep⟩ := nextMaker_ends taker isPerp h
  cases (hrun' _ (Nat.lt_succ_of_le (sideCount_le_entryCount s _ _))).symm.trans hrun
  exact hrep

end Search

/-! ### A fill attempt -/

section Attempt

variable {maker : OrderBookEntry} {base : ℕ} {trade : Tx Unit} {e : Err}

/-- What a fill writes on its cached context: the trade and the maker's order. -/
def fillWrites (maker : OrderBookEntry) (base : ℕ) (trade : Tx Unit) : Tx Unit := do
  trade
  let _ ← fillMakerOrder maker.orderIndex base

/-- **An attempt whose writes fail is classified in the state in which it began.** -/
theorem applyFill_of_error (h : (fillWrites maker base trade).run s = .error e t) :
    (applyFill maker base trade).run s =
      if e.isValue then (classifyApplyError maker.orderIndex e).run s else .error e s := by
  have hatomic : (Txn.atomic (fillWrites maker base trade)).run s = .error e s :=
    run_atomic_error.mpr ⟨rfl, t, h⟩
  split_ifs with hvalue
  · have hlogged : (logged (Txn.atomic (fillWrites maker base trade))).run s = .ok (.error e) s :=
      run_attempt_ok.mpr (Or.inr ⟨e, rfl, hvalue, hatomic⟩)
    show (logged (Txn.atomic (fillWrites maker base trade)) >>= _).run s = _
    rw [EStateM.run_bind, hlogged]
  · exact run_bind_error.mpr (Or.inl (run_attempt_error.mpr ⟨by simpa using hvalue, hatomic⟩))

theorem Err.isValue_of_recoverable
    (h : isRecoverableMakerError e = true ∨ isRecoverableTakerError e = true) :
    e.isValue = true := by
  simp only [isRecoverableMakerError, isRecoverableTakerError, Bool.or_eq_true,
    decide_eq_true_eq] at h
  simp only [Err.isValue, Bool.and_eq_true, decide_eq_true_eq]
  rcases h with (((h | h) | h) | h) | (((h | h) | h) | h) <;> simp [h]

/-- The same by the side at fault: a maker at fault is evicted, and otherwise the attempt has no
effect. -/
theorem applyFill_error_run (h : (fillWrites maker base trade).run s = .error e t) :
    (applyFill maker base trade).run s =
      if isRecoverableMakerError e then
        (evictMakerOrder maker.orderIndex .cancelled >>= fun _ => pure .makerEvicted).run s
      else if isRecoverableTakerError e then .ok .takerRejected s
      else .error e s := by
  rw [applyFill_of_error h, classifyApplyError]
  split_ifs with hvalue hmaker htaker hmaker htaker
  · rfl
  · rfl
  · rfl
  · exact absurd (Err.isValue_of_recoverable (Or.inl hmaker)) hvalue
  · exact absurd (Err.isValue_of_recoverable (Or.inr htaker)) hvalue
  · rfl

/-- Nothing of a trade is in the book, and no market disappears by it. -/
def LeavesBook (trade : Tx Unit) : Prop :=
  ∀ s t, trade.run s = .ok () t → t.book = s.book ∧ MarketsStay s t

theorem peekBest_congr (h : t.book = s.book) : peekBest m isAsk t = peekBest m isAsk s := by
  rw [peekBest, peekBest, h]

/-- **A committed fill** takes its size from the maker and from no other order. -/
theorem BookRep.committed (h : BookRep s held) (hbest : peekBest m isAsk s = some maker)
    (hbase : base ≤ maker.remainingBaseAmount) (htrade : LeavesBook trade)
    (hrun : (applyFill maker base trade).run s = .ok .committed t) :
    BookRep t held ∧ (∀ m' isAsk', sideCount t m' isAsk' ≤ sideCount s m' isAsk') ∧
      ∀ i, residueOf s i = residueOf t i + if i = maker.orderIndex then base else 0 := by
  obtain ⟨u, o, htraded, hfilled⟩ := applyFill_committed hrun
  obtain ⟨hbook, hmarkets⟩ := htrade s u htraded
  have hfill := (h.outside hbook hmarkets).fill_best ((peekBest_congr hbook).trans hbest) hbase hfilled
  refine ⟨hfill.1, fun m' isAsk' => ?_, fun i => ?_⟩
  · rw [← sideCount_congr hbook]
    exact hfill.2.1 m' isAsk'
  · rw [← residueOf_congr hbook]
    exact hfill.2.2 i

theorem BookRep.evicted (h : BookRep s held) (hbest : peekBest m isAsk s = some maker)
    (hrun : (applyFill maker base trade).run s = .ok .makerEvicted t) :
    BookRep t held ∧ sideCount t m isAsk < sideCount s m isAsk ∧
      ∀ i, residueOf t i = residueOf s i := by
  obtain ⟨o, u, hevict, hrest⟩ := h.evict_best hbest
  rw [applyFill_evicted hrun, after_of_ok hevict]
  exact hrest

theorem applyFill_rejected (h : (applyFill maker base trade).run s = .ok .takerRejected t) :
    t = s := by
  cases hwrites : (fillWrites maker base trade).run s with
  | ok u v =>
    obtain ⟨_, w, htrade, hrest⟩ := run_bind_ok.mp hwrites
    obtain ⟨o, w', hfill, -⟩ := run_bind_ok.mp hrest
    cases (applyFill_of_ok htrade hfill).symm.trans h
  | error e v =>
    rw [applyFill_error_run hwrites] at h
    split_ifs at h
    · obtain ⟨_, _, -, hpure⟩ := run_bind_ok.mp h
      exact absurd (run_pure_ok.mp hpure).1 (by simp)
    · exact (EStateM.Result.ok.inj h).2.symm

end Attempt

/-! ### The loop -/

section Loop

variable {isPerp : Bool} {attempt : Order → OrderBookEntry → ℕ → Tx FillOutcome} {goOn : Tx Bool}
  {trade : Order → OrderBookEntry → ℕ → Tx Unit} {x y : SweepState} {total : ℕ}

/-- A loop whose fills are made of a trade that leaves the book alone. -/
structure TradeLoop (attempt : Order → OrderBookEntry → ℕ → Tx FillOutcome) (goOn : Tx Bool)
    (trade : Order → OrderBookEntry → ℕ → Tx Unit) : Prop where
  attempt_eq : ∀ taker maker base,
    attempt taker maker base = applyFill maker base (trade taker maker base)
  leavesBook : ∀ taker maker base, LeavesBook (trade taker maker base)
  goOn_same : Keeps Eq goOn

/-- The entries on the side from which the loop takes its makers. -/
def SweepState.makers (x : SweepState) : ℕ := sideCount x.state x.taker.marketIndex (!x.taker.isAsk)

/-- A pass that went on got somewhere: a fill of positive size was committed, or there are fewer
makers. -/
def SweepState.Progress (x y : SweepState) : Prop :=
  (∃ base, 0 < base ∧ base ≤ x.taker.remainingBaseAmount ∧
      y.taker = { x.taker with remainingBaseAmount := x.taker.remainingBaseAmount - base } ∧
      x.fillsLeft = y.fillsLeft + 1 ∧ y.makers ≤ x.makers) ∨
    (y.taker = x.taker ∧ y.fillsLeft = x.fillsLeft ∧ y.makers < x.makers)

theorem Attempts.rep {maker : OrderBookEntry} {base : ℕ} (ha : Attempts isPerp x u maker base)
    (h : BookRep x.state held) :
    BookRep u held ∧ sideCount u x.taker.marketIndex (!x.taker.isAsk) ≤ x.makers ∧
      (∀ i, residueOf u i = residueOf x.state i) ∧
      peekBest x.taker.marketIndex (!x.taker.isAsk) u = some maker ∧
      base ≤ maker.remainingBaseAmount := by
  obtain ⟨hrep, hcount, hres⟩ := h.search ha.search
  exact ⟨hrep, hcount, hres, (nextMaker_found ha.search).best, (matchSize_some ha.size).2.2.1⟩

/-- **A pass keeps the book consistent, and makes progress.** -/
theorem Pass.progress (hloop : TradeLoop attempt goOn trade) (hpass : Pass isPerp attempt goOn x y)
    (h : BookRep x.state held) : BookRep y.state held ∧ x.Progress y := by
  cases hpass with
  | @evicted u v maker base ha hrun =>
    obtain ⟨hrep, hcount, -, hbest, -⟩ := ha.rep h
    rw [hloop.attempt_eq] at hrun
    obtain ⟨hrep', hlt, -⟩ := hrep.evicted hbest hrun
    exact ⟨hrep', Or.inr ⟨rfl, rfl, hlt.trans_le hcount⟩⟩
  | @committed u v w maker base ha hrun hgo =>
    obtain ⟨hrep, hcount, -, hbest, hbase⟩ := ha.rep h
    rw [hloop.attempt_eq] at hrun
    obtain ⟨hrep', hle, -⟩ := hrep.committed hbest hbase (hloop.leavesBook _ _ _) hrun
    obtain rfl : v = w := hloop.goOn_same.ok hgo
    obtain ⟨hne, htaker, -⟩ := matchSize_some ha.size
    refine ⟨hrep', Or.inl ⟨base, Nat.pos_of_ne_zero hne, htaker, rfl, ?_, ?_⟩⟩
    · have hleft := ha.fillsLeft
      dsimp only
      omega
    · exact (hle _ _).trans hcount

theorem rep_of_passes (hloop : TradeLoop attempt goOn trade) (h : BookRep x.state held)
    (hpasses : Relation.ReflTransGen (Pass isPerp attempt goOn) x y) : BookRep y.state held := by
  induction hpasses with
  | refl => exact h
  | tail _ hpass ih => exact (hpass.progress hloop ih).1

theorem SweepState.Progress.lt (h : x.Progress y) :
    y.fillsLeft + y.makers < x.fillsLeft + x.makers := by
  rcases h with ⟨base, -, -, -, hleft, hmakers⟩ | ⟨-, hleft, hmakers⟩
  · omega
  · omega

theorem passes_acc (hloop : TradeLoop attempt goOn trade) (h : BookRep x.state held) :
    Acc (fun y x => Pass isPerp attempt goOn x y) x := by
  induction hn : x.fillsLeft + x.makers using Nat.strong_induction_on generalizing x with
  | h n ih =>
    subst hn
    refine Acc.intro x fun y hpass => ?_
    obtain ⟨hrep, hprogress⟩ := hpass.progress hloop h
    exact ih _ hprogress.lt hrep rfl

/-- Why the loop ends when the search found no maker. -/
def MakerSearch.ending : MakerSearch → Option SweepEnd
  | .found _ => none
  | .emptyBook => some .emptyBook
  | .unreachable => some .unreachable
  | .selfTrade => some .selfTrade
  | .reduceOnly => some .reduceOnly

/-- The pass that begins at `x`, with `total` filled before it, ends the loop with a result. -/
inductive Returns (isPerp : Bool) (attempt : Order → OrderBookEntry → ℕ → Tx FillOutcome)
    (goOn : Tx Bool) (x : SweepState) (total : ℕ) : EStateM.Result Err State SweepResult → Prop
  | drained (h : x.taker.remainingBaseAmount = 0) :
      Returns isPerp attempt goOn x total (.ok ⟨x.taker, total, .drained⟩ x.state)
  | fillCap (hrem : x.taker.remainingBaseAmount ≠ 0) (h : x.fillsLeft = 0) :
      Returns isPerp attempt goOn x total (.ok ⟨x.taker, total, .fillCap⟩ x.state)
  | noMaker {search : MakerSearch} {ended : SweepEnd} {u : State}
      (hrem : x.taker.remainingBaseAmount ≠ 0) (hleft : x.fillsLeft ≠ 0)
      (h : (nextMaker x.taker isPerp (entryCount x.state + 1)).run x.state = .ok search u)
      (hsearch : search.ending = some ended) :
      Returns isPerp attempt goOn x total (.ok ⟨x.taker, total, ended⟩ u)
  | noSize {maker : OrderBookEntry} {u : State} (hrem : x.taker.remainingBaseAmount ≠ 0)
      (hleft : x.fillsLeft ≠ 0)
      (h : (nextMaker x.taker isPerp (entryCount x.state + 1)).run x.state = .ok (.found maker) u)
      (hsize : (matchSize x.taker maker isPerp).run u = .ok none u) :
      Returns isPerp attempt goOn x total (.ok ⟨x.taker, total, .sizeZero⟩ u)
  | sizeFailed {maker : OrderBookEntry} {u : State} {e : Err}
      (h : (nextMaker x.taker isPerp (entryCount x.state + 1)).run x.state = .ok (.found maker) u)
      (hsize : (matchSize x.taker maker isPerp).run u = .error e u) :
      Returns isPerp attempt goOn x total (.error e u)
  | rejected {maker : OrderBookEntry} {base : ℕ} {u v : State} (ha : Attempts isPerp x u maker base)
      (h : (attempt x.taker maker base).run u = .ok .takerRejected v) :
      Returns isPerp attempt goOn x total (.ok ⟨x.taker, total, .takerRejected⟩ v)
  | failed {maker : OrderBookEntry} {base : ℕ} {u v : State} {e : Err}
      (ha : Attempts isPerp x u maker base) (h : (attempt x.taker maker base).run u = .error e v) :
      Returns isPerp attempt goOn x total (.error e v)
  | recovered {maker : OrderBookEntry} {base : ℕ} {u v w : State}
      (ha : Attempts isPerp x u maker base)
      (h : (attempt x.taker maker base).run u = .ok .committed v) (hgo : goOn.run v = .ok false w) :
      Returns isPerp attempt goOn x total (.ok
        ⟨{ x.taker with remainingBaseAmount := x.taker.remainingBaseAmount - base }, total + base,
          .recovered⟩ w)
  | unsure {maker : OrderBookEntry} {base : ℕ} {u v w : State} {e : Err}
      (ha : Attempts isPerp x u maker base)
      (h : (attempt x.taker maker base).run u = .ok .committed v) (hgo : goOn.run v = .error e w) :
      Returns isPerp attempt goOn x total (.error e w)

/-- A fill that a loop commits: its orders, its size, and the states before and after it. -/
structure LoopFill where
  taker : Order
  maker : OrderBookEntry
  base : ℕ
  before : State
  after : State

def filledBy (fills : List LoopFill) : ℕ := (fills.map LoopFill.base).sum

/-- Passes that lead from one place to another, with the fills they commit. -/
inductive Trace (isPerp : Bool) (attempt : Order → OrderBookEntry → ℕ → Tx FillOutcome)
    (goOn : Tx Bool) : SweepState → List LoopFill → SweepState → Prop
  | nil {x : SweepState} : Trace isPerp attempt goOn x [] x
  | evicted {x y : SweepState} {u v : State} {maker : OrderBookEntry} {base : ℕ}
      {fills : List LoopFill} (ha : Attempts isPerp x u maker base)
      (h : (attempt x.taker maker base).run u = .ok .makerEvicted v)
      (rest : Trace isPerp attempt goOn ⟨x.taker, x.fillsLeft, v⟩ fills y) :
      Trace isPerp attempt goOn x fills y
  | committed {x y : SweepState} {u v w : State} {maker : OrderBookEntry} {base : ℕ}
      {fills : List LoopFill} (ha : Attempts isPerp x u maker base)
      (h : (attempt x.taker maker base).run u = .ok .committed v) (hgo : goOn.run v = .ok true w)
      (rest : Trace isPerp attempt goOn
        ⟨{ x.taker with remainingBaseAmount := x.taker.remainingBaseAmount - base },
          x.fillsLeft - 1, w⟩ fills y) :
      Trace isPerp attempt goOn x (⟨x.taker, maker, base, u, v⟩ :: fills) y

theorem Trace.passes {fills : List LoopFill} (h : Trace isPerp attempt goOn x fills y) :
    Relation.ReflTransGen (Pass isPerp attempt goOn) x y := by
  induction h with
  | nil => exact .refl
  | evicted ha h _ ih => exact .head (.evicted ha h) ih
  | committed ha h hgo _ ih => exact .head (.committed ha h hgo) ih

/-- A loop without a bound that begins at `x` ends with a result: that of a pass which returns, after
passes that go on. -/
def LoopEnds (isPerp : Bool) (attempt : Order → OrderBookEntry → ℕ → Tx FillOutcome)
    (goOn : Tx Bool) (x : SweepState) (total : ℕ)
    (res : EStateM.Result Err State SweepResult) : Prop :=
  ∃ fills y, Trace isPerp attempt goOn x fills y ∧
    Returns isPerp attempt goOn y (total + filledBy fills) res

namespace LoopEnds

variable {res : EStateM.Result Err State SweepResult} {maker : OrderBookEntry} {base : ℕ}

theorem now (h : Returns isPerp attempt goOn x total res) :
    LoopEnds isPerp attempt goOn x total res := ⟨[], x, .nil, h⟩

theorem evicted (ha : Attempts isPerp x u maker base)
    (h : (attempt x.taker maker base).run u = .ok .makerEvicted v)
    (hrest : LoopEnds isPerp attempt goOn ⟨x.taker, x.fillsLeft, v⟩ total res) :
    LoopEnds isPerp attempt goOn x total res := by
  obtain ⟨fills, y, htrace, hret⟩ := hrest
  exact ⟨fills, y, .evicted ha h htrace, hret⟩

theorem committed {w : State} (ha : Attempts isPerp x u maker base)
    (h : (attempt x.taker maker base).run u = .ok .committed v) (hgo : goOn.run v = .ok true w)
    (hrest : LoopEnds isPerp attempt goOn
      ⟨{ x.taker with remainingBaseAmount := x.taker.remainingBaseAmount - base },
        x.fillsLeft - 1, w⟩ (total + base) res) :
    LoopEnds isPerp attempt goOn x total res := by
  obtain ⟨fills, y, htrace, hret⟩ := hrest
  refine ⟨_, y, .committed ha h hgo htrace, ?_⟩
  rw [filledBy, List.map_cons, List.sum_cons, ← Nat.add_assoc]
  exact hret

end LoopEnds

theorem sweep_ends (hloop : TradeLoop attempt goOn trade) {fuel left : ℕ} {taker : Order}
    (h : BookRep s held) (hfuel : left + sideCount s taker.marketIndex (!taker.isAsk) < fuel) :
    LoopEnds isPerp attempt goOn ⟨taker, left, s⟩ total
      ((sweep isPerp attempt goOn fuel taker total left).run s) := by
  induction fuel generalizing taker total left s with
  | zero => omega
  | succ fuel ih =>
    -- a pass that goes on leaves enough of the bound
    have hgoes : ∀ {y : SweepState}, Pass isPerp attempt goOn ⟨taker, left, s⟩ y →
        ∀ n, LoopEnds isPerp attempt goOn y n
          ((sweep isPerp attempt goOn fuel y.taker n y.fillsLeft).run y.state) := by
      intro y hpass n
      obtain ⟨hrep, hprogress⟩ := hpass.progress hloop h
      have hlt : y.fillsLeft + y.makers
          < left + sideCount s taker.marketIndex (!taker.isAsk) := hprogress.lt
      exact ih hrep (show y.fillsLeft + y.makers < fuel by omega)
    unfold sweep
    dsimp only
    split_ifs with hrem hleft
    · exact .now (.drained hrem)
    · exact .now (.fillCap hrem hleft)
    rw [run_bind_read]
    obtain ⟨search, u, hsearch⟩ := h.search_run taker isPerp
    dsimp only
    rw [EStateM.run_bind, hsearch]
    cases search with
    | emptyBook => exact .now (.noMaker hrem hleft hsearch rfl)
    | unreachable => exact .now (.noMaker hrem hleft hsearch rfl)
    | selfTrade => exact .now (.noMaker hrem hleft hsearch rfl)
    | reduceOnly => exact .now (.noMaker hrem hleft hsearch rfl)
    | found maker =>
      dsimp only
      refine run_bind_cases ?_ fun e v hsize => ?_
      swap
      · obtain rfl : u = v := (matchSize_same _ _ _).error hsize
        exact .now (.sizeFailed hsearch hsize)
      intro size v hsize
      obtain rfl : u = v := (matchSize_same _ _ _).ok hsize
      cases size with
      | none => exact .now (.noSize hrem hleft hsearch hsize)
      | some base =>
        have ha : Attempts isPerp ⟨taker, left, s⟩ u maker base := ⟨hrem, hleft, hsearch, hsize⟩
        refine run_bind_cases ?_ fun e v hrun => .now (.failed ha hrun)
        intro outcome v hrun
        cases outcome with
        | takerRejected => exact .now (.rejected ha hrun)
        | makerEvicted => exact .evicted ha hrun (hgoes (.evicted ha hrun) total)
        | committed =>
          refine run_bind_cases ?_ fun e w hgo => .now (.unsure ha hrun hgo)
          intro more w hgo
          cases more with
          | false => exact .now (.recovered ha hrun hgo)
          | true =>
            exact .committed ha hrun hgo (hgoes (.committed ha hrun hgo) (total + base))

theorem runSweep_ends (hloop : TradeLoop attempt goOn trade) (h : BookRep s held) (taker : Order)
    (maxFills : ℕ) : LoopEnds isPerp attempt goOn ⟨taker, maxFills, s⟩ 0
      ((runSweep isPerp attempt goOn taker maxFills).run s) := by
  rw [runSweep, run_bind_read]
  refine sweep_ends hloop h ?_
  have hle := sideCount_le_entryCount s taker.marketIndex (!taker.isAsk)
  omega

end Loop

/-! ### The two loops of the source -/

def liquidationTrade (zeroPrice feeBps recipient : ℕ) (taker : Order) (maker : OrderBookEntry)
    (base : ℕ) : Tx Unit :=
  applyPerpsMatching (liquidationFill taker maker base zeroPrice feeBps recipient)

theorem userLoop (market : Market) :
    TradeLoop (applyUserFill market) (pure true) (userTrade market) where
  attempt_eq := applyUserFill_eq market
  leavesBook taker maker base _ _ h :=
    ⟨((userTrade_book market taker maker base).ok h).book,
      (MarketsKeep.of_eq (userTrade_markets h)).stay⟩
  goOn_same := Keeps.pure

theorem liquidationLoop (zeroPrice feeBps recipient account m : ℕ) :
    TradeLoop (applyLiquidationFill zeroPrice feeBps recipient)
      (Txn.read (needsLiquidation account m)) (liquidationTrade zeroPrice feeBps recipient) where
  attempt_eq _ _ _ := rfl
  leavesBook _ _ _ _ _ h :=
    ⟨((applyPerpsMatching_book _).ok h).book,
      (MarketsKeep.of_eq (by rw [((apply_keeps _).ok h).frame])).stay⟩
  goOn_same := Keeps.read

theorem matchOrder_run {taker : Order} {maxFills : ℕ} {market : Market}
    (h : getMarket taker.marketIndex s = .ok market) : (matchOrder taker maxFills).run s
      = (runSweep (decide (market.marketType = .perps)) (applyUserFill market) (pure true) taker
          maxFills).run s := by
  rw [matchOrder, run_bind_read, h]

theorem matchLiquidation_run {taker : Order} {maxFills zeroPrice feeBps recipient : ℕ}
    {market : Market} (h : getMarket taker.marketIndex s = .ok market)
    (hperp : market.marketType = .perps) :
    (matchLiquidation taker maxFills zeroPrice feeBps recipient).run s
      = ((runSweep true (applyLiquidationFill zeroPrice feeBps recipient)
          (Txn.read (needsLiquidation taker.ownerAccountIndex taker.marketIndex)) taker maxFills)
        >>= fun r => pure r.totalFilled).run s := by
  rw [matchLiquidation, run_bind_read, h]
  dsimp only
  rw [Txn.require, if_pos hperp]
  rfl

/-- **Matching terminates.**  On a consistent book the search for a maker returns; a pass of any loop,
whatever becomes of its fills, commits a fill of positive size or leaves fewer makers if it does not
return; no sequence of passes goes on for ever; and what the two loops return is what the loop without
a bound ends with. -/
theorem matching_terminates (hrep : BookRep s held) (taker : Order) (maxFills : ℕ) :
    (∀ isPerp, ∃ r t, ∀ n, sideCount s taker.marketIndex (!taker.isAsk) < n →
      (nextMaker taker isPerp n).run s = .ok r t) ∧
    (∀ isPerp attempt goOn trade, TradeLoop attempt goOn trade →
      (∀ x y, Relation.ReflTransGen (Pass isPerp attempt goOn) ⟨taker, maxFills, s⟩ x →
        Pass isPerp attempt goOn x y → x.Progress y) ∧
      Acc (fun y x => Pass isPerp attempt goOn x y) ⟨taker, maxFills, s⟩ ∧
      LoopEnds isPerp attempt goOn ⟨taker, maxFills, s⟩ 0
        ((runSweep isPerp attempt goOn taker maxFills).run s)) ∧
    (∀ market, getMarket taker.marketIndex s = .ok market →
      LoopEnds (decide (market.marketType = .perps)) (applyUserFill market) (pure true)
        ⟨taker, maxFills, s⟩ 0 ((matchOrder taker maxFills).run s)) ∧
    ∀ market zeroPrice feeBps recipient, getMarket taker.marketIndex s = .ok market →
      market.marketType = .perps → ∃ res,
        LoopEnds true (applyLiquidationFill zeroPrice feeBps recipient)
          (Txn.read (needsLiquidation taker.ownerAccountIndex taker.marketIndex))
          ⟨taker, maxFills, s⟩ 0 res ∧
        (matchLiquidation taker maxFills zeroPrice feeBps recipient).run s = match res with
          | .ok r t => .ok r.totalFilled t
          | .error e t => .error e t := by
  refine ⟨fun isPerp => ?_, fun isPerp attempt goOn trade hloop => ⟨?_, ?_, ?_⟩, ?_, ?_⟩
  · obtain ⟨r, t, hrun, -⟩ := nextMaker_ends taker isPerp hrep
    exact ⟨r, t, hrun⟩
  · intro x y hreached hpass
    exact (hpass.progress hloop (rep_of_passes hloop hrep hreached)).2
  · exact passes_acc hloop hrep
  · exact runSweep_ends hloop hrep taker maxFills
  · intro market hmarket
    rw [matchOrder_run hmarket]
    exact runSweep_ends (userLoop market) hrep taker maxFills
  · intro market zeroPrice feeBps recipient hmarket hperp
    refine ⟨_, runSweep_ends (liquidationLoop _ _ _ _ _) hrep taker maxFills, ?_⟩
    rw [matchLiquidation_run hmarket hperp, EStateM.run_bind]
    cases (runSweep true (applyLiquidationFill zeroPrice feeBps recipient)
      (Txn.read (needsLiquidation taker.ownerAccountIndex taker.marketIndex)) taker maxFills).run s with
    | ok r t => rfl
    | error e t => rfl

/-- A book with one ask, and a buyer of 4. -/
theorem matching_terminates_one_ask :
    let s := after (openOrder restingAsk) emptyMarket
    sideCount s 0 true = 1 ∧
      LoopEnds true (applyUserFill { marketIndex := 0 }) (pure true)
        ⟨{ restingAsk with isAsk := false, ownerAccountIndex := 3, remainingBaseAmount := 4 }, 2, s⟩ 0
        ((matchOrder { restingAsk with
          isAsk := false, ownerAccountIndex := 3, remainingBaseAmount := 4 } 2).run s) := by
  have hrep : BookRep (after (openOrder restingAsk) emptyMarket) none :=
    restingAsk_opened.rep (.of_empty rfl)
  exact ⟨by decide +kernel, (matching_terminates hrep _ 2).2.2.1 { marketIndex := 0 } (by decide +kernel)⟩

/-! ### Fills that fail -/

/-- Every fill that a loop attempts and whose writes fail leaves the state as it found it, but for the
eviction of a maker at fault.  The loop goes on from there with the same taker, or returns: with the
fills before it if the taker is at fault, and with the error otherwise. -/
def FailsCleanly (isPerp : Bool) (attempt : Order → OrderBookEntry → ℕ → Tx FillOutcome)
    (goOn : Tx Bool) (trade : Order → OrderBookEntry → ℕ → Tx Unit) (x₀ : SweepState) : Prop :=
  ∀ x u maker base e w, Relation.ReflTransGen (Pass isPerp attempt goOn) x₀ x →
    Attempts isPerp x u maker base →
    (fillWrites maker base (trade x.taker maker base)).run u = .error e w →
    after (attempt x.taker maker base) u
        = (if isRecoverableMakerError e then after (evictMakerOrder maker.orderIndex .cancelled) u
          else u) ∧
      ∀ fuel total,
        (sweep isPerp attempt goOn (fuel + 1) x.taker total x.fillsLeft).run x.state =
          if isRecoverableMakerError e then
            (evictMakerOrder maker.orderIndex .cancelled >>= fun _ =>
              sweep isPerp attempt goOn fuel x.taker total x.fillsLeft).run u
          else if isRecoverableTakerError e then .ok ⟨x.taker, total, .takerRejected⟩ u
          else .error e u

/-- How the loop goes on after an attempt to fill `base`. -/
def resumeSweep (isPerp : Bool) (attempt : Order → OrderBookEntry → ℕ → Tx FillOutcome)
    (goOn : Tx Bool) (fuel : ℕ) (taker : Order) (total left base : ℕ) :
    FillOutcome → Tx SweepResult
  | .takerRejected => pure ⟨taker, total, .takerRejected⟩
  | .makerEvicted => sweep isPerp attempt goOn fuel taker total left
  | .committed => do
    let taker := { taker with remainingBaseAmount := taker.remainingBaseAmount - base }
    let more ← goOn
    if more then sweep isPerp attempt goOn fuel taker (total + base) (left - 1)
    else return ⟨taker, total + base, .recovered⟩

theorem Attempts.sweep_run {isPerp : Bool} {attempt : Order → OrderBookEntry → ℕ → Tx FillOutcome}
    {goOn : Tx Bool} {x : SweepState} {maker : OrderBookEntry} {base : ℕ}
    (ha : Attempts isPerp x u maker base) (fuel total : ℕ) :
    (sweep isPerp attempt goOn (fuel + 1) x.taker total x.fillsLeft).run x.state =
      (attempt x.taker maker base >>=
        resumeSweep isPerp attempt goOn fuel x.taker total x.fillsLeft base).run u := by
  rw [sweep]
  dsimp only
  rw [if_neg ha.remaining, if_neg ha.fillsLeft, run_bind_read]
  dsimp only
  rw [EStateM.run_bind, ha.search]
  dsimp only
  rw [EStateM.run_bind, ha.size]
  refine run_bind_congr fun outcome v _ => ?_
  cases outcome with
  | takerRejected => rfl
  | makerEvicted => rfl
  | committed => rfl

theorem TradeLoop.failsCleanly {isPerp : Bool}
    {attempt : Order → OrderBookEntry → ℕ → Tx FillOutcome} {goOn : Tx Bool}
    {trade : Order → OrderBookEntry → ℕ → Tx Unit} (hloop : TradeLoop attempt goOn trade)
    (x₀ : SweepState) : FailsCleanly isPerp attempt goOn trade x₀ := by
  intro x u maker base e w _ ha hwrites
  have hrun := applyFill_error_run hwrites
  rw [← hloop.attempt_eq] at hrun
  refine ⟨?_, fun fuel total => ?_⟩
  · rw [after, hrun]
    split_ifs with hmaker htaker
    · refine after_bind (P := fun t => t = _) ?_ ?_
      · intro o t h
        exact (after_of_ok h).symm
      · intro e' t h
        exact (after_of_error h).symm
    · rfl
    · rfl
  · rw [ha.sweep_run, EStateM.run_bind, hrun]
    split_ifs with hmaker htaker
    · rw [EStateM.run_bind, EStateM.run_bind]
      cases (evictMakerOrder maker.orderIndex .cancelled).run u with
      | ok o t => rfl
      | error e' t => rfl
    · rfl
    · rfl

end PerpDex
