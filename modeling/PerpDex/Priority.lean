/-
Price-time priority of the order book.

Asks are listed by price and nonce, bids by the complements of both, and the two nonce counters of a
market run towards each other.  `QueueStep` is the book under any sequence of allocations with
insertions, shrinks and removals, with the list of the nonces handed out, oldest first.

* `Core.Queued` — entries lie under the keys of their own price and nonce, and nonces were handed out in
  the order of the list.

Main result: `price_time_priority`.
-/
import PerpDex.Sweep

namespace PerpDex

open Txn

variable {s t : State}

/-- A nonce that was handed out. -/
structure Ticket where
  market : ℕ
  isAsk : Bool
  nonce : ℤ
deriving DecidableEq

/-- On one side of a market ask nonces go up and bid nonces go down. -/
def Ticket.Before (x y : Ticket) : Prop :=
  x.market = y.market → x.isAsk = y.isAsk →
    if x.isAsk then x.nonce < y.nonce else y.nonce < x.nonce

def OnBook (s : State) (m : ℕ) (isAsk : Bool) (e : OrderBookEntry) : Prop :=
  ∃ sk, (coreOf s).entries.get (toLex (m, sk)) = some e ∧
    onSide m isAsk (toLex (m, sk)) = true

/-- One operation on the entries of the book, with the list of nonces handed out. -/
inductive QueueStep : State × List Ticket → State × List Ticket → Prop where
  | place {s u : State} (log : List Ticket) (m : ℕ) (isAsk : Bool) (n : ℤ) (e : OrderBookEntry)
      (hprice : e.price ≤ maxUint32) (halloc : (allocateNonce m isAsk).run s = .ok n u) :
      QueueStep (s, log)
        (after (insertEntry m isAsk { e with nonce := n }) u, log ++ [⟨m, isAsk, n⟩])
  | shrink (s : State) (log : List Ticket) (m : ℕ) (isAsk : Bool) (i delta : ℕ) :
      QueueStep (s, log) (after (shrinkEntryResidue m isAsk i delta) s, log)
  | remove (s : State) (log : List Ticket) (m : ℕ) (isAsk : Bool) (i : ℕ) :
      QueueStep (s, log) (after (removeEntry m isAsk i) s, log)

/-! ### Keys and nonces -/

section Keys

variable {p : ℕ} {n n' : ℤ}

theorem nonce_le_of_askKey_le (hn : firstAskNonce ≤ n ∧ n ≤ firstBidNonce)
    (hn' : firstAskNonce ≤ n' ∧ n' ≤ firstBidNonce)
    (h : sortableKey p n true ≤ sortableKey p n' true) : n ≤ n' := by
  have hw := nonceWord_of_range hn.1 hn.2
  have hw' := nonceWord_of_range hn'.1 hn'.2
  simp only [sortableKey, if_true, Prod.Lex.le_iff, ofLex_toLex, lt_irrefl, true_and,
    false_or, hw, hw'] at h
  have hpos : (0 : ℤ) < firstAskNonce := by decide
  omega

theorem nonce_le_of_bidKey_le (hn : firstAskNonce ≤ n ∧ n ≤ firstBidNonce)
    (hn' : firstAskNonce ≤ n' ∧ n' ≤ firstBidNonce)
    (h : sortableKey p n false ≤ sortableKey p n' false) : n' ≤ n := by
  have hw := nonceWord_of_range hn.1 hn.2
  have hw' := nonceWord_of_range hn'.1 hn'.2
  simp only [sortableKey, Bool.false_eq_true, if_false, Prod.Lex.le_iff, ofLex_toLex, lt_irrefl,
    true_and, false_or, hw, hw'] at h
  have hpos : (0 : ℤ) < firstAskNonce := by decide
  have hmax : firstBidNonce ≤ (maxUint64 : ℤ) := by decide
  omega

end Keys

theorem idxOf_lt_of_before {log : List Ticket} (hlog : log.Pairwise Ticket.Before) {x y : Ticket}
    (hx : x ∈ log) (hy : y ∈ log) (hmarket : x.market = y.market) (hside : x.isAsk = y.isAsk)
    (hlt : if x.isAsk then x.nonce < y.nonce else y.nonce < x.nonce) :
    log.idxOf x < log.idxOf y := by
  by_contra hge
  have hix := List.idxOf_lt_length_of_mem hx
  have hiy := List.idxOf_lt_length_of_mem hy
  rcases lt_or_eq_of_le (not_lt.mp hge) with hlt' | heq
  · have hbefore := List.pairwise_iff_getElem.mp hlog _ _ hiy hix hlt'
    rw [List.getElem_idxOf, List.getElem_idxOf] at hbefore
    have hrev := hbefore hmarket.symm hside.symm
    rw [← hside] at hrev
    cases hask : x.isAsk
    · simp only [hask, Bool.false_eq_true, if_false] at hlt hrev
      omega
    · simp only [hask, if_true] at hlt hrev
      omega
  · have hxy : x = y := by
      rw [← List.getElem_idxOf hix, ← List.getElem_idxOf hiy]
      simp only [heq]
    rw [hxy] at hlt
    cases hask : y.isAsk
    · simp [hask] at hlt
    · simp [hask] at hlt

/-! ### The invariant -/

namespace Core

variable {c c' : Core} {log : List Ticket} {m : ℕ} {isAsk : Bool} {next : ℤ × ℤ}

/-- Entries lie under the key of their price and nonce, their nonces were handed out, and the
list of these is in order. -/
structure Queued (c : Core) (log : List Ticket) : Prop where
  entry : ∀ m sk e, c.entries.get (toLex (m, sk)) = some e →
    ∃ isAsk, sk = sortableKey e.price e.nonce isAsk ∧ e.price ≤ maxUint32 ∧
      ⟨m, isAsk, e.nonce⟩ ∈ log
  allocated : ∀ x ∈ log, Allocated c.nonces x.market x.isAsk x.nonce
  ordered : log.Pairwise Ticket.Before
  nonces : ∀ m next, c.nonces m = some next →
    firstAskNonce ≤ next.1 ∧ next.1 < next.2 ∧ next.2 ≤ firstBidNonce

/-- Entries were shrunk or taken off. -/
structure Thinned (c c' : Core) : Prop where
  entry : ∀ k e', c'.entries.get k = some e' →
    ∃ e r, c.entries.get k = some e ∧ e' = { e with remainingBaseAmount := r }
  nonces : c'.nonces = c.nonces

theorem Thinned.refl (c : Core) : Thinned c c :=
  ⟨fun _ e h => ⟨e, e.remainingBaseAmount, h, rfl⟩, rfl⟩

theorem Thinned.drop (c : Core) (m i : ℕ) (sk : SortKey) : Thinned c (c.drop m i sk) where
  entry k e' h := by
    simp only [Core.drop, KVStore.get_remove] at h
    split at h
    · simp at h
    · exact ⟨e', _, h, rfl⟩
  nonces := rfl

theorem Thinned.dropOrder (c : Core) (m i : ℕ) : Thinned c (c.dropOrder m i) where
  entry _ e' h := ⟨e', _, dropOrder_get h, rfl⟩
  nonces := dropOrder_nonces c m i

theorem Thinned.setEntry {i : ℕ} {sk : SortKey} {e : OrderBookEntry}
    (h : c.find m i = some (sk, e)) (r : ℕ) :
    Thinned c (c.setEntry m sk { e with remainingBaseAmount := r }) where
  entry k e' he' := by
    simp only [Core.setEntry, KVStore.get_set] at he'
    split at he'
    · rename_i hk
      cases he'
      exact ⟨e, r, hk ▸ (find_eq_some.mp h).2, rfl⟩
    · exact ⟨e', _, he', rfl⟩
  nonces := rfl

theorem Queued.thin (h : c.Queued log) (ht : Thinned c c') : c'.Queued log where
  entry m sk e' he' := by
    obtain ⟨e, r, he, rfl⟩ := ht.entry _ _ he'
    exact h.entry m sk e he
  allocated x hx := by
    rw [ht.nonces]
    exact h.allocated x hx
  ordered := h.ordered
  nonces := by
    rw [ht.nonces]
    exact h.nonces

theorem Queued.nonce_range (h : c.Queued log) {x : Ticket} (hx : x ∈ log) :
    firstAskNonce ≤ x.nonce ∧ x.nonce ≤ firstBidNonce := by
  obtain ⟨next, hnext, hx⟩ := h.allocated x hx
  obtain ⟨h₁, h₂, h₃⟩ := h.nonces _ _ hnext
  split at hx
  · omega
  · omega

theorem Queued.fresh (h : c.Queued log) (hnext : c.nonces m = some next) :
    ⟨m, isAsk, nonceFor isAsk next⟩ ∉ log := by
  intro hmem
  obtain ⟨next', hnext', hrange⟩ := h.allocated _ hmem
  obtain rfl : next' = next := by
    rw [hnext] at hnext'
    exact (Option.some.inj hnext').symm
  cases isAsk
  · simp [nonceFor] at hrange
  · simp [nonceFor] at hrange

theorem Queued.key_free (h : c.Queued log) (hnext : c.nonces m = some next) {price : ℕ}
    (hprice : price ≤ maxUint32) :
    c.entries.get (toLex (m, sortableKey price (nonceFor isAsk next) isAsk)) = none := by
  rcases hget : c.entries.get (toLex (m, sortableKey price (nonceFor isAsk next) isAsk)) with _ | e
  · rfl
  obtain ⟨a, hkey, he, hmem⟩ := h.entry _ _ _ hget
  have hrange : firstAskNonce ≤ nonceFor isAsk next ∧ nonceFor isAsk next ≤ firstBidNonce := by
    obtain ⟨h₁, h₂, h₃⟩ := h.nonces _ _ hnext
    unfold nonceFor
    split
    · omega
    · omega
  obtain ⟨rfl, -, hn⟩ := sortableKey_inj hprice he (int64_of_range hrange)
    (int64_of_range (h.nonce_range hmem)) hkey
  dsimp only at hn
  rw [← hn] at hmem
  exact absurd hmem (h.fresh hnext)

theorem Queued.allocate (h : c.Queued log) (hnext : c.nonces m = some next)
    (hlt : (nextNonces isAsk next).1 < (nextNonces isAsk next).2) :
    ({ c with nonces := Function.update c.nonces m (some (nextNonces isAsk next)) } : Core).Queued
      (log ++ [⟨m, isAsk, nonceFor isAsk next⟩]) where
  entry m' sk e he := by
    obtain ⟨a, hkey, hprice, hmem⟩ := h.entry m' sk e he
    exact ⟨a, hkey, hprice, List.mem_append_left _ hmem⟩
  allocated x hx := by
    obtain ⟨h₁, h₂, h₃⟩ := h.nonces m next hnext
    rcases List.mem_append.mp hx with hx | hx
    · obtain ⟨next', hnext', hrange⟩ := h.allocated x hx
      by_cases hm : x.market = m
      · obtain rfl : next' = next := by
          rw [hm, hnext] at hnext'
          exact (Option.some.inj hnext').symm
        refine ⟨nextNonces isAsk next', by simp only [hm, Function.update_self], ?_⟩
        cases isAsk <;> cases hside : x.isAsk <;>
          simp only [hside, nextNonces, if_true, Bool.false_eq_true, if_false] at hrange ⊢ <;> omega
      · exact ⟨next', by simp only [Function.update_of_ne hm, hnext'], hrange⟩
    · obtain rfl := List.mem_singleton.mp hx
      refine ⟨nextNonces isAsk next, Function.update_self .., ?_⟩
      cases isAsk
      · simp only [nonceFor, nextNonces, Bool.false_eq_true, if_false]
        omega
      · simp only [nonceFor, nextNonces, if_true]
        omega
  ordered := by
    refine List.pairwise_append.mpr ⟨h.ordered, List.pairwise_singleton _ _, ?_⟩
    intro x hx y hy hmarket hside
    obtain rfl := List.mem_singleton.mp hy
    obtain ⟨next', hnext', hrange⟩ := h.allocated x hx
    obtain rfl : next' = next := by
      rw [hmarket, hnext] at hnext'
      exact (Option.some.inj hnext').symm
    dsimp only at hside
    rw [hside] at hrange ⊢
    cases isAsk
    · simp only [nonceFor, Bool.false_eq_true, if_false] at hrange ⊢
      exact hrange.1
    · simp only [nonceFor, if_true] at hrange ⊢
      exact hrange.2
  nonces m' next' hnext' := by
    by_cases hm : m' = m
    · subst hm
      obtain ⟨h₁, h₂, h₃⟩ := h.nonces m' next hnext
      simp only [Function.update_self, Option.some.injEq] at hnext'
      subst hnext'
      cases isAsk
      · simp only [nextNonces, Bool.false_eq_true, if_false] at hlt ⊢
        omega
      · simp only [nextNonces, if_true] at hlt ⊢
        omega
    · simp only [Function.update_of_ne hm] at hnext'
      exact h.nonces m' next' hnext'

theorem Queued.insert (h : c.Queued log) {e : OrderBookEntry} (hprice : e.price ≤ maxUint32)
    (hmem : ⟨m, isAsk, e.nonce⟩ ∈ log) :
    (c.insert m (sortableKey e.price e.nonce isAsk) e).Queued log where
  entry m' sk e' he' := by
    simp only [Core.insert, KVStore.get_set] at he'
    split at he'
    · rename_i hk
      obtain ⟨rfl, rfl⟩ : m' = m ∧ sk = sortableKey e.price e.nonce isAsk := by
        simpa using hk
      cases he'
      exact ⟨isAsk, rfl, hprice, hmem⟩
    · exact h.entry m' sk e' he'
  allocated := h.allocated
  ordered := h.ordered
  nonces := h.nonces

end Core

theorem shrinkEntryResidue_thinned (m : ℕ) (isAsk : Bool) (i delta : ℕ) (s : State) :
    (coreOf s).Thinned (coreOf (after (shrinkEntryResidue m isAsk i delta) s)) := by
  rcases hrun : (shrinkEntryResidue m isAsk i delta).run s with ⟨removed, t⟩ | ⟨e, t⟩
  · rw [after_of_ok hrun]
    obtain ⟨sk, entry, hfind, -, hcore⟩ := shrinkEntryResidue_ok hrun
    rw [hcore]
    split
    · exact Core.Thinned.drop _ m i sk
    · exact Core.Thinned.setEntry hfind _
  · rw [after_of_error hrun]
    rcases shrinkEntryResidue_error hrun with hcore | ⟨sk, entry, -, hcore⟩
    · rw [hcore]
      exact Core.Thinned.refl _
    · rw [hcore]
      exact Core.Thinned.drop _ m i sk

theorem QueueStep.queued {x y : State × List Ticket} (h : QueueStep x y)
    (hx : (coreOf x.1).Queued x.2) : (coreOf y.1).Queued y.2 := by
  cases h with
  | @place s u log m isAsk n e hprice halloc =>
    obtain ⟨next, hnext, rfl, hlt, -, -, hcore⟩ := allocateNonce_ok halloc
    have hu := hx.allocate hnext hlt
    rw [← hcore] at hu
    have hmem : (⟨m, isAsk, nonceFor isAsk next⟩ : Ticket)
        ∈ log ++ [⟨m, isAsk, nonceFor isAsk next⟩] := by simp
    have hinsert := hu.insert (e := { e with nonce := nonceFor isAsk next }) hprice hmem
    dsimp only
    rcases hrun : (insertEntry m isAsk { e with nonce := nonceFor isAsk next }).run u
      with ⟨_, t⟩ | ⟨err, t⟩
    · rw [after_of_ok hrun, insertEntry_ok hrun]
      exact hinsert
    · rw [after_of_error hrun]
      rcases insertEntry_error hrun with hcore' | hcore'
      · rw [hcore']
        exact hu
      · rw [hcore']
        exact hinsert
  | shrink s log m isAsk i delta => exact hx.thin (shrinkEntryResidue_thinned m isAsk i delta s)
  | remove s log m isAsk i =>
    dsimp only
    rw [removeEntry_core]
    exact hx.thin (Core.Thinned.dropOrder _ m i)

/-! ### Priority -/

theorem OnBook.key {log : List Ticket} {m : ℕ} {isAsk : Bool} {e : OrderBookEntry}
    (hq : (coreOf s).Queued log) (h : OnBook s m isAsk e) :
    (coreOf s).entries.get (toLex (m, sortableKey e.price e.nonce isAsk)) = some e ∧
      e.price ≤ maxUint32 ∧ ⟨m, isAsk, e.nonce⟩ ∈ log := by
  obtain ⟨sk, hget, hside⟩ := h
  obtain ⟨a, rfl, hprice, hmem⟩ := hq.entry m sk e hget
  obtain ⟨-, rfl⟩ := (onSide_sortableKey _ _ _ _ _ _).mp hside
  exact ⟨hget, hprice, hmem⟩

/-- The better price, or the same price. -/
def noWorse (isAsk : Bool) (p p' : ℕ) : Prop := if isAsk then p ≤ p' else p' ≤ p

/-- What price-time priority means for a book and the list of nonces handed out. -/
structure PriceTimePriority (s : State) (log : List Ticket) : Prop where
  /-- A side with an entry has a best one. -/
  found : ∀ m isAsk e, OnBook s m isAsk e → ∃ best, peekBest m isAsk s = some best
  /-- The best entry is on the side, has the best price, and is the oldest one at that price. -/
  best : ∀ m isAsk best, peekBest m isAsk s = some best → OnBook s m isAsk best ∧
    ∀ e, OnBook s m isAsk e → noWorse isAsk best.price e.price ∧
      (e.price = best.price → e = best ∨
        log.idxOf ⟨m, isAsk, best.nonce⟩ < log.idxOf ⟨m, isAsk, e.nonce⟩)
  /-- Every entry has a nonce that was handed out for its side. -/
  ticket : ∀ m isAsk e, OnBook s m isAsk e → ⟨m, isAsk, e.nonce⟩ ∈ log
  /-- Ask nonces go up and bid nonces go down. -/
  ordered : log.Pairwise Ticket.Before
  /-- The two ranges of a market do not meet. -/
  apart : ∀ x ∈ log, ∀ y ∈ log, x.market = y.market → x.isAsk = true → y.isAsk = false →
    x.nonce < y.nonce
  /-- Entries with the same key are the same. -/
  distinct : ∀ m isAsk isAsk' e e', OnBook s m isAsk e → OnBook s m isAsk' e' →
    sortableKey e.price e.nonce isAsk = sortableKey e'.price e'.nonce isAsk' → e = e'
  /-- The key of the next entry is not in use. -/
  free : ∀ m isAsk n u, (allocateNonce m isAsk).run s = .ok n u → ∀ price ≤ maxUint32,
    u.book.orderBookEntries.get (toLex (m, sortableKey price n isAsk)) = none

theorem Core.Queued.best {log : List Ticket} (hq : (coreOf s).Queued log) {m : ℕ} {isAsk : Bool}
    {best : OrderBookEntry} (hpeek : peekBest m isAsk s = some best) :
    OnBook s m isAsk best ∧ ∀ e, OnBook s m isAsk e → noWorse isAsk best.price e.price ∧
      (e.price = best.price → e = best ∨
        log.idxOf ⟨m, isAsk, best.nonce⟩ < log.idxOf ⟨m, isAsk, e.nonce⟩) := by
  obtain ⟨sk, hget, hside, hmin⟩ := peekBest_spec hpeek
  have hbest : OnBook s m isAsk best := ⟨sk, hget, hside⟩
  refine ⟨hbest, fun e he => ?_⟩
  obtain ⟨hkey, hprice, hmem⟩ := hbest.key hq
  obtain ⟨hkey', hprice', hmem'⟩ := he.key hq
  have hsk : sk = sortableKey best.price best.nonce isAsk := by
    obtain ⟨a, rfl, -⟩ := hq.entry m sk best hget
    obtain ⟨-, rfl⟩ := (onSide_sortableKey _ _ _ _ _ _).mp hside
    rfl
  have hle : sortableKey best.price best.nonce isAsk ≤ sortableKey e.price e.nonce isAsk := by
    rw [← hsk]
    exact hmin _ e hkey' (by simp)
  have hrange := hq.nonce_range hmem
  have hrange' := hq.nonce_range hmem'
  refine ⟨?_, fun hsame => ?_⟩
  · cases isAsk
    · exact price_le_of_bidKey_le hprice' hle
    · exact price_le_of_askKey_le hle
  · rw [hsame] at hle
    by_cases hnonce : e.nonce = best.nonce
    · left
      rw [hsame, hnonce, hkey] at hkey'
      exact (Option.some.inj hkey').symm
    · right
      refine idxOf_lt_of_before hq.ordered hmem hmem' rfl rfl ?_
      cases isAsk
      · have h := nonce_le_of_bidKey_le hrange hrange' hle
        simp only [Bool.false_eq_true, if_false] at h ⊢
        omega
      · have h := nonce_le_of_askKey_le hrange hrange' hle
        simp only [if_true] at h ⊢
        omega

theorem Core.Queued.priceTimePriority {log : List Ticket} (hq : (coreOf s).Queued log) :
    PriceTimePriority s log where
  found m isAsk e he := by
    obtain ⟨sk, hget, hside⟩ := he
    rcases hpeek : peekBest m isAsk s with _ | best
    · have hnone := Option.map_eq_none_iff.mp hpeek
      exact absurd hside (by simp [KVStore.first_eq_none.mp hnone _ _ hget])
    · exact ⟨best, rfl⟩
  best m isAsk best hpeek := hq.best hpeek
  ticket m isAsk e he := (he.key hq).2.2
  ordered := hq.ordered
  apart x hx y hy hmarket hask hbid := by
    obtain ⟨next, hnext, hrange⟩ := hq.allocated x hx
    obtain ⟨next', hnext', hrange'⟩ := hq.allocated y hy
    obtain rfl : next' = next := by
      rw [← hmarket, hnext] at hnext'
      exact (Option.some.inj hnext').symm
    obtain ⟨-, hlt, -⟩ := hq.nonces _ _ hnext
    simp only [hask, hbid, if_true, Bool.false_eq_true, if_false] at hrange hrange'
    omega
  distinct m isAsk isAsk' e e' he he' hkey := by
    have hget := (he.key hq).1
    rw [hkey, (he'.key hq).1] at hget
    exact (Option.some.inj hget).symm
  free m isAsk n u halloc price hprice := by
    obtain ⟨next, hnext, rfl, -, hbook, -⟩ := allocateNonce_ok halloc
    rw [hbook]
    exact hq.key_free hnext hprice

/-- **Price-time priority.**  Whatever is placed, shrunk and removed from an empty book on, the
best entry of a side has the best price and is the oldest one at that price; ask nonces go up,
bid nonces go down, the two do not meet, and no key is used twice at a time. -/
theorem price_time_priority {log : List Ticket}
    (hempty : ∀ k, s.book.orderBookEntries.get k = none)
    (hnonces : ∀ m d, s.market.marketDetails.get m = some d →
      firstAskNonce ≤ d.askNonce ∧ d.askNonce < d.bidNonce ∧ d.bidNonce ≤ firstBidNonce)
    (hrun : Relation.ReflTransGen QueueStep (s, []) (t, log)) : PriceTimePriority t log := by
  have hstart : (coreOf s).Queued [] := {
    entry := fun m sk e he => by
      have hnone := hempty (toLex (m, sk))
      rw [show s.book.orderBookEntries.get (toLex (m, sk)) = some e from he] at hnone
      simp at hnone
    allocated := by simp
    ordered := List.Pairwise.nil
    nonces := fun m next hnext => by
      obtain ⟨d, hd, rfl⟩ := Option.map_eq_some_iff.mp hnext
      exact hnonces m d hd }
  have hend : (coreOf t).Queued log := by
    have hinv : ∀ y : State × List Ticket, Relation.ReflTransGen QueueStep (s, []) y →
        (coreOf y.1).Queued y.2 := by
      intro y hy
      induction hy with
      | refl => exact hstart
      | tail _ hstep ih => exact hstep.queued ih
    exact hinv _ hrun
  exact hend.priceTimePriority

def emptyBook : State where
  market := { marketDetails := Table.ofRows [{ marketIndex := 0 }] }

/-- An ask of `base` units at 100. -/
def askEntry (i base : ℕ) : OrderBookEntry where
  orderIndex := i
  ownerAccountIndex := 2
  price := 100
  nonce := 0
  remainingBaseAmount := base
  expiry := 0
  reduceOnly := false
  orderType := .limitOrder

def oneAsk : State :=
  after (insertEntry 0 true { askEntry 8 5 with nonce := 1 }) (after (allocateNonce 0 true) emptyBook)

def twoAsks : State :=
  after (insertEntry 0 true { askEntry 7 5 with nonce := 2 }) (after (allocateNonce 0 true) oneAsk)

/-- The second ask at a price comes after the first one, although its order index is smaller. -/
theorem price_time_priority_two_asks :
    (peekBest 0 true twoAsks).map (·.orderIndex) = some 8 ∧
      PriceTimePriority twoAsks [⟨0, true, 1⟩, ⟨0, true, 2⟩] := by
  have hfirst : QueueStep (emptyBook, []) (oneAsk, [⟨0, true, 1⟩]) :=
    .place [] 0 true 1 (askEntry 8 5) (by decide) (run_of_value (by decide +kernel))
  have hsecond : QueueStep (oneAsk, [⟨0, true, 1⟩]) (twoAsks, [⟨0, true, 1⟩, ⟨0, true, 2⟩]) :=
    .place [⟨0, true, 1⟩] 0 true 2 (askEntry 7 5) (by decide) (run_of_value (by decide +kernel))
  refine ⟨by decide +kernel, price_time_priority (s := emptyBook) (fun _ => rfl) ?_
    (.tail (.single hfirst) hsecond)⟩
  intro m d hd
  have hput : ((Table.empty : Table MarketDetails.marketIndex).put
      { marketIndex := 0 }).get m = some d := hd
  rw [Table.get_put] at hput
  split at hput
  · cases hput
    decide
  · simp at hput

end PerpDex
