/-
The market keeper (`x/market/keeper/keeper.go`): configuration, mark prices, nonces and open interest.

* `getMarkPriceAndDetails` — the gate every consumer of a mark price goes through;
* `allocateNonce` — ask nonces grow, bid nonces shrink, and the two never meet;
* `SameMarks` — states that agree on everything a risk computation reads of a market.
-/
import PerpDex.Types

namespace PerpDex

variable {m : ℕ} {d : MarketDetails} {s t : State} {delta : ℤ}

namespace State

def putDetails (s : State) (d : MarketDetails) : State :=
  { s with market := { s.market with marketDetails := s.market.marketDetails.put d } }

end State

def getMarket (idx : ℕ) : Query Market := fun s =>
  match s.market.markets.get idx with
  | some m => .ok m
  | none => .error ⟨.marketNotFound, s!"market_index={idx}"⟩

def getMarketDetails (idx : ℕ) : Query MarketDetails := fun s =>
  match s.market.marketDetails.get idx with
  | some d => .ok d
  | none => .error ⟨.marketNotFound, s!"market_details_index={idx}"⟩

def setMarketDetails (d : MarketDetails) : Tx Unit := Txn.write fun s => s.putDetails d

/-- Fails when the mark price is zero or older than the configured bound. -/
def gateMarkPrice (marketIdx : ℕ) (d : MarketDetails) : Query Unit := fun s =>
  let last := d.lastMarkPriceRefreshTimestamp
  let maxMs := s.market.params.maxMarkPriceStalenessMs
  let nowMs := s.now
  if d.markPrice = 0 then .error ⟨.zeroMarkPrice, s!"market={marketIdx}"⟩
  else if maxMs ≤ 0 then .ok ()
  else if last = 0 ∨ nowMs - last > maxMs then
    .error ⟨.staleMarkPrice,
      s!"market={marketIdx}: last_update_ms={last} now_ms={nowMs} max_staleness_ms={maxMs}"⟩
  else .ok ()

def getMarkPriceAndDetails (marketIdx : ℕ) : Query (ℕ × MarketDetails) := fun s =>
  match getMarketDetails marketIdx s with
  | .error _ => .error ⟨.missingPrice,
      s!"market={marketIdx}: market_details_index={marketIdx}: market not found"⟩
  | .ok d =>
    match gateMarkPrice marketIdx d s with
    | .error e => .error e
    | .ok _ => .ok (d.markPrice, d)

/-- Sum of two 64-bit integers, or an error if it does not fit. -/
def checkedAddInt64 (a b : ℤ) : Except Err ℤ :=
  if b > 0 ∧ a > maxInt64 - b then .error ⟨.marketInvalidParams, s!"int64 overflow: {a} + {b}"⟩
  else if b < 0 ∧ a < minInt64 - b then
    .error ⟨.marketInvalidParams, s!"int64 underflow: {a} + {b}"⟩
  else .ok (a + b)

/-- The open interest after a change by `delta`, if it is admissible. -/
def nextOpenInterest (d : MarketDetails) (delta : ℤ) : Except Err MarketDetails :=
  let cur := d.openInterest
  match checkedAddInt64 cur delta with
  | .error e => .error e
  | .ok next =>
    if next < 0 then .error ⟨.marketInvalidParams,
      s!"open_interest delta={delta} would drive oi={next} below zero (current={cur})"⟩
    else if 0 < d.openInterestLimit ∧ d.openInterestLimit < next then .error ⟨.openInterestLimit, ""⟩
    else .ok { d with openInterest := next }

def updateOpenInterest (marketIdx : ℕ) (delta : ℤ) : Tx Unit := do
  let d ← Txn.read (getMarketDetails marketIdx)
  let d ← Txn.read fun _ => nextOpenInterest d delta
  setMarketDetails d

def allocateNonce (marketIdx : ℕ) (isAsk : Bool) : Tx ℤ := do
  let d ← Txn.read (getMarketDetails marketIdx)
  Txn.require (¬ d.askNonce ≥ d.bidNonce) ⟨.nonceExhausted, ""⟩
  let nonce := if isAsk then d.askNonce else d.bidNonce
  let d := if isAsk then { d with askNonce := d.askNonce + 1 }
    else { d with bidNonce := d.bidNonce - 1 }
  Txn.require (¬ d.askNonce ≥ d.bidNonce) ⟨.nonceExhausted, ""⟩
  setMarketDetails d
  return nonce

/-! ### What risk computations read -/

/-- The details with the fields that fills and orders move set to fixed values. -/
def MarketDetails.static (d : MarketDetails) : MarketDetails :=
  { d with openInterest := 0, askNonce := 0, bidNonce := 0 }

/-- Two states with the same mark prices and margin parameters at the same time. -/
structure SameMarks (s t : State) : Prop where
  now : t.now = s.now
  params : t.market.params = s.market.params
  details : ∀ m, (t.market.marketDetails.get m).map (·.static)
    = (s.market.marketDetails.get m).map (·.static)

namespace SameMarks

variable {s t u : State}

theorem refl (s : State) : SameMarks s s := ⟨rfl, rfl, fun _ => rfl⟩

theorem trans (h : SameMarks s t) (h' : SameMarks t u) : SameMarks s u :=
  ⟨h'.now.trans h.now, h'.params.trans h.params, fun m => (h'.details m).trans (h.details m)⟩

theorem get_details (h : SameMarks s t) (hd : t.market.marketDetails.get m = some d) :
    ∃ d', s.market.marketDetails.get m = some d' ∧ d'.static = d.static := by
  have hm := h.details m
  rw [hd] at hm
  rcases hs : s.market.marketDetails.get m with _ | d'
  · rw [hs] at hm
    simp at hm
  · rw [hs] at hm
    simp only [Option.map_some, Option.some.injEq] at hm
    exact ⟨d', rfl, hm.symm⟩

end SameMarks

theorem getMarket_eq_ok {mk : Market} :
    getMarket m s = .ok mk ↔ s.market.markets.get m = some mk := by
  unfold getMarket
  cases s.market.markets.get m with
  | none => simp
  | some d' => simp

theorem getMarketDetails_eq_ok :
    getMarketDetails m s = .ok d ↔ s.market.marketDetails.get m = some d := by
  unfold getMarketDetails
  cases s.market.marketDetails.get m with
  | none => simp
  | some d' => simp

theorem getMarkPriceAndDetails_eq_ok {r : ℕ × MarketDetails} :
    getMarkPriceAndDetails m s = .ok r ↔
      s.market.marketDetails.get m = some r.2 ∧ r.1 = r.2.markPrice ∧
        gateMarkPrice m r.2 s = .ok () := by
  obtain ⟨mark, d⟩ := r
  unfold getMarkPriceAndDetails
  rcases hd : getMarketDetails m s with e | d'
  · have hnone : s.market.marketDetails.get m ≠ some d := by
      rw [ne_eq, ← getMarketDetails_eq_ok, hd]
      simp
    simp [hnone]
  · have hsome := getMarketDetails_eq_ok.mp hd
    simp only [hsome, Option.some.injEq]
    rcases hg : gateMarkPrice m d' s with e | u
    · constructor
      · intro h
        simp at h
      · rintro ⟨rfl, -, h⟩
        rw [hg] at h
        simp at h
    · simp only [Except.ok.injEq, Prod.mk.injEq]
      constructor
      · rintro ⟨rfl, rfl⟩
        exact ⟨rfl, rfl, hg⟩
      · rintro ⟨rfl, rfl, -⟩
        exact ⟨rfl, rfl⟩

theorem gateMarkPrice_pos (h : gateMarkPrice m d s = .ok ()) : d.markPrice ≠ 0 := by
  intro h0
  simp [gateMarkPrice, h0] at h

theorem SameMarks.gateMarkPrice_eq (h : SameMarks s t)
    {d' : MarketDetails} (hd : d'.static = d.static) :
    gateMarkPrice m d' t = gateMarkPrice m d s := by
  have hmark : d'.static.markPrice = d.static.markPrice := by rw [hd]
  have hlast : d'.static.lastMarkPriceRefreshTimestamp = d.static.lastMarkPriceRefreshTimestamp := by
    rw [hd]
  simp only [MarketDetails.static] at hmark hlast
  simp only [gateMarkPrice, h.now, h.params, hmark, hlast]

theorem SameMarks.symm (h : SameMarks s t) : SameMarks t s :=
  ⟨h.now.symm, h.params.symm, fun m => (h.details m).symm⟩

theorem SameMarks.exists_markPrice (h : SameMarks s t)
    (ht : ∃ r, getMarkPriceAndDetails m t = .ok r) :
    ∃ r, getMarkPriceAndDetails m s = .ok r := by
  obtain ⟨⟨mark, d⟩, hr⟩ := ht
  obtain ⟨hd, hmark, hgate⟩ := getMarkPriceAndDetails_eq_ok.mp hr
  obtain ⟨d', hd', hstatic⟩ := h.get_details hd
  refine ⟨(d'.markPrice, d'), getMarkPriceAndDetails_eq_ok.mpr ⟨hd', rfl, ?_⟩⟩
  rw [h.symm.gateMarkPrice_eq hstatic]
  exact hgate

/-! ### Open interest -/

/-- The open interest stays in range when it changes by `delta`. -/
structure FitsOpenInterest (d : MarketDetails) (delta : ℤ) : Prop where
  nonneg : 0 ≤ d.openInterest + delta
  le_max : 0 < delta → d.openInterest + delta ≤ maxInt64

theorem checkedAddInt64_ok {a b c : ℤ} (h : checkedAddInt64 a b = .ok c) :
    c = a + b ∧ (0 < b → a + b ≤ maxInt64) := by
  unfold checkedAddInt64 at h
  split at h
  · simp at h
  · rename_i hover
    split at h
    · simp at h
    · exact ⟨(Except.ok.inj h).symm, by omega⟩

theorem nextOpenInterest_ok {d' : MarketDetails} (h : nextOpenInterest d delta = .ok d') :
    d' = { d with openInterest := d.openInterest + delta } ∧ FitsOpenInterest d delta := by
  simp only [nextOpenInterest] at h
  rcases hadd : checkedAddInt64 d.openInterest delta with e | next
  · simp [hadd] at h
  · simp only [hadd] at h
    obtain ⟨rfl, hmax⟩ := checkedAddInt64_ok hadd
    split at h
    · simp at h
    · rename_i hneg
      split at h
      · simp at h
      · exact ⟨(Except.ok.inj h).symm, by omega, hmax⟩

theorem updateOpenInterest_ok {u : Unit} (h : (updateOpenInterest m delta).run s = .ok u t) :
    ∃ d, s.market.marketDetails.get m = some d ∧ FitsOpenInterest d delta ∧
      t = s.putDetails { d with openInterest := d.openInterest + delta } := by
  simp only [updateOpenInterest, Txn.run_bind_ok, Txn.run_read_ok, setMarketDetails,
    Txn.run_write] at h
  obtain ⟨d, s₁, ⟨hd, rfl⟩, d', s₂, ⟨hnext, rfl⟩, ht⟩ := h
  obtain ⟨rfl, hfits⟩ := nextOpenInterest_ok hnext
  simp only [EStateM.Result.ok.injEq] at ht
  exact ⟨d, getMarketDetails_eq_ok.mp hd, hfits, ht.2.symm⟩

theorem updateOpenInterest_error {e : Err}
    (h : (updateOpenInterest m delta).run s = .error e t) : t = s := by
  simp only [updateOpenInterest, Txn.run_bind_error, Txn.run_read_error, Txn.run_read_ok,
    setMarketDetails, Txn.run_write, reduceCtorEq, and_false, exists_false, or_false] at h
  rcases h with ⟨-, rfl⟩ | ⟨d, s₁, ⟨-, rfl⟩, -, rfl⟩
  · rfl
  · rfl

theorem sameMarks_putDetails {oi : ℤ} (hd : s.market.marketDetails.get d.marketIndex = some d) :
    SameMarks s (s.putDetails { d with openInterest := oi }) where
  now := rfl
  params := rfl
  details m := by
    simp only [State.putDetails, Table.get_put]
    split
    · rename_i hm
      rw [hm, hd]
      rfl
    · rfl

end PerpDex
