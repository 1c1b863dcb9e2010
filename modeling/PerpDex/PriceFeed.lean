/-
Prices from votes (`x/oracle/keeper/aggregation.go`, `x/oracle/keeper/preblock.go` and the price store
of `x/oracle/keeper/keeper.go`).

* `weightedMedian` — the first price at which more than half of the weight is reached;
* `aggregateMarket` — the median of a market's samples, once more without outliers, if enough power
  stands behind them;
* `preBlocker` — the prices that a block stores.

Weights are unsigned 64-bit words.  The order in which the markets are visited, that of a hash map, is a
parameter.
-/
import PerpDex.KVStore
import PerpDex.VoteExtensions

namespace PerpDex.Oracle

open Arith

def uint64 (x : ℤ) : ℕ := (x % 2 ^ 64).toNat

/-! ### Medians -/

/-- Walk the sorted samples until half of the weight is passed. -/
def medianWalk (total : ℕ) : ℕ → List (ℕ × ℕ) → Option ℕ
  | _, [] => none
  | cum, (v, w) :: rest =>
    let cum := word64 (cum + w)
    if total ≤ word64 (cum * 2) ∧ total / 2 < cum then some v else medianWalk total cum rest

/-- Samples of equal value may come in any order: the value that is returned is the same. -/
def weightedMedian (values weights : List ℕ) : ℕ :=
  if values = [] ∨ values.length ≠ weights.length then 0
  else
    let total := weights.foldl (fun t w => word64 (t + w)) 0
    let pairs := (values.zip weights).mergeSort fun p q => decide (p.1 ≤ q.1)
    match medianWalk total 0 pairs with
    | some v => v
    | none => (pairs.getLast?.map Prod.fst).getD 0

def withinBps (value reference thresholdBps : ℕ) : Bool :=
  if reference = 0 then true
  else
    let diff := if reference < value then value - reference else reference - value
    decide (word64 (diff * 10000) ≤ word64 (reference * thresholdBps))

/-! ### Aggregation -/

structure Sample where
  index : ℕ
  mark : ℕ
  weight : ℕ
deriving DecidableEq, Repr

structure Aggregation where
  marketIndex : ℕ
  indexPrice : ℕ
  markPrice : ℕ
  participantCount : ℕ
  totalPower : ℕ
deriving DecidableEq, Repr

def committedVotes (ext : ExtendedCommitInfo) : List ExtendedVoteInfo :=
  ext.votes.filter fun v => decide (v.blockIdFlag = .commit)

/-- The power of the committed votes, as a signed word. -/
def totalCommittedPower (ext : ExtendedCommitInfo) : ℤ :=
  (committedVotes ext).foldl (fun t v => wrap64 (t + v.validator.power)) 0

def samplesOf (veCodec : Codec OracleVote) (v : ExtendedVoteInfo) : List (ℕ × Sample) :=
  if v.voteExtension = [] then []
  else match veCodec.decode v.voteExtension with
  | .error _ => []
  | .ok ov =>
    let w := uint64 v.validator.power
    if w = 0 then []
    else (ov.prices.filter fun p => decide (¬ (p.indexPrice = 0 ∨ p.markPrice = 0))).map fun p =>
      (p.marketIndex, { index := p.indexPrice, mark := p.markPrice, weight := w })

def collected (veCodec : Codec OracleVote) (ext : ExtendedCommitInfo) : List (ℕ × Sample) :=
  (committedVotes ext).flatMap (samplesOf veCodec)

/-- The medians of index and mark prices, from the samples that are close to the first ones if the
parameters ask for it. -/
def medians (params : Params) (samples : List Sample) : ℕ × ℕ :=
  let idx := weightedMedian (samples.map Sample.index) (samples.map Sample.weight)
  let mk := weightedMedian (samples.map Sample.mark) (samples.map Sample.weight)
  if idx = 0 ∨ mk = 0 ∨ params.deviationThresholdBps = 0 then (idx, mk)
  else
    let close := samples.filter fun x =>
      withinBps x.index idx params.deviationThresholdBps &&
        withinBps x.mark mk params.deviationThresholdBps
    if close = [] then (idx, mk)
    else (weightedMedian (close.map Sample.index) (close.map Sample.weight),
      weightedMedian (close.map Sample.mark) (close.map Sample.weight))

def aggregateMarket (params : Params) (totalPower : ℤ) (samples : List Sample) (marketIdx : ℕ) :
    Option Aggregation :=
  let marketPower := samples.foldl (fun t x => word64 (t + x.weight)) 0
  if 0 < params.minVotingPowerRatio ∧ 0 < uint64 totalPower ∧
      word64 (marketPower * 10000) < word64 (uint64 totalPower * params.minVotingPowerRatio) then none
  else
    let (idx, mk) := medians params samples
    if idx = 0 ∨ mk = 0 then none
    else some {
      marketIndex := marketIdx
      indexPrice := idx
      markPrice := mk
      participantCount := samples.length % 2 ^ 32
      totalPower := marketPower }

def sampledMarkets (veCodec : Codec OracleVote) (ext : ExtendedCommitInfo) : List ℕ :=
  ((collected veCodec ext).map Prod.fst).dedup

def marketSamples (veCodec : Codec OracleVote) (ext : ExtendedCommitInfo) (marketIdx : ℕ) :
    List Sample :=
  ((collected veCodec ext).filter fun e => decide (e.1 = marketIdx)).map Prod.snd

/-- `order` lists the markets that have samples as the map is traversed. -/
def aggregateFromExtInfo (h : VoteExtensionHandler) (ext : ExtendedCommitInfo) (params : Params)
    (order : List ℕ) : List Aggregation :=
  let total := totalCommittedPower ext
  if total ≤ 0 ∨ committedVotes ext = [] then []
  else order.filterMap fun m => aggregateMarket params total (marketSamples h.veCodec ext m) m

/-! ### The price store -/

structure OraclePrice where
  marketIndex : ℕ
  indexPrice : ℕ
  markPrice : ℕ
  lastUpdatedTimestamp : ℤ
  lastUpdatedHeight : ℤ
  participantCount : ℕ
  totalVotingPower : ℕ
deriving DecidableEq, Repr

abbrev Prices : Type := Table OraclePrice.marketIndex

/-- Zero prices are never stored. -/
def setPrice (prices : Prices) (p : OraclePrice) : Prices :=
  if p.indexPrice = 0 ∨ p.markPrice = 0 then prices else prices.put p

/-- A mark price moves toward the new one from the stored one. -/
def applyMarkSmoothing (prices : Prices) (params : Params) (p : OraclePrice) : OraclePrice :=
  let alpha := params.markPriceEmaAlpha
  if alpha = 0 ∨ 10000 ≤ alpha then p
  else match prices.get p.marketIndex with
  | none => p
  | some prev =>
    if prev.markPrice = 0 then p
    else
      let smoothed := word64 (alpha * p.markPrice + (10000 - alpha) * prev.markPrice) / 10000
      { p with markPrice := (if smoothed = 0 then 1 else smoothed) % 2 ^ 32 }

def storeAggregation (params : Params) (now height : ℤ) (prices : Prices) (agg : Aggregation) :
    Prices :=
  setPrice prices (applyMarkSmoothing prices params {
    marketIndex := agg.marketIndex
    indexPrice := agg.indexPrice
    markPrice := agg.markPrice
    lastUpdatedTimestamp := now
    lastUpdatedHeight := height
    participantCount := agg.participantCount
    totalVotingPower := agg.totalPower })

/-- The prices after the first transaction of a block has been read; whatever cannot be read changes
nothing. -/
def preBlocker (h : VoteExtensionHandler) (ctx : Context) (now height : ℤ) (txs : List Bytes)
    (order : List ℕ) (prices : Prices) : Prices :=
  if veEnabled ctx height = false then prices
  else match txs with
  | [] => prices
  | extInfoBz :: _ => match h.ecCodec.decode extInfoBz with
    | .error _ => prices
    | .ok extInfo => match ctx.params with
      | none => prices
      | some params =>
        (aggregateFromExtInfo h extInfo params order).foldl (storeAggregation params now height) prices

end PerpDex.Oracle
