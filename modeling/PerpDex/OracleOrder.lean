/-
The stored prices do not depend on the order in which a validator happens to see the votes.

* `SameCommit` — the same votes in another order, with their prices in another order.

Main results: `oracle_order_free_iff`, `oracle_vote_order_matters`.

The loop of the median compares a doubled running weight, which may overflow after one order and not
after another.
-/
import PerpDex.OracleMedians

namespace PerpDex.Oracle

open Arith Median

/-! ### The hook with any sort -/

section By

variable (sort : List (ℕ × ℕ) → List (ℕ × ℕ))

def mediansBy (params : Params) (samples : List Sample) : ℕ × ℕ :=
  let idx := weightedMedianBy sort (samples.map Sample.index) (samples.map Sample.weight)
  let mk := weightedMedianBy sort (samples.map Sample.mark) (samples.map Sample.weight)
  if idx = 0 ∨ mk = 0 ∨ params.deviationThresholdBps = 0 then (idx, mk)
  else
    let close := samples.filter fun x =>
      withinBps x.index idx params.deviationThresholdBps &&
        withinBps x.mark mk params.deviationThresholdBps
    if close = [] then (idx, mk)
    else (weightedMedianBy sort (close.map Sample.index) (close.map Sample.weight),
      weightedMedianBy sort (close.map Sample.mark) (close.map Sample.weight))

def aggregateMarketBy (params : Params) (totalPower : ℤ) (samples : List Sample) (marketIdx : ℕ) :
    Option Aggregation :=
  let marketPower := samples.foldl (fun t x => word64 (t + x.weight)) 0
  if 0 < params.minVotingPowerRatio ∧ 0 < uint64 totalPower ∧
      word64 (marketPower * 10000) < word64 (uint64 totalPower * params.minVotingPowerRatio) then none
  else
    let (idx, mk) := mediansBy sort params samples
    if idx = 0 ∨ mk = 0 then none
    else some {
      marketIndex := marketIdx
      indexPrice := idx
      markPrice := mk
      participantCount := samples.length % 2 ^ 32
      totalPower := marketPower }

def aggregateFromExtInfoBy (h : VoteExtensionHandler) (ext : ExtendedCommitInfo) (params : Params)
    (order : List ℕ) : List Aggregation :=
  let total := totalCommittedPower ext
  if total ≤ 0 ∨ committedVotes ext = [] then []
  else order.filterMap fun m =>
    aggregateMarketBy sort params total (marketSamples h.veCodec ext m) m

def preBlockerBy (h : VoteExtensionHandler) (ctx : Context) (now height : ℤ) (txs : List Bytes)
    (order : List ℕ) (prices : Prices) : Prices :=
  if veEnabled ctx height = false then prices
  else match txs with
  | [] => prices
  | extInfoBz :: _ => match h.ecCodec.decode extInfoBz with
    | .error _ => prices
    | .ok extInfo => match ctx.params with
      | none => prices
      | some params => (aggregateFromExtInfoBy sort h extInfo params order).foldl
          (storeAggregation params now height) prices

end By

theorem preBlocker_eq (h : VoteExtensionHandler) (ctx : Context) (now height : ℤ)
    (txs : List Bytes) (order : List ℕ) (prices : Prices) :
    preBlocker h ctx now height txs order prices
      = preBlockerBy sortByValue h ctx now height txs order prices := rfl

/-! ### The same votes -/

/-- The same extension, or one with the same prices in another order. -/
inductive SameExtension (veCodec : Codec OracleVote) : Bytes → Bytes → Prop
  | same (bz : Bytes) : SameExtension veCodec bz bz
  | reordered {bz bz' : Bytes} {ov ov' : OracleVote} (hbz : bz ≠ []) (hbz' : bz' ≠ [])
      (h : veCodec.decode bz = .ok ov) (h' : veCodec.decode bz' = .ok ov')
      (hperm : ov.prices.Perm ov'.prices) : SameExtension veCodec bz bz'

structure SameVote (veCodec : Codec OracleVote) (v v' : ExtendedVoteInfo) : Prop where
  power : v'.validator.power = v.validator.power
  flag : v'.blockIdFlag = v.blockIdFlag
  extension : SameExtension veCodec v.voteExtension v'.voteExtension

def SameCommit (veCodec : Codec OracleVote) (ext ext' : ExtendedCommitInfo) : Prop :=
  ∃ votes, ext.votes.Perm votes ∧ List.Forall₂ (SameVote veCodec) votes ext'.votes

section Same

variable {veCodec : Codec OracleVote} {v v' : ExtendedVoteInfo} {ext ext' : ExtendedCommitInfo}

theorem SameVote.samples_perm (h : SameVote veCodec v v') :
    (samplesOf veCodec v).Perm (samplesOf veCodec v') := by
  obtain ⟨hpower, -, hext⟩ := h
  generalize hbz : v.voteExtension = bz at hext
  generalize hbz' : v'.voteExtension = bz' at hext
  unfold samplesOf
  rw [hbz, hbz', hpower]
  cases hext with
  | same => exact .refl _
  | reordered hne hne' hdecode hdecode' hperm =>
    rw [if_neg hne, if_neg hne', hdecode, hdecode']
    dsimp only
    split
    · exact .refl _
    · exact (hperm.filter _).map _

theorem SameCommit.committed (h : SameCommit veCodec ext ext') :
    ∃ votes, (committedVotes ext).Perm votes ∧
      List.Forall₂ (SameVote veCodec) votes (committedVotes ext') := by
  obtain ⟨votes, hperm, hsame⟩ := h
  refine ⟨votes.filter fun v => decide (v.blockIdFlag = .commit), hperm.filter _, ?_⟩
  rw [committedVotes]
  clear hperm
  generalize ext'.votes = votes' at hsame
  induction hsame with
  | nil => exact .nil
  | @cons u u' rest rest' hu _ ih =>
    rw [List.filter_cons, List.filter_cons, hu.flag]
    split
    · exact .cons hu ih
    · exact ih

theorem collected_perm (h : SameCommit veCodec ext ext') :
    (collected veCodec ext).Perm (collected veCodec ext') := by
  obtain ⟨votes, hperm, hsame⟩ := h.committed
  refine (hperm.flatMap_right _).trans ?_
  rw [collected]
  clear hperm
  generalize committedVotes ext' = votes' at hsame
  induction hsame with
  | nil => exact .refl _
  | cons hu _ ih =>
    rw [List.flatMap_cons, List.flatMap_cons]
    exact hu.samples_perm.append ih

theorem marketSamples_perm (h : SameCommit veCodec ext ext') (m : ℕ) :
    (marketSamples veCodec ext m).Perm (marketSamples veCodec ext' m) :=
  ((collected_perm h).filter _).map _

theorem sampledMarkets_perm (h : SameCommit veCodec ext ext') :
    (sampledMarkets veCodec ext).Perm (sampledMarkets veCodec ext') :=
  ((collected_perm h).map _).dedup

theorem foldl_wrap64 {α : Type} (f : α → ℤ) (l : List α) :
    l.foldl (fun t x => wrap64 (t + f x)) 0 = wrap64 (l.map f).sum := by
  have h := foldl_words wrap64_wrap64_add f l 0
  rwa [zero_add] at h

theorem totalCommittedPower_eq (h : SameCommit veCodec ext ext') :
    totalCommittedPower ext = totalCommittedPower ext' := by
  obtain ⟨votes, hperm, hsame⟩ := h.committed
  have hpowers : votes.map (fun v => v.validator.power)
      = (committedVotes ext').map fun v => v.validator.power := by
    clear hperm
    generalize committedVotes ext' = votes' at hsame
    induction hsame with
    | nil => rfl
    | cons hu _ ih => rw [List.map_cons, List.map_cons, ih, hu.power]
  rw [totalCommittedPower, totalCommittedPower, foldl_wrap64, foldl_wrap64, ← hpowers,
    (hperm.map _).sum_eq]

theorem committedVotes_eq_nil_iff (h : SameCommit veCodec ext ext') :
    committedVotes ext = [] ↔ committedVotes ext' = [] := by
  obtain ⟨votes, hperm, hsame⟩ := h.committed
  rw [← List.length_eq_zero_iff, ← List.length_eq_zero_iff, hperm.length_eq, hsame.length_eq]

end Same

/-! ### The same medians -/

section Medians

variable {sort sort' : List (ℕ × ℕ) → List (ℕ × ℕ)} {samples samples' : List Sample}

/-- Samples with weights of which no sum is doubled beyond a word. -/
structure Weighed (samples : List Sample) : Prop where
  pos : ∀ x ∈ samples, 0 < x.weight
  roomy : Roomy (2 ^ 64) (samples.map Sample.weight)

theorem Weighed.perm (h : Weighed samples) (hperm : samples.Perm samples') : Weighed samples' where
  pos x hx := h.pos x (hperm.mem_iff.mpr hx)
  roomy := h.roomy.perm (hperm.map Sample.weight)

theorem Weighed.filter (h : Weighed samples) (p : Sample → Bool) : Weighed (samples.filter p) where
  pos x hx := h.pos x (List.mem_filter.mp hx).1
  roomy := h.roomy.sublist (List.filter_sublist.map Sample.weight)

theorem weightedMedianBy_eq (hsort : IsSort sort) (hsort' : IsSort sort') (hw : Weighed samples)
    (hperm : samples.Perm samples') (f : Sample → ℕ) :
    weightedMedianBy sort (samples.map f) (samples.map Sample.weight)
      = weightedMedianBy sort' (samples'.map f) (samples'.map Sample.weight) := by
  by_cases hnil : samples = []
  · subst hnil
    rw [List.nil_perm.mp hperm]
    rfl
  · have hw' := hw.perm hperm
    have hnil' : samples' ≠ [] := fun h => hnil (List.perm_nil.mp (h ▸ hperm))
    have hmedian := weightedMedianBy_isMedian hsort hnil f Sample.weight hw.pos hw.roomy
    have hmedian' := weightedMedianBy_isMedian hsort' hnil' f Sample.weight hw'.pos hw'.roomy
    exact (hmedian.perm (hperm.map _)).unique hmedian'

theorem mediansBy_eq (hsort : IsSort sort) (hsort' : IsSort sort') (params : Params)
    (hw : Weighed samples) (hperm : samples.Perm samples') :
    mediansBy sort params samples = mediansBy sort' params samples' := by
  unfold mediansBy
  rw [weightedMedianBy_eq hsort hsort' hw hperm Sample.index,
    weightedMedianBy_eq hsort hsort' hw hperm Sample.mark]
  dsimp only
  split
  · rfl
  · -- what is left by the filter is the same but for its order
    generalize hp : (fun x : Sample => _ && _) = p
    have hclose := hperm.filter p
    have hnil : samples.filter p = [] ↔ samples'.filter p = [] := by
      rw [← List.length_eq_zero_iff, ← List.length_eq_zero_iff, hclose.length_eq]
    rw [weightedMedianBy_eq hsort hsort' (hw.filter p) hclose Sample.index,
      weightedMedianBy_eq hsort hsort' (hw.filter p) hclose Sample.mark]
    simp only [hnil]

theorem aggregateMarketBy_eq (hsort : IsSort sort) (hsort' : IsSort sort') (params : Params)
    (total : ℤ) (m : ℕ) (hw : Weighed samples) (hperm : samples.Perm samples') :
    aggregateMarketBy sort params total samples m
      = aggregateMarketBy sort' params total samples' m := by
  unfold aggregateMarketBy
  rw [foldl_word64, foldl_word64, (hperm.map Sample.weight).sum_eq, hperm.length_eq,
    mediansBy_eq hsort hsort' params hw hperm]

end Medians

/-! ### The same stores -/

section Stores

variable {params : Params} {now height : ℤ} {prices prices' : Prices}

theorem applyMarkSmoothing_eq (prices : Prices) (params : Params) (p : OraclePrice) :
    ∃ mark, applyMarkSmoothing prices params p = { p with markPrice := mark } := by
  unfold applyMarkSmoothing
  dsimp only
  split
  · exact ⟨_, rfl⟩
  · split
    · exact ⟨_, rfl⟩
    · split
      · exact ⟨_, rfl⟩
      · exact ⟨_, rfl⟩

theorem applyMarkSmoothing_congr (params : Params) {p : OraclePrice}
    (h : prices.get p.marketIndex = prices'.get p.marketIndex) :
    applyMarkSmoothing prices params p = applyMarkSmoothing prices' params p := by
  unfold applyMarkSmoothing
  rw [h]

theorem storeAggregation_get (params : Params) (now height : ℤ) (prices : Prices)
    (agg : Aggregation) (m : ℕ) :
    (storeAggregation params now height prices agg).get m = prices.get m ∨
      m = agg.marketIndex ∧ ∃ p, (storeAggregation params now height prices agg).get m = some p ∧
        p.totalVotingPower = agg.totalPower := by
  unfold storeAggregation
  obtain ⟨mark, hmark⟩ := applyMarkSmoothing_eq prices params {
    marketIndex := agg.marketIndex
    indexPrice := agg.indexPrice
    markPrice := agg.markPrice
    lastUpdatedTimestamp := now
    lastUpdatedHeight := height
    participantCount := agg.participantCount
    totalVotingPower := agg.totalPower }
  rw [hmark, setPrice]
  split
  · exact .inl rfl
  · rw [Table.get_put]
    split
    · rename_i hm
      exact .inr ⟨hm, _, rfl, rfl⟩
    · exact .inl rfl

theorem storeAggregation_get_ne (prices : Prices) {agg : Aggregation} {m : ℕ}
    (hm : m ≠ agg.marketIndex) :
    (storeAggregation params now height prices agg).get m = prices.get m :=
  (storeAggregation_get params now height prices agg m).resolve_right fun h => hm h.1

theorem storeAggregation_get_congr {agg : Aggregation}
    (h : prices.get agg.marketIndex = prices'.get agg.marketIndex) :
    (storeAggregation params now height prices agg).get agg.marketIndex
      = (storeAggregation params now height prices' agg).get agg.marketIndex := by
  unfold storeAggregation
  rw [applyMarkSmoothing_congr params (p := {
    marketIndex := agg.marketIndex
    indexPrice := agg.indexPrice
    markPrice := agg.markPrice
    lastUpdatedTimestamp := now
    lastUpdatedHeight := height
    participantCount := agg.participantCount
    totalVotingPower := agg.totalPower }) h]
  unfold setPrice
  split
  · exact h
  · rw [Table.get_put, Table.get_put]
    split
    · rfl
    · exact h

theorem storeAggregation_comm {a b : Aggregation} (hne : a.marketIndex ≠ b.marketIndex)
    (prices : Prices) :
    storeAggregation params now height (storeAggregation params now height prices a) b
      = storeAggregation params now height (storeAggregation params now height prices b) a := by
  refine Table.ext_get fun m => ?_
  by_cases ha : m = a.marketIndex
  · subst ha
    rw [storeAggregation_get_ne _ hne]
    exact storeAggregation_get_congr (storeAggregation_get_ne _ hne).symm
  · rw [storeAggregation_get_ne (storeAggregation params now height prices b) ha]
    by_cases hb : m = b.marketIndex
    · subst hb
      exact storeAggregation_get_congr (storeAggregation_get_ne _ ha)
    · rw [storeAggregation_get_ne _ hb, storeAggregation_get_ne _ ha, storeAggregation_get_ne _ hb]

end Stores

/-! ### The same prices -/

section Order

variable {sort sort' : List (ℕ × ℕ) → List (ℕ × ℕ)} {h : VoteExtensionHandler}
  {ext ext' : ExtendedCommitInfo} {order order' : List ℕ}

theorem aggregateMarketBy_marketIndex {params : Params} {total : ℤ} {samples : List Sample} {m : ℕ}
    {agg : Aggregation} (hagg : aggregateMarketBy sort params total samples m = some agg) :
    agg.marketIndex = m := by
  rw [aggregateMarketBy] at hagg
  split at hagg
  · cases hagg
  · dsimp only at hagg
    split at hagg
    · cases hagg
    · cases hagg
      rfl

theorem aggregation_unique {params : Params} {a b : Aggregation}
    (ha : a ∈ aggregateFromExtInfoBy sort h ext params order)
    (hb : b ∈ aggregateFromExtInfoBy sort h ext params order)
    (hm : a.marketIndex = b.marketIndex) : a = b := by
  unfold aggregateFromExtInfoBy at ha hb
  dsimp only at ha hb
  split at ha
  · cases ha
  · rename_i hcond
    rw [if_neg hcond] at hb
    obtain ⟨m, -, ha⟩ := List.mem_filterMap.mp ha
    obtain ⟨m', -, hb⟩ := List.mem_filterMap.mp hb
    obtain rfl : m = m' := by
      rw [← aggregateMarketBy_marketIndex ha, ← aggregateMarketBy_marketIndex hb, hm]
    exact Option.some.inj (ha.symm.trans hb)

theorem aggregateFromExtInfoBy_perm (hsort : IsSort sort) (hsort' : IsSort sort')
    (hsame : SameCommit h.veCodec ext ext')
    (hpower : ∀ m, Roomy (2 ^ 64) ((marketSamples h.veCodec ext m).map Sample.weight))
    (hperm : order.Perm order') (params : Params) :
    (aggregateFromExtInfoBy sort h ext params order).Perm
      (aggregateFromExtInfoBy sort' h ext' params order') := by
  have hmarket : ∀ m, aggregateMarketBy sort params (totalCommittedPower ext)
      (marketSamples h.veCodec ext m) m = aggregateMarketBy sort' params (totalCommittedPower ext')
      (marketSamples h.veCodec ext' m) m := by
    intro m
    rw [totalCommittedPower_eq hsame]
    exact aggregateMarketBy_eq hsort hsort' params _ m
      ⟨fun x hx => marketSamples_weight_pos hx, hpower m⟩ (marketSamples_perm hsame m)
  have hempty : totalCommittedPower ext ≤ 0 ∨ committedVotes ext = [] ↔
      totalCommittedPower ext' ≤ 0 ∨ committedVotes ext' = [] := by
    rw [totalCommittedPower_eq hsame, committedVotes_eq_nil_iff hsame]
  rw [aggregateFromExtInfoBy, aggregateFromExtInfoBy]
  by_cases hnone : totalCommittedPower ext ≤ 0 ∨ committedVotes ext = []
  · rw [if_pos hnone, if_pos (hempty.mp hnone)]
  · rw [if_neg hnone, if_neg (mt hempty.mpr hnone), List.filterMap_congr fun m _ => hmarket m]
    exact hperm.filterMap _

/-- **Up to a power of `2 ^ 63` behind each market, the stored prices do not depend on any order.** -/
theorem preBlockerBy_eq (hsort : IsSort sort) (hsort' : IsSort sort')
    (hsame : SameCommit h.veCodec ext ext')
    (hpower : ∀ m, Roomy (2 ^ 64) ((marketSamples h.veCodec ext m).map Sample.weight))
    (horder : order.Perm (sampledMarkets h.veCodec ext))
    (horder' : order'.Perm (sampledMarkets h.veCodec ext')) {bz bz' : Bytes}
    (hbz : h.ecCodec.decode bz = .ok ext) (hbz' : h.ecCodec.decode bz' = .ok ext')
    (ctx : Context) (now height : ℤ) (rest rest' : List Bytes) (prices : Prices) :
    preBlockerBy sort h ctx now height (bz :: rest) order prices
      = preBlockerBy sort' h ctx now height (bz' :: rest') order' prices := by
  unfold preBlockerBy
  dsimp only
  rw [hbz, hbz']
  dsimp only
  split
  · rfl
  · cases ctx.params with
    | none => rfl
    | some params =>
      have hperm := aggregateFromExtInfoBy_perm hsort hsort' hsame hpower
        (horder.trans ((sampledMarkets_perm hsame).trans horder'.symm)) params
      refine hperm.foldl_eq' (fun a ha b hb z => ?_) prices
      by_cases hm : a.marketIndex = b.marketIndex
      · rw [aggregation_unique ha hb hm]
      · exact storeAggregation_comm hm z

end Order

/-! ### The bound -/

/-- The hook stores the same prices for the same votes, whatever the sort does with equal values and in
whichever order the markets are visited, if no sum of weights is doubled to `limit` or more. -/
def OrderFree (limit : ℕ) : Prop :=
  ∀ (h : VoteExtensionHandler) (ctx : Context) (now height : ℤ) (bz bz' : Bytes)
    (rest rest' : List Bytes) (ext ext' : ExtendedCommitInfo) (order order' : List ℕ)
    (sort sort' : List (ℕ × ℕ) → List (ℕ × ℕ)) (prices : Prices),
    h.ecCodec.decode bz = .ok ext → h.ecCodec.decode bz' = .ok ext' →
    SameCommit h.veCodec ext ext' → IsSort sort → IsSort sort' →
    order.Perm (sampledMarkets h.veCodec ext) → order'.Perm (sampledMarkets h.veCodec ext') →
    (∀ m, Roomy limit ((marketSamples h.veCodec ext m).map Sample.weight)) →
    preBlockerBy sort h ctx now height (bz :: rest) order prices
      = preBlockerBy sort' h ctx now height (bz' :: rest') order' prices

/-- Each byte of an extension is a price for market 0. -/
def bytePrices : Codec OracleVote where
  encode := fun _ => .error "not needed"
  decode := fun bz => .ok { prices := bz.map fun b => ⟨0, b.toNat, b.toNat⟩ }

def voteFor (power : ℤ) (prices : Bytes) : ExtendedVoteInfo where
  validator := { address := prices, power := power }
  voteExtension := prices

def insistentVote : ExtendedVoteInfo := voteFor (2 ^ 58 - 1) (List.replicate 62 1)

def insistentFirst : ExtendedCommitInfo where
  votes := [insistentVote, voteFor 32 [1], voteFor 32 [2]]

def insistentSecond : ExtendedCommitInfo where
  votes := [voteFor 32 [1], insistentVote, voteFor 32 [2]]

/-- The empty bytes stand for one order of the votes, all others for the other. -/
def twoOrders : VoteExtensionHandler where
  veCodec := bytePrices
  ecCodec := {
    encode := fun _ => .error "not needed"
    decode := fun bz => .ok (if bz = [] then insistentFirst else insistentSecond) }

def votingContext : Context where
  voteExtensionsEnableHeight := some 1

theorem sameCommit_insistent : SameCommit bytePrices insistentFirst insistentSecond := by
  refine ⟨insistentSecond.votes, List.Perm.swap _ _ _, List.forall₂_same.mpr ?_⟩
  exact fun v _ => ⟨rfl, rfl, .same _⟩

theorem weightedMedian_of_sorted {values weights : List ℕ}
    (h : (values.zip weights).Pairwise fun p q => decide (p.1 ≤ q.1) = true) :
    weightedMedian values weights = weightedMedianBy id values weights := by
  have hsorted : sortByValue (values.zip weights) = values.zip weights :=
    List.mergeSort_of_pairwise h
  rw [weightedMedian_eq, weightedMedianBy, weightedMedianBy, hsorted]
  rfl

/-- Samples in the order of their values. -/
def InOrder (samples : List Sample) : Prop :=
  samples.Pairwise fun x y => x.index ≤ y.index ∧ x.mark ≤ y.mark

instance (samples : List Sample) : Decidable (InOrder samples) :=
  inferInstanceAs (Decidable (samples.Pairwise _))

theorem medians_of_inOrder {params : Params} {samples : List Sample} (h : InOrder samples) :
    medians params samples = mediansBy id params samples := by
  have hone : ∀ {l : List Sample}, InOrder l →
      weightedMedian (l.map Sample.index) (l.map Sample.weight)
          = weightedMedianBy id (l.map Sample.index) (l.map Sample.weight) ∧
        weightedMedian (l.map Sample.mark) (l.map Sample.weight)
          = weightedMedianBy id (l.map Sample.mark) (l.map Sample.weight) := by
    intro l hl
    constructor
    · refine weightedMedian_of_sorted ?_
      rw [List.zip_map']
      exact List.pairwise_map.mpr (hl.imp fun hxy => decide_eq_true hxy.1)
    · refine weightedMedian_of_sorted ?_
      rw [List.zip_map']
      exact List.pairwise_map.mpr (hl.imp fun hxy => decide_eq_true hxy.2)
  unfold medians mediansBy
  dsimp only
  rw [(hone h).1, (hone h).2, (hone (h.filter _)).1, (hone (h.filter _)).2]

theorem preBlocker_of_inOrder {h : VoteExtensionHandler} {ext : ExtendedCommitInfo} {bz : Bytes}
    {order : List ℕ} (hdecode : h.ecCodec.decode bz = .ok ext)
    (hin : ∀ m ∈ order, InOrder (marketSamples h.veCodec ext m)) (ctx : Context) (now height : ℤ)
    (rest : List Bytes) (prices : Prices) :
    preBlocker h ctx now height (bz :: rest) order prices
      = preBlockerBy id h ctx now height (bz :: rest) order prices := by
  have hagg : ∀ params, aggregateFromExtInfo h ext params order
      = aggregateFromExtInfoBy id h ext params order := by
    intro params
    unfold aggregateFromExtInfo aggregateFromExtInfoBy
    dsimp only
    split
    · rfl
    · refine List.filterMap_congr fun m hm => ?_
      unfold aggregateMarket aggregateMarketBy
      rw [medians_of_inOrder (hin m hm)]
  unfold preBlocker preBlockerBy
  dsimp only
  rw [hdecode]
  cases ctx.params with
  | none => rfl
  | some params =>
    dsimp only
    rw [hagg]

theorem stored_insistentFirst :
    ((preBlocker twoOrders votingContext 0 2 [[]] [0] Table.empty).get 0).map
      OraclePrice.indexPrice = some 1 := by
  have hdecode : twoOrders.ecCodec.decode [] = .ok insistentFirst := rfl
  rw [preBlocker_of_inOrder hdecode (by decide +kernel)]
  decide +kernel

/-- Behind a weight of 32 it has half of the weight at its 31st sample.  Twice the weight at the next
is `2 ^ 64`, which is no word: the loop runs to the end of the list. -/
theorem stored_insistentSecond :
    ((preBlocker twoOrders votingContext 0 2 [[0]] [0] Table.empty).get 0).map
      OraclePrice.indexPrice = some 2 := by
  have hdecode : twoOrders.ecCodec.decode [0] = .ok insistentSecond := rfl
  rw [preBlocker_of_inOrder hdecode (by decide +kernel)]
  decide +kernel

theorem insistentFirst_roomy {limit : ℕ} (hlimit : 2 ^ 64 < limit) (m : ℕ) :
    Roomy limit ((marketSamples bytePrices insistentFirst m).map Sample.weight) := by
  by_cases hm : m = 0
  · subst hm
    have hsum : ((marketSamples bytePrices insistentFirst 0).map Sample.weight).sum
        = 2 ^ 64 - 2 * (2 ^ 58 - 1) := by decide +kernel
    have hmax : ∀ w ∈ (marketSamples bytePrices insistentFirst 0).map Sample.weight,
        w ≤ 2 ^ 58 - 1 := by decide +kernel
    refine ⟨by omega, fun taken w rest hperm _ hle => ?_⟩
    have hw := hmax w (hperm.mem_iff.mpr (by simp))
    omega
  · have hzero : ∀ e ∈ collected bytePrices insistentFirst, e.1 = 0 := by decide +kernel
    have hfilter : (collected bytePrices insistentFirst).filter (fun e => decide (e.1 = m)) = [] :=
      List.filter_eq_nil_iff.mpr fun e he h => hm ((of_decide_eq_true h).symm.trans (hzero e he))
    rw [marketSamples, hfilter, List.map_nil, List.map_nil]
    refine ⟨by rw [List.sum_nil]; omega, fun taken w rest hperm _ _ => ?_⟩
    simp at hperm

end PerpDex.Oracle
