/-
What the power of a commit counts for.

Main results: `power_thresholds_exact_iff`, `one_vote_iff`.

Powers are summed and multiplied as 64-bit words, without a check; the conditions are about the exact
sums, `totalPower` and `committedPower`, and how often their multiples wrap around.
-/
import PerpDex.OracleOrder
import PerpDex.Proposals

namespace PerpDex.Oracle

open Arith

variable {h : VoteExtensionHandler} {ext : ExtendedCommitInfo} {params : Params} {order : List ℕ}
  {m : ℕ} {v : ExtendedVoteInfo}

/-! ### Majorities of two thirds -/

/-- A word finds the majority in a total of `T`: it does not wrap to nothing, or to a majority, and
the two multiples that are compared wrap alike. -/
def MajorityKept (T C : ℤ) : Prop :=
  if T % 2 ^ 64 = 0 then T = 0 ∨ 2 * T < 3 * C else OrderKept (-2 ^ 63) (2 * T) (3 * C)

theorem wrap64_eq_zero_iff (x : ℤ) : wrap64 x = 0 ↔ x % 2 ^ 64 = 0 := by
  rw [wrap64_eq_sub, turns]
  omega

theorem majority_exact_iff (hvotes : ∀ v ∈ ext.votes, VoteOk v) :
    (validateExtendedCommit ext = .ok () ↔
      totalPower ext = 0 ∨ 2 * totalPower ext < 3 * committedPower ext) ↔
      MajorityKept (totalPower ext) (committedPower ext) := by
  have hok : validateExtendedCommit ext = .ok () ↔ totalPower ext % 2 ^ 64 = 0 ∨
      wrap64 (2 * totalPower ext) < wrap64 (3 * committedPower ext) := by
    rw [validateExtendedCommit_ok_iff, wrap64_eq_zero_iff]
    exact and_iff_right hvotes
  rw [hok, MajorityKept]
  split_ifs with hzero
  · simp only [hzero, true_or, true_iff]
  · have hne : totalPower ext ≠ 0 := fun h => hzero (by rw [h, Int.zero_emod])
    rw [← words_lt_iff, ← wrap64_eq_sub, ← wrap64_eq_sub]
    simp only [hzero, hne, false_or]

theorem majorityKept_iff_of_lt {T C : ℤ} (hlow : 0 ≤ C) (hle : C ≤ T) (hT : T < 2 ^ 63) :
    MajorityKept T C ↔ (2 * T < 2 ^ 63 ↔ 3 * C < 2 ^ 63) := by
  have hturns : ∀ x, 0 ≤ x → x < 2 ^ 64 + 2 ^ 63 → turns (-2 ^ 63) x = if x < 2 ^ 63 then 0 else 1 := by
    intro x hx hx'
    unfold turns
    split_ifs <;> omega
  unfold MajorityKept OrderKept
  rw [hturns (2 * T) (by omega) (by omega), hturns (3 * C) (by omega) (by omega)]
  split_ifs <;> omega

/-! ### Quorums -/

def sampledPower (veCodec : Codec OracleVote) (ext : ExtendedCommitInfo) (m : ℕ) : ℕ :=
  ((marketSamples veCodec ext m).map Sample.weight).sum

theorem medians_ne_zero (params : Params) {samples : List Sample} (hne : samples ≠ [])
    (hpos : ∀ x ∈ samples, 0 < x.index ∧ 0 < x.mark) :
    (medians params samples).1 ≠ 0 ∧ (medians params samples).2 ≠ 0 := by
  have hmedian : ∀ l : List Sample, l ≠ [] → l ⊆ samples →
      weightedMedian (l.map Sample.index) (l.map Sample.weight) ≠ 0 ∧
        weightedMedian (l.map Sample.mark) (l.map Sample.weight) ≠ 0 := by
    intro l hl hsub
    obtain ⟨x, hx, hi⟩ := weightedMedian_mem hl Sample.index Sample.weight
    obtain ⟨y, hy, hk⟩ := weightedMedian_mem hl Sample.mark Sample.weight
    rw [hi, hk]
    exact ⟨(hpos x (hsub hx)).1.ne', (hpos y (hsub hy)).2.ne'⟩
  have hall := hmedian samples hne (List.Subset.refl _)
  unfold medians
  dsimp only
  split_ifs with hoff hnone
  · exact hall
  · exact hall
  · exact hmedian _ hnone List.filter_sublist.subset

theorem mem_sampledMarkets_iff {veCodec : Codec OracleVote} :
    m ∈ sampledMarkets veCodec ext ↔ marketSamples veCodec ext m ≠ [] := by
  rw [sampledMarkets, List.mem_dedup, marketSamples, ne_eq, List.map_eq_nil_iff,
    List.filter_eq_nil_iff, List.mem_map]
  simp

theorem committedVotes_ok (hvotes : ∀ v ∈ ext.votes, VoteOk v) :
    ∀ v ∈ committedVotes ext, VoteOk v := fun v hv => hvotes v (List.mem_filter.mp hv).1

theorem committedPower_pos (hvotes : ∀ v ∈ ext.votes, VoteOk v)
    (hsampled : marketSamples h.veCodec ext m ≠ []) : 0 < committedPower ext := by
  obtain ⟨x, hx⟩ := List.exists_mem_of_ne_nil _ hsampled
  obtain ⟨v, hv, hx⟩ := mem_marketSamples hx
  obtain ⟨-, -, -, -, -, -, hweight, hpos⟩ := mem_voteSamples hx
  have hpower : 0 < v.validator.power := by
    have hnonneg := (committedVotes_ok hvotes v hv).power
    rw [hweight, uint64] at hpos
    omega
  refine hpower.trans_le (List.single_le_sum (fun p hp => ?_) _ (List.mem_map_of_mem hv))
  obtain ⟨u, hu, rfl⟩ := List.mem_map.mp hp
  exact (committedVotes_ok hvotes u hu).power

/-- **A sampled market gets a price** unless the words of the two sides of the quorum say that it has
none. -/
theorem mem_aggregateFromExtInfo_iff (params : Params) (hvotes : ∀ v ∈ ext.votes, VoteOk v)
    (hword : committedPower ext < 2 ^ 63) (hsampled : marketSamples h.veCodec ext m ≠ [])
    (hm : m ∈ order) :
    (∃ a ∈ aggregateFromExtInfo h ext params order, a.marketIndex = m) ↔
      ¬ word64 (sampledPower h.veCodec ext m * 10000)
        < word64 ((committedPower ext).toNat * params.minVotingPowerRatio) := by
  have hpos := committedPower_pos hvotes hsampled
  have htotal : totalCommittedPower ext = committedPower ext := by
    rw [totalCommittedPower, foldl_wrap64, ← committedPower]
    exact wrap64_of_mem (by omega) hword
  have hunsigned : uint64 (committedPower ext) = (committedPower ext).toNat := by
    rw [uint64, Int.emod_eq_of_lt (by omega) (by omega)]
  have hnil : committedVotes ext ≠ [] := by
    intro hnil
    rw [committedPower, hnil, List.map_nil, List.sum_nil] at hpos
    exact lt_irrefl 0 hpos
  have hprices : ∀ x ∈ marketSamples h.veCodec ext m, 0 < x.index ∧ 0 < x.mark := by
    intro x hx
    obtain ⟨v, -, hx⟩ := mem_marketSamples hx
    obtain ⟨_, _, -, -, ⟨-, hindex⟩, ⟨-, hmark⟩, -⟩ := mem_voteSamples hx
    exact ⟨hindex, hmark⟩
  have hmedians := medians_ne_zero params hsampled hprices
  have hweight : word64 (word64 (sampledPower h.veCodec ext m) * 10000)
      = word64 (sampledPower h.veCodec ext m * 10000) := by
    unfold word64
    omega
  -- the ratio is not looked at if it is zero, but then nothing is below the quorum
  have hratio : word64 (sampledPower h.veCodec ext m * 10000)
      < word64 ((committedPower ext).toNat * params.minVotingPowerRatio) →
      0 < params.minVotingPowerRatio := by
    intro hlt
    by_contra hzero
    rw [Nat.eq_zero_of_not_pos hzero, Nat.mul_zero] at hlt
    exact absurd hlt (Nat.not_lt_zero _)
  have hone : aggregateMarket params (committedPower ext) (marketSamples h.veCodec ext m) m = none ↔
      word64 (sampledPower h.veCodec ext m * 10000)
        < word64 ((committedPower ext).toNat * params.minVotingPowerRatio) := by
    rw [aggregateMarket, foldl_word64, hunsigned]
    dsimp only
    rw [← sampledPower, hweight, if_neg (not_or.mpr hmedians)]
    split_ifs with hquorum
    · exact iff_of_true rfl hquorum.2.2
    · refine iff_of_false id fun hlt => ?_
      exact hquorum ⟨hratio hlt, by omega, hlt⟩
  rw [aggregateFromExtInfo, htotal, if_neg (not_or.mpr ⟨hpos.not_ge, hnil⟩), ← hone, ← ne_eq, Option.ne_none_iff_exists']
  constructor
  · rintro ⟨a, ha, rfl⟩
    obtain ⟨m', -, ha⟩ := List.mem_filterMap.mp ha
    obtain rfl := (aggregateMarket_some ha).1
    exact ⟨a, ha⟩
  · rintro ⟨a, ha⟩
    exact ⟨a, List.mem_filterMap.mpr ⟨m, hm, ha⟩, (aggregateMarket_some ha).1⟩

theorem quorum_exact_iff (hvotes : ∀ v ∈ ext.votes, VoteOk v)
    (hword : committedPower ext < 2 ^ 63) (hm : m ∈ order) (hsampled : m ∈ sampledMarkets h.veCodec ext) :
    ((∀ a ∈ aggregateFromExtInfo h ext params order, a.marketIndex ≠ m) ↔
      sampledPower h.veCodec ext m * 10000 < committedPower ext * params.minVotingPowerRatio) ↔
      OrderKept 0 (sampledPower h.veCodec ext m * 10000)
        (committedPower ext * params.minVotingPowerRatio) := by
  have hin := mem_aggregateFromExtInfo_iff params hvotes hword
    (mem_sampledMarkets_iff.mp hsampled) hm
  have hcast : (((committedPower ext).toNat * params.minVotingPowerRatio : ℕ) : ℤ)
      = committedPower ext * params.minVotingPowerRatio := by
    rw [Nat.cast_mul, Int.toNat_of_nonneg (committedPower_le hvotes).1]
  have hout : (∀ a ∈ aggregateFromExtInfo h ext params order, a.marketIndex ≠ m) ↔
      word64 (sampledPower h.veCodec ext m * 10000)
        < word64 ((committedPower ext).toNat * params.minVotingPowerRatio) := by
    rw [← not_iff_not, ← hin]
    push Not
    rfl
  rw [hout, ← Nat.cast_lt (α := ℤ), word64_eq_sub, word64_eq_sub, hcast, Nat.cast_mul]
  exact words_lt_iff 0 _ _

/-- **When thresholds of power are exact.**  The check of a commit finds the majorities of two thirds
if and only if the multiples of the powers wrap around alike; for a total that is a word, if both are
words or none is.  A market is left out for lack of a quorum exactly when it has none if and only if
the two sides of the quorum wrap around alike. -/
theorem power_thresholds_exact_iff (h : VoteExtensionHandler) (ext : ExtendedCommitInfo)
    (params : Params) (order : List ℕ) (m : ℕ) (hvotes : ∀ v ∈ ext.votes, VoteOk v) :
    ((validateExtendedCommit ext = .ok () ↔
        totalPower ext = 0 ∨ 2 * totalPower ext < 3 * committedPower ext) ↔
      MajorityKept (totalPower ext) (committedPower ext)) ∧
    (totalPower ext < 2 ^ 63 → (MajorityKept (totalPower ext) (committedPower ext) ↔
      (2 * totalPower ext < 2 ^ 63 ↔ 3 * committedPower ext < 2 ^ 63))) ∧
    (totalPower ext ≤ (2 ^ 63 - 1) / 8 → m ∈ order → m ∈ sampledMarkets h.veCodec ext →
      (((∀ a ∈ aggregateFromExtInfo h ext params order, a.marketIndex ≠ m) ↔
        sampledPower h.veCodec ext m * 10000 < committedPower ext * params.minVotingPowerRatio) ↔
      OrderKept 0 (sampledPower h.veCodec ext m * 10000)
        (committedPower ext * params.minVotingPowerRatio))) := by
  obtain ⟨hlow, hle⟩ := committedPower_le hvotes
  refine ⟨majority_exact_iff hvotes, fun hT => majorityKept_iff_of_lt hlow hle hT, ?_⟩
  intro hT hm hsampled
  exact quorum_exact_iff hvotes (by omega) hm hsampled

theorem power_thresholds_exact_iff_seen :
    let h := handlerFor seenCommit [7]
    (validateExtendedCommit seenCommit = .ok () ↔
      totalPower seenCommit = 0 ∨ 2 * totalPower seenCommit < 3 * committedPower seenCommit) ∧
    ((∀ a ∈ aggregateFromExtInfo h seenCommit {} [0], a.marketIndex ≠ 0) ↔
      sampledPower h.veCodec seenCommit 0 * 10000 < committedPower seenCommit * 6667) := by
  intro h
  have hvotes := ((validateExtendedCommit_ok_iff seenCommit).mp (by decide +kernel)).1
  obtain ⟨hmajority, hword, hquorum⟩ := power_thresholds_exact_iff h seenCommit {} [0] 0 hvotes
  refine ⟨hmajority.mpr ((hword (by decide +kernel)).mpr (by decide +kernel)), ?_⟩
  exact (hquorum (by decide +kernel) (by decide) (by decide +kernel)).mpr (.inl (by decide +kernel))

/-- One validator of a power of `2 ^ 62`, who was absent. -/
def absentMajority : ExtendedCommitInfo where
  votes := [{ validator := ⟨[1], 2 ^ 62⟩, blockIdFlag := .absent }]

def oneVoter : ExtendedCommitInfo where
  votes := [voteFor 1844674407370956 [1]]

/-- A commit without a vote passes, and a market that everybody voted for gets no price: twice `2 ^ 62`
is the least of the signed words, and ten thousand times the power wraps to 8384. -/
theorem power_thresholds_wrap :
    (validateExtendedCommit absentMajority = .ok () ∧ totalPower absentMajority = 2 ^ 62 ∧
      committedPower absentMajority = 0) ∧
    totalPower oneVoter ≤ (2 ^ 63 - 1) / 8 ∧ sampledMarkets bytePrices oneVoter = [0] ∧
      aggregateFromExtInfo twoOrders oneVoter {} [0] = [] ∧
      ¬ (sampledPower bytePrices oneVoter 0 * 10000 < committedPower oneVoter * 6667) := by
  decide +kernel

/-! ### One vote -/

/-- **A vote counts for no more than its power** if and only if, among the prices that count, it lists
no market twice. -/
theorem votePower_le_iff {veCodec : Codec OracleVote} (hlow : 0 ≤ v.validator.power)
    (hword : v.validator.power < 2 ^ 63) :
    (∀ m, (((voteSamples veCodec m v).map Sample.weight).sum : ℤ) ≤ v.validator.power) ↔
      ((countedPrices veCodec v).map MarketPrice.marketIndex).Nodup := by
  refine ⟨fun hle => ?_, fun honce m => sum_voteSamples_le hlow honce⟩
  rw [List.nodup_iff_count_le_one]
  intro m
  by_contra! htwice
  have hpos : 0 < uint64 v.validator.power := by
    obtain ⟨p, hp, -⟩ := List.mem_map.mp (List.count_pos_iff.mp (Nat.zero_lt_of_lt htwice))
    obtain ⟨-, -, -, -, -, hpos⟩ := mem_countedPrices hp
    exact hpos
  have hm := hle m
  rw [sum_voteSamples] at hm
  have hdouble := Nat.mul_le_mul_right (uint64 v.validator.power) htwice
  have hunsigned : (uint64 v.validator.power : ℤ) = v.validator.power := by
    rw [uint64, Int.emod_eq_of_lt hlow (by omega), Int.toNat_of_nonneg hlow]
  omega

/-- No more power stands behind a market than was committed: not in what a vote adds to it, not in what
its medians and its quorum count, and not in what is stored. -/
structure OneVote (h : VoteExtensionHandler) (ext : ExtendedCommitInfo) (tx : Bytes) (m : ℕ) :
    Prop where
  vote : ∀ v ∈ committedVotes ext,
    (((voteSamples h.veCodec m v).map Sample.weight).sum : ℤ) ≤ v.validator.power
  market : (sampledPower h.veCodec ext m : ℤ) ≤ committedPower ext
  aggregated : ∀ params order, ∀ a ∈ aggregateFromExtInfo h ext params order, a.marketIndex = m →
    (a.totalPower : ℤ) ≤ committedPower ext
  stored : ∀ ctx now height rest order (prices : Prices) p,
    (preBlocker h ctx now height (tx :: rest) order prices).get m = some p →
      prices.get m = some p ∨ (p.totalVotingPower : ℤ) ≤ committedPower ext

theorem sampledPower_le (hvote : ∀ v ∈ committedVotes ext,
    (((voteSamples h.veCodec m v).map Sample.weight).sum : ℤ) ≤ v.validator.power) :
    (sampledPower h.veCodec ext m : ℤ) ≤ committedPower ext := by
  rw [sampledPower, marketSamples_eq, committedPower]
  generalize committedVotes ext = votes at hvote
  induction votes with
  | nil => exact le_rfl
  | cons v rest ih =>
    obtain ⟨hv, hrest⟩ := List.forall_mem_cons.mp hvote
    rw [List.flatMap_cons, List.map_append, List.sum_append, Nat.cast_add, List.map_cons,
      List.sum_cons]
    exact add_le_add hv (ih hrest)

theorem storeAggregations_power {now height : ℤ} (aggs : List Aggregation) (prices : Prices)
    {p : OraclePrice} (hp : (aggs.foldl (storeAggregation params now height) prices).get m = some p) :
    prices.get m = some p ∨ ∃ a ∈ aggs, a.marketIndex = m ∧ p.totalVotingPower = a.totalPower := by
  induction aggs generalizing prices with
  | nil => exact .inl hp
  | cons a rest ih =>
    rcases ih _ hp with hstored | ⟨b, hb, hbm, hpower⟩
    · rcases storeAggregation_get params now height prices a m
        with hold | ⟨rfl, q, hq, hpower⟩
      · exact .inl (hold.symm.trans hstored)
      · cases hq.symm.trans hstored
        exact .inr ⟨a, List.mem_cons_self, rfl, hpower⟩
    · exact .inr ⟨b, List.mem_cons_of_mem a hb, hbm, hpower⟩

theorem OneVote.of_vote {tx : Bytes} (hdecode : h.ecCodec.decode tx = .ok ext)
    (hvote : ∀ v ∈ committedVotes ext,
      (((voteSamples h.veCodec m v).map Sample.weight).sum : ℤ) ≤ v.validator.power) :
    OneVote h ext tx m := by
  have hmarket := sampledPower_le hvote
  have hagg : ∀ params order, ∀ a ∈ aggregateFromExtInfo h ext params order, a.marketIndex = m →
      (a.totalPower : ℤ) ≤ committedPower ext := by
    rintro params order a ha rfl
    rw [(mem_aggregateFromExtInfo ha).2]
    exact (Nat.cast_le.mpr (Nat.mod_le _ _)).trans hmarket
  refine ⟨hvote, hmarket, hagg, fun ctx now height rest order prices p hp => ?_⟩
  unfold preBlocker at hp
  split at hp
  · exact .inl hp
  · dsimp only at hp
    rw [hdecode] at hp
    cases hparams : ctx.params with
    | none =>
      rw [hparams] at hp
      exact .inl hp
    | some params =>
      rw [hparams] at hp
      refine (storeAggregations_power _ prices hp).imp_right ?_
      rintro ⟨a, ha, ham, hpower⟩
      rw [hpower]
      exact hagg params order a ha ham

/-- **One validator, one vote.**  In an accepted proposal, no market is backed by more power than was
committed, and by no vote with more than its power, if and only if no committed vote lists a market
twice among the prices of it that count. -/
theorem one_vote_iff {ctx : Context} {process : ProcessProposalHandler}
    {req : RequestProcessProposal} {tx : Bytes} {rest : List Bytes}
    (henabled : veEnabled ctx req.height = true)
    (haccept : processProposal h process ctx req = (.accept, none)) (htxs : req.txs = tx :: rest)
    (hdecode : h.ecCodec.decode tx = .ok ext)
    (hword : ∀ v ∈ ext.votes, v.validator.power < 2 ^ 63) :
    (∀ m, OneVote h ext tx m) ↔ ∀ v ∈ committedVotes ext,
      ((countedPrices h.veCodec v).map MarketPrice.marketIndex).Nodup := by
  obtain ⟨tx', rest', ext', htxs', hdecode', hok, -⟩ :=
    (processProposal_accept_iff henabled).mp haccept
  obtain ⟨rfl, rfl⟩ := List.cons.inj (htxs'.symm.trans htxs)
  obtain rfl := Except.ok.inj (hdecode'.symm.trans hdecode)
  have hlow := committedVotes_ok hok.votes
  have hwords : ∀ v ∈ committedVotes ext', v.validator.power < 2 ^ 63 := fun v hv =>
    hword v (List.mem_filter.mp hv).1
  constructor
  · intro hone v hv
    exact (votePower_le_iff (hlow v hv).power (hwords v hv)).mp fun m => (hone m).vote v hv
  · intro honce m
    refine .of_vote hdecode fun v hv => ?_
    exact (votePower_le_iff (hlow v hv).power (hwords v hv)).mpr (honce v hv) m

/-- The votes that were seen list one market once. -/
theorem one_vote_iff_seen :
    let h := handlerFor seenCommit [7]
    processProposal h (fun _ _ => (.accept, none)) enabledContext (proposalOf [[7]]) = (.accept, none) ∧
      ∀ m, OneVote h seenCommit [7] m := by
  intro h
  have haccept : processProposal h (fun _ _ => (.accept, none)) enabledContext (proposalOf [[7]])
      = (.accept, none) := by decide +kernel
  exact ⟨haccept, (one_vote_iff (by decide) haccept (show _ = _ :: [] from rfl) (by decide +kernel)
    (by decide +kernel)).mpr (by decide +kernel)⟩

/-- A validator of power 10 lists market 0 twice. -/
def doubleCommit : ExtendedCommitInfo where
  votes := [{ validator := ⟨[1], 10⟩, voteExtension := [1, 1], extensionSignature := [6] }]

def doubleHandler : VoteExtensionHandler where
  veCodec := bytePrices
  ecCodec := onlyCodec doubleCommit [7]

/-- **A market that is listed twice is backed twice.**  The proposal is accepted, and the price is
stored with a power of 20. -/
theorem double_listing_counts_twice :
    processProposal doubleHandler (fun _ _ => (.accept, none)) enabledContext (proposalOf [[7]])
        = (.accept, none) ∧
      doubleHandler.ecCodec.decode [7] = .ok doubleCommit ∧ committedPower doubleCommit = 10 ∧
      sampledPower doubleHandler.veCodec doubleCommit 0 = 20 ∧
      ((preBlocker doubleHandler enabledContext 0 10 [[7]] [0] Table.empty).get 0).map
        OraclePrice.totalVotingPower = some 20 := by
  have hdecode : doubleHandler.ecCodec.decode [7] = .ok doubleCommit := by decide +kernel
  rw [preBlocker_of_inOrder hdecode (by decide +kernel)]
  decide +kernel

end PerpDex.Oracle
