/-
The prices that a commit yields, against voters that lie.

* `weightedMedianBy` — the median with the order that a sort gives to equal values as a parameter; on
  weights of at most `2 ^ 63` it is the weighted median.

Main result: `oracle_honest_majority`.

The filter may drop the honest majority, so nothing is known of the second median but that it is one of
the samples that are left, and these are close to the first one.
-/
import PerpDex.Median
import PerpDex.PriceFeed

namespace PerpDex.Oracle

open Arith Median

/-! ### The median of the source -/

/-- Sort the pairs of a value and a weight by value, in any order of equal ones. -/
structure IsSort (sort : List (ℕ × ℕ) → List (ℕ × ℕ)) : Prop where
  perm : ∀ l, (sort l).Perm l
  sorted : ∀ l, (sort l).Pairwise fun p q => p.1 ≤ q.1

def sortByValue (l : List (ℕ × ℕ)) : List (ℕ × ℕ) := l.mergeSort fun p q => decide (p.1 ≤ q.1)

theorem isSort_sortByValue : IsSort sortByValue where
  perm l := List.mergeSort_perm l _
  sorted l := by
    have h : (sortByValue l).Pairwise fun p q => decide (p.1 ≤ q.1) = true :=
      List.pairwise_mergeSort (fun a b c => by simpa using le_trans)
        (fun a b => by simpa using le_total a.1 b.1) l
    exact h.imp fun h => of_decide_eq_true h

/-- `weightedMedian` with any sort. -/
def weightedMedianBy (sort : List (ℕ × ℕ) → List (ℕ × ℕ)) (values weights : List ℕ) : ℕ :=
  if values = [] ∨ values.length ≠ weights.length then 0
  else
    let total := weights.foldl (fun t w => word64 (t + w)) 0
    let pairs := sort (values.zip weights)
    match medianWalk total 0 pairs with
    | some v => v
    | none => (pairs.getLast?.map Prod.fst).getD 0

theorem weightedMedian_eq (values weights : List ℕ) :
    weightedMedian values weights = weightedMedianBy sortByValue values weights := rfl

theorem foldl_word64 {α : Type} (f : α → ℕ) (l : List α) :
    l.foldl (fun t x => word64 (t + f x)) 0 = word64 (l.map f).sum := by
  have hword : ∀ a b : ℕ, word64 (word64 a + b) = word64 (a + b) := by
    unfold word64
    omega
  have h := foldl_words hword f l 0
  rwa [zero_add] at h

/-- Weights of which the loop never doubles a sum to `limit` or more; what the last weight of all does
is of no consequence. -/
structure Roomy (limit : ℕ) (weights : List ℕ) : Prop where
  total : weights.sum < limit
  double : ∀ taken w rest, weights.Perm (taken ++ w :: rest) → rest ≠ [] →
    2 * taken.sum ≤ weights.sum → 2 * (taken.sum + w) < limit

namespace Roomy

variable {limit : ℕ} {weights weights' : List ℕ}

theorem of_sum_le (hpos : ∀ w ∈ weights, 0 < w) (hsum : weights.sum ≤ 2 ^ 63) :
    Roomy (2 ^ 64) weights where
  total := by omega
  double taken w rest hperm hne _ := by
    obtain ⟨y, rest, rfl⟩ := List.exists_cons_of_ne_nil hne
    have hy : 0 < y := hpos y (hperm.mem_iff.mpr (by simp))
    have heq := hperm.sum_eq
    simp only [List.sum_append, List.sum_cons] at heq
    omega

theorem mono {limit' : ℕ} (h : Roomy limit weights) (hle : limit ≤ limit') : Roomy limit' weights where
  total := h.total.trans_le hle
  double taken w rest hperm hne hsum := (h.double taken w rest hperm hne hsum).trans_le hle

theorem perm (h : Roomy limit weights) (hperm : weights.Perm weights') : Roomy limit weights' where
  total := hperm.sum_eq ▸ h.total
  double taken w rest htaken hne hle := by
    rw [← hperm.sum_eq] at hle
    exact h.double taken w rest (hperm.trans htaken) hne hle

theorem sublist (h : Roomy limit weights) (hsub : weights'.Sublist weights) :
    Roomy limit weights' where
  total := (hsub.sum_le_sum fun _ _ => Nat.zero_le _).trans_lt h.total
  double taken w rest htaken hne hle := by
    obtain ⟨others, hothers⟩ := hsub.exists_perm_append
    refine h.double taken w (rest ++ others) ?_ (by simp [hne]) ?_
    · refine hothers.trans ((htaken.append_right others).trans ?_)
      rw [List.append_assoc, List.cons_append]
    · exact hle.trans (hsub.sum_le_sum fun _ _ => Nat.zero_le _)

end Roomy

/-- The loop of the source stops where the exact walk stops, or falls back to its last value, which is
the same. -/
theorem medianWalk_of_walk {total cum v : ℕ} {l : List (ℕ × ℕ)} (htotal : total < 2 ^ 64)
    (hsum : cum + weight l = total)
    (hroom : ∀ pre x rest, l = pre ++ x :: rest → rest ≠ [] → 2 * (cum + weight pre) ≤ total →
      2 * (cum + weight pre + x.2) < 2 ^ 64)
    (hcum : 2 * cum ≤ total) (hwalk : walk total cum l = some v) :
    medianWalk total cum l = some v ∨
      medianWalk total cum l = none ∧ l.getLast?.map Prod.fst = some v := by
  induction l generalizing cum with
  | nil => cases hwalk
  | cons x rest ih =>
    rw [weight_cons] at hsum
    have hadd : word64 (cum + x.2) = cum + x.2 := word64_of_lt (by omega)
    rw [walk] at hwalk
    rw [medianWalk, hadd]
    split at hwalk
    · rename_i hpass
      cases hwalk
      by_cases hlast : rest = []
      · -- the doubled weight may overflow, but nothing is left
        subst hlast
        split
        · exact .inl rfl
        · exact .inr ⟨rfl, rfl⟩
      · have hsmall := hroom [] x rest rfl hlast (by simpa using hcum)
        rw [weight_nil, Nat.add_zero] at hsmall
        have hdouble : word64 ((cum + x.2) * 2) = (cum + x.2) * 2 := word64_of_lt (by omega)
        rw [hdouble, if_pos (by omega)]
        exact .inl rfl
    · rename_i hpass
      have hdouble : word64 ((cum + x.2) * 2) ≤ (cum + x.2) * 2 := Nat.mod_le _ _
      rw [if_neg (by omega)]
      have hrest : rest ≠ [] := by
        rintro rfl
        cases hwalk
      have hroom' : ∀ pre y rest', rest = pre ++ y :: rest' → rest' ≠ [] →
          2 * (cum + x.2 + weight pre) ≤ total → 2 * (cum + x.2 + weight pre + y.2) < 2 ^ 64 := by
        intro pre y rest' hsplit hne hle
        have h := hroom (x :: pre) y rest' (by rw [hsplit, List.cons_append]) hne
          (by rw [weight_cons]; omega)
        rw [weight_cons] at h
        omega
      rcases ih (by omega) hroom' (by omega) hwalk with h | ⟨h, hlast⟩
      · exact .inl h
      · refine .inr ⟨h, ?_⟩
        rw [List.getLast?_cons_of_ne_nil hrest]
        exact hlast

theorem weightedMedianBy_isMedian {sort : List (ℕ × ℕ) → List (ℕ × ℕ)} (hsort : IsSort sort)
    {α : Type} {l : List α} (hne : l ≠ []) (f g : α → ℕ) (hpos : ∀ x ∈ l, 0 < g x)
    (hroom : Roomy (2 ^ 64) (l.map g)) :
    IsMedian (l.map fun x => (f x, g x)) (weightedMedianBy sort (l.map f) (l.map g)) := by
  have hzip : (l.map f).zip (l.map g) = l.map fun x => (f x, g x) := by
    rw [List.zip_map']
  set pairs := sort (l.map fun x => (f x, g x)) with hpairs
  have hperm : pairs.Perm (l.map fun x => (f x, g x)) := hsort.perm _
  have hweight : weight pairs = (l.map g).sum := by
    rw [weight_perm hperm, weight, List.map_map]
    rfl
  have hroomy : ∀ pre x rest, pairs = pre ++ x :: rest → rest ≠ [] →
      2 * (0 + weight pre) ≤ (l.map g).sum → 2 * (0 + weight pre + x.2) < 2 ^ 64 := by
    intro pre x rest hsplit hne' hle
    rw [Nat.zero_add] at hle ⊢
    have hweights := hperm.symm.map Prod.snd
    rw [hsplit, List.map_append, List.map_cons, List.map_map] at hweights
    exact hroom.double _ x.2 _ hweights (by simp [hne']) hle
  have htotal : 0 < (l.map g).sum := by
    obtain ⟨x, hx⟩ := List.exists_mem_of_ne_nil l hne
    exact (hpos x hx).trans_le (List.single_le_sum (fun _ _ => Nat.zero_le _) _
      (List.mem_map_of_mem hx))
  obtain ⟨v, hv⟩ := exists_walk (l := pairs) htotal (by rw [hweight, Nat.zero_add]) (Nat.zero_le _)
  have hmedian : IsMedian (l.map fun x => (f x, g x)) v := by
    refine (walk_isMedian (hsort.sorted _) ?_).perm hperm
    rw [← hpairs, hweight]
    exact hv
  have hword : (l.map g).foldl (fun t w => word64 (t + w)) 0 = (l.map g).sum := by
    have h := foldl_word64 id (l.map g)
    rw [List.map_id] at h
    exact h.trans (word64_of_lt hroom.total)
  have hresult : weightedMedianBy sort (l.map f) (l.map g) = v := by
    have hguard : ¬ (l.map f = [] ∨ (l.map f).length ≠ (l.map g).length) := by
      simp [hne]
    rw [weightedMedianBy, if_neg hguard, hword, hzip, ← hpairs]
    dsimp only
    rcases medianWalk_of_walk hroom.total (by rw [hweight, Nat.zero_add]) hroomy (Nat.zero_le _) hv
      with h | ⟨h, hlast⟩
    · rw [h]
    · rw [h, hlast]
      rfl
  rw [hresult]
  exact hmedian

theorem medianWalk_mem {total cum v : ℕ} {l : List (ℕ × ℕ)} (h : medianWalk total cum l = some v) :
    ∃ x ∈ l, x.1 = v := by
  induction l generalizing cum with
  | nil => cases h
  | cons x rest ih =>
    rw [medianWalk] at h
    split at h
    · exact ⟨x, List.mem_cons_self, Option.some.inj h⟩
    · obtain ⟨y, hy, hv⟩ := ih h
      exact ⟨y, List.mem_cons_of_mem x hy, hv⟩

theorem weightedMedian_mem {α : Type} {l : List α} (hne : l ≠ []) (f g : α → ℕ) :
    ∃ x ∈ l, weightedMedian (l.map f) (l.map g) = f x := by
  set pairs := sortByValue (l.map fun x => (f x, g x)) with hpairs
  have hperm : pairs.Perm (l.map fun x => (f x, g x)) := isSort_sortByValue.perm _
  have hback : ∀ p ∈ pairs, ∃ x ∈ l, p.1 = f x := by
    intro p hp
    obtain ⟨x, hx, rfl⟩ := List.mem_map.mp (hperm.mem_iff.mp hp)
    exact ⟨x, hx, rfl⟩
  have hpairs_ne : pairs ≠ [] := fun hnil => by
    rw [hnil, List.nil_perm, List.map_eq_nil_iff] at hperm
    exact hne hperm
  rw [weightedMedian_eq, weightedMedianBy, if_neg (by simp [hne]), List.zip_map', ← hpairs]
  dsimp only
  cases hwalk : medianWalk ((l.map g).foldl (fun t w => word64 (t + w)) 0) 0 pairs with
  | some v =>
    obtain ⟨p, hp, rfl⟩ := medianWalk_mem hwalk
    exact hback p hp
  | none =>
    obtain ⟨x, hx, hlast⟩ := hback _ (List.getLast_mem hpairs_ne)
    refine ⟨x, hx, ?_⟩
    rw [List.getLast?_eq_some_getLast hpairs_ne, Option.map_some, Option.getD_some, hlast]

/-! ### Samples of a market -/

def voteSamples (veCodec : Codec OracleVote) (m : ℕ) (v : ExtendedVoteInfo) : List Sample :=
  ((samplesOf veCodec v).filter fun e => decide (e.1 = m)).map Prod.snd

section Samples

variable {veCodec : Codec OracleVote} {ext : ExtendedCommitInfo} {m : ℕ} {v : ExtendedVoteInfo}

theorem marketSamples_eq (veCodec : Codec OracleVote) (ext : ExtendedCommitInfo) (m : ℕ) :
    marketSamples veCodec ext m = (committedVotes ext).flatMap (voteSamples veCodec m) := by
  rw [marketSamples, collected, List.filter_flatMap, List.map_flatMap]
  rfl

/-- The prices of a vote that count. -/
def countedPrices (veCodec : Codec OracleVote) (v : ExtendedVoteInfo) : List MarketPrice :=
  if v.voteExtension = [] ∨ uint64 v.validator.power = 0 then []
  else match veCodec.decode v.voteExtension with
  | .error _ => []
  | .ok ov => ov.prices.filter fun p => decide (¬ (p.indexPrice = 0 ∨ p.markPrice = 0))

theorem voteSamples_eq (veCodec : Codec OracleVote) (m : ℕ) (v : ExtendedVoteInfo) :
    voteSamples veCodec m v = ((countedPrices veCodec v).filter fun p => decide (p.marketIndex = m)).map
      fun p => { index := p.indexPrice, mark := p.markPrice, weight := uint64 v.validator.power } := by
  unfold voteSamples samplesOf countedPrices
  by_cases hnil : v.voteExtension = []
  · simp [hnil]
  · cases veCodec.decode v.voteExtension with
    | error e => simp
    | ok ov =>
      by_cases hw : uint64 v.validator.power = 0
      · simp [hw]
      · simp only [hnil, hw, or_self, if_false]
        rw [List.filter_map, List.map_map]
        rfl

theorem mem_countedPrices {p : MarketPrice} (hp : p ∈ countedPrices veCodec v) :
    ∃ ov, veCodec.decode v.voteExtension = .ok ov ∧ p ∈ ov.prices ∧ 0 < p.indexPrice ∧
      0 < p.markPrice ∧ 0 < uint64 v.validator.power := by
  rw [countedPrices] at hp
  split_ifs at hp with hempty
  · cases hp
  · split at hp
    · cases hp
    · rename_i ov hdecode
      obtain ⟨hp, hprices⟩ := List.mem_filter.mp hp
      obtain ⟨hindex, hmark⟩ := not_or.mp (of_decide_eq_true hprices)
      exact ⟨ov, hdecode, hp, Nat.pos_of_ne_zero hindex, Nat.pos_of_ne_zero hmark,
        Nat.pos_of_ne_zero (not_or.mp hempty).2⟩

theorem mem_voteSamples {x : Sample} (hx : x ∈ voteSamples veCodec m v) :
    ∃ ov p, veCodec.decode v.voteExtension = .ok ov ∧ p ∈ ov.prices ∧
      (x.index = p.indexPrice ∧ 0 < x.index) ∧ (x.mark = p.markPrice ∧ 0 < x.mark) ∧
      x.weight = uint64 v.validator.power ∧ 0 < x.weight := by
  rw [voteSamples_eq] at hx
  obtain ⟨p, hp, rfl⟩ := List.mem_map.mp hx
  obtain ⟨ov, hdecode, hp, hindex, hmark, hw⟩ := mem_countedPrices (List.mem_filter.mp hp).1
  exact ⟨ov, p, hdecode, hp, ⟨rfl, hindex⟩, ⟨rfl, hmark⟩, rfl, hw⟩

theorem mem_marketSamples {x : Sample} (hx : x ∈ marketSamples veCodec ext m) :
    ∃ v ∈ committedVotes ext, x ∈ voteSamples veCodec m v := by
  rw [marketSamples_eq] at hx
  exact List.mem_flatMap.mp hx

theorem marketSamples_weight_pos {x : Sample} (hx : x ∈ marketSamples veCodec ext m) :
    0 < x.weight := by
  obtain ⟨v, -, hx⟩ := mem_marketSamples hx
  obtain ⟨-, -, -, -, -, -, -, hpos⟩ := mem_voteSamples hx
  exact hpos

theorem sum_voteSamples (veCodec : Codec OracleVote) (m : ℕ) (v : ExtendedVoteInfo) :
    ((voteSamples veCodec m v).map Sample.weight).sum
      = ((countedPrices veCodec v).map MarketPrice.marketIndex).count m * uint64 v.validator.power := by
  rw [voteSamples_eq, List.map_map, List.count_eq_countP, List.countP_map,
    List.countP_eq_length_filter, ← smul_eq_mul, ← List.sum_replicate, ← List.map_const']
  rfl

theorem sum_voteSamples_le (hpow : 0 ≤ v.validator.power)
    (honce : ((countedPrices veCodec v).map MarketPrice.marketIndex).Nodup) :
    (((voteSamples veCodec m v).map Sample.weight).sum : ℤ) ≤ v.validator.power := by
  have hword : (uint64 v.validator.power : ℤ) ≤ v.validator.power := by
    unfold uint64
    omega
  have hle := Nat.mul_le_mul_right (uint64 v.validator.power)
    (List.nodup_iff_count_le_one.mp honce m)
  rw [sum_voteSamples]
  omega

theorem countedPrices_nodup (honce : ∀ ov, veCodec.decode v.voteExtension = .ok ov →
    (ov.prices.map MarketPrice.marketIndex).Nodup) :
    ((countedPrices veCodec v).map MarketPrice.marketIndex).Nodup := by
  unfold countedPrices
  split_ifs
  · exact List.nodup_nil
  · split
    · exact List.nodup_nil
    · rename_i ov hdecode
      exact (honce ov hdecode).sublist (List.filter_sublist.map _)

/-- **The samples of a market carry no more power than the votes.** -/
theorem marketSamples_weight_le (hpow : ∀ v ∈ ext.votes, 0 ≤ v.validator.power)
    (honce : ∀ v ∈ ext.votes, ∀ ov, veCodec.decode v.voteExtension = .ok ov →
      (ov.prices.map MarketPrice.marketIndex).Nodup) :
    (((marketSamples veCodec ext m).map Sample.weight).sum : ℤ)
      ≤ (ext.votes.map fun v => v.validator.power).sum := by
  rw [marketSamples_eq, committedVotes]
  generalize ext.votes = votes at hpow honce
  induction votes with
  | nil => exact le_rfl
  | cons v rest ih =>
    have hrest := ih (fun u hu => hpow u (List.mem_cons_of_mem v hu))
      fun u hu => honce u (List.mem_cons_of_mem v hu)
    have hv := hpow v List.mem_cons_self
    rw [List.map_cons, List.sum_cons, List.filter_cons]
    split
    · rw [List.flatMap_cons, List.map_append, List.sum_append]
      have hone := sum_voteSamples_le (m := m) hv
        (countedPrices_nodup (honce v List.mem_cons_self))
      rw [Nat.cast_add]
      omega
    · omega

/-- The samples of the voters that are honest. -/
def honestSamples (veCodec : Codec OracleVote) (honest : ExtendedVoteInfo → Bool)
    (ext : ExtendedCommitInfo) (m : ℕ) : List Sample :=
  marketSamples veCodec { ext with votes := ext.votes.filter honest } m

theorem honestSamples_sublist (veCodec : Codec OracleVote) (honest : ExtendedVoteInfo → Bool)
    (ext : ExtendedCommitInfo) (m : ℕ) :
    (honestSamples veCodec honest ext m).Sublist (marketSamples veCodec ext m) := by
  rw [honestSamples, marketSamples_eq, marketSamples_eq]
  exact (List.filter_sublist.filter _).flatMap _

end Samples

/-! ### Close prices -/

/-- At most `bps` hundredths of a percent of `reference` away from it. -/
def Near (bps reference value : ℕ) : Prop :=
  |(value : ℤ) - reference| * 10000 ≤ reference * bps

theorem near_self (bps v : ℕ) : Near bps v v := by
  unfold Near
  rw [sub_self, abs_zero, zero_mul]
  positivity

theorem near_of_withinBps {value reference bps : ℕ} (hvalue : value < 2 ^ 32)
    (href : reference < 2 ^ 32) (hbps : bps < 2 ^ 32) (hpos : 0 < reference)
    (h : withinBps value reference bps = true) : Near bps reference value := by
  rw [withinBps, if_neg hpos.ne'] at h
  have hprod : reference * bps < 2 ^ 64 := by
    calc reference * bps ≤ (2 ^ 32 - 1) * (2 ^ 32 - 1) :=
          Nat.mul_le_mul (by omega) (by omega)
      _ < 2 ^ 64 := by decide
  have hle := of_decide_eq_true h
  rw [word64_of_lt hprod] at hle
  unfold Near
  split at hle
  · rename_i hlt
    rw [word64_of_lt (by omega)] at hle
    rw [abs_of_pos (by omega)]
    zify [hlt.le] at hle
    exact hle
  · rename_i hge
    rw [word64_of_lt (by omega)] at hle
    rw [abs_of_nonpos (by omega), neg_sub]
    zify [Nat.not_lt.mp hge] at hle
    exact hle

/-! ### The medians of a market -/

/-- Samples as they are collected: of words that are not zero, with a total weight that is not doubled
beyond a word. -/
structure Countable (samples : List Sample) : Prop where
  nonempty : samples ≠ []
  index : ∀ x ∈ samples, 0 < x.index ∧ x.index < 2 ^ 32
  mark : ∀ x ∈ samples, 0 < x.mark ∧ x.mark < 2 ^ 32
  weight_pos : ∀ x ∈ samples, 0 < x.weight
  weight_le : (samples.map Sample.weight).sum ≤ 2 ^ 63

section Medians

variable {samples honest : List Sample}

theorem Countable.isMedian (h : Countable samples) (f : Sample → ℕ) :
    IsMedian (samples.map fun x => (f x, x.weight))
      (weightedMedian (samples.map f) (samples.map Sample.weight)) := by
  rw [weightedMedian_eq]
  exact weightedMedianBy_isMedian isSort_sortByValue h.nonempty f Sample.weight h.weight_pos
    (.of_sum_le (List.forall_mem_map.mpr h.weight_pos) h.weight_le)

/-- **The prices of a market are close to the medians of all of its samples**, and these medians
themselves if outliers are not dropped. -/
theorem Countable.medians_near (h : Countable samples) {params : Params}
    (hbps : params.deviationThresholdBps < 2 ^ 32) :
    ∃ i k, IsMedian (samples.map fun x => (x.index, x.weight)) i ∧
      IsMedian (samples.map fun x => (x.mark, x.weight)) k ∧
      Near params.deviationThresholdBps i (medians params samples).1 ∧
      Near params.deviationThresholdBps k (medians params samples).2 ∧
      (params.deviationThresholdBps = 0 → medians params samples = (i, k)) := by
  refine ⟨_, _, h.isMedian Sample.index, h.isMedian Sample.mark, ?_⟩
  obtain ⟨x, hx, hi⟩ := weightedMedian_mem h.nonempty Sample.index Sample.weight
  obtain ⟨y, hy, hk⟩ := weightedMedian_mem h.nonempty Sample.mark Sample.weight
  rw [medians]
  dsimp only
  rw [hi, hk]
  have hx := h.index x hx
  have hy := h.mark y hy
  by_cases hoff : params.deviationThresholdBps = 0
  · rw [if_pos (.inr (.inr hoff))]
    exact ⟨near_self _ _, near_self _ _, fun _ => rfl⟩
  · rw [if_neg (by omega)]
    set close := samples.filter fun z => withinBps z.index x.index params.deviationThresholdBps &&
      withinBps z.mark y.mark params.deviationThresholdBps with hclose
    by_cases hnone : close = []
    · rw [if_pos hnone]
      exact ⟨near_self _ _, near_self _ _, fun _ => rfl⟩
    · rw [if_neg hnone]
      obtain ⟨z, hz, hi'⟩ := weightedMedian_mem hnone Sample.index Sample.weight
      obtain ⟨u, hu, hk'⟩ := weightedMedian_mem hnone Sample.mark Sample.weight
      obtain ⟨hz, hz'⟩ := List.mem_filter.mp hz
      obtain ⟨hu, hu'⟩ := List.mem_filter.mp hu
      rw [hi', hk']
      refine ⟨?_, ?_, fun h => absurd h hoff⟩
      · exact near_of_withinBps (h.index z hz).2 hx.2 hbps hx.1 (Bool.and_eq_true_iff.mp hz').1
      · exact near_of_withinBps (h.mark u hu).2 hy.2 hbps hy.1 (Bool.and_eq_true_iff.mp hu').2

theorem median_in_honest_range {f : Sample → ℕ} {i : ℕ}
    (h : IsMedian (samples.map fun x => (f x, x.weight)) i) (hsub : honest.Sublist samples)
    (hmajority : (samples.map Sample.weight).sum < 2 * (honest.map Sample.weight).sum) :
    ∃ lo ∈ honest, ∃ hi ∈ honest, f lo ≤ i ∧ i ≤ f hi := by
  have hweight : ∀ l : List Sample, weight (l.map fun x => (f x, x.weight))
      = (l.map Sample.weight).sum := fun l => by
    rw [weight, List.map_map]
    rfl
  obtain ⟨⟨a, ha, hlo⟩, b, hb, hhi⟩ := h.between (hsub.map fun x => (f x, x.weight))
    (by rw [hweight, hweight]; exact hmajority)
  obtain ⟨lo, hlo', rfl⟩ := List.mem_map.mp ha
  obtain ⟨hi, hhi', rfl⟩ := List.mem_map.mp hb
  exact ⟨lo, hlo', hi, hhi', hlo, hhi⟩

end Medians

/-! ### Honest majorities -/

/-- Decoded prices are 32-bit words. -/
def Codec.Words (veCodec : Codec OracleVote) : Prop :=
  ∀ bz ov, veCodec.decode bz = .ok ov → ∀ p ∈ ov.prices, p.indexPrice < 2 ^ 32 ∧ p.markPrice < 2 ^ 32

/-- Close to a price between two honest ones, and between them if `bps` is zero. -/
def Backed (bps : ℕ) (honest : List ℕ) (price : ℕ) : Prop :=
  (∃ lo ∈ honest, ∃ hi ∈ honest, ∃ v, lo ≤ v ∧ v ≤ hi ∧ Near bps v price) ∧
    (bps = 0 → ∃ lo ∈ honest, ∃ hi ∈ honest, lo ≤ price ∧ price ≤ hi)

section Majority

variable {h : VoteExtensionHandler} {ext : ExtendedCommitInfo} {params : Params}

theorem countable_marketSamples {m : ℕ} (hwords : h.veCodec.Words)
    (hne : marketSamples h.veCodec ext m ≠ [])
    (hsum : ((marketSamples h.veCodec ext m).map Sample.weight).sum ≤ 2 ^ 63) :
    Countable (marketSamples h.veCodec ext m) where
  nonempty := hne
  index x hx := by
    obtain ⟨v, -, hx⟩ := mem_marketSamples hx
    obtain ⟨ov, p, hdecode, hp, ⟨heq, hpos⟩, -⟩ := mem_voteSamples hx
    exact ⟨hpos, heq ▸ (hwords _ ov hdecode p hp).1⟩
  mark x hx := by
    obtain ⟨v, -, hx⟩ := mem_marketSamples hx
    obtain ⟨ov, p, hdecode, hp, -, ⟨heq, hpos⟩, -⟩ := mem_voteSamples hx
    exact ⟨hpos, heq ▸ (hwords _ ov hdecode p hp).2⟩
  weight_pos x hx := marketSamples_weight_pos hx
  weight_le := hsum

theorem aggregateMarket_some {total : ℤ} {samples : List Sample} {m : ℕ} {agg : Aggregation}
    (hagg : aggregateMarket params total samples m = some agg) :
    agg.marketIndex = m ∧ (agg.indexPrice, agg.markPrice) = medians params samples ∧
      agg.totalPower = word64 (samples.map Sample.weight).sum := by
  rw [aggregateMarket] at hagg
  split at hagg
  · cases hagg
  · dsimp only at hagg
    split at hagg
    · cases hagg
    · cases hagg
      exact ⟨rfl, rfl, foldl_word64 _ _⟩

theorem mem_aggregateFromExtInfo {order : List ℕ} {agg : Aggregation}
    (hagg : agg ∈ aggregateFromExtInfo h ext params order) :
    (agg.indexPrice, agg.markPrice)
        = medians params (marketSamples h.veCodec ext agg.marketIndex) ∧
      agg.totalPower
        = word64 ((marketSamples h.veCodec ext agg.marketIndex).map Sample.weight).sum := by
  rw [aggregateFromExtInfo] at hagg
  split at hagg
  · cases hagg
  · obtain ⟨m, -, hm⟩ := List.mem_filterMap.mp hagg
    obtain ⟨rfl, hboth⟩ := aggregateMarket_some hm
    exact hboth

/-- **Oracle prices against a minority of liars.**  If the powers of a commit are not negative and add
up to less than `2 ^ 59 / 10000`, each vote lists a market at most once, and honest votes carry more
than half of the power behind a market, then its prices are close to a price between honest ones, and
between them if outliers are not dropped. -/
theorem oracle_honest_majority (honest : ExtendedVoteInfo → Bool) (hwords : h.veCodec.Words)
    (hbps : params.deviationThresholdBps < 2 ^ 32)
    (hpow : ∀ v ∈ ext.votes, 0 ≤ v.validator.power)
    (hsum : (ext.votes.map fun v => v.validator.power).sum * 10000 < 2 ^ 59)
    (honce : ∀ v ∈ ext.votes, ∀ ov, h.veCodec.decode v.voteExtension = .ok ov →
      (ov.prices.map MarketPrice.marketIndex).Nodup)
    {order : List ℕ} {agg : Aggregation} (hagg : agg ∈ aggregateFromExtInfo h ext params order)
    (hmajority : ((marketSamples h.veCodec ext agg.marketIndex).map Sample.weight).sum
      < 2 * ((honestSamples h.veCodec honest ext agg.marketIndex).map Sample.weight).sum) :
    let trusted := honestSamples h.veCodec honest ext agg.marketIndex
    Backed params.deviationThresholdBps (trusted.map Sample.index) agg.indexPrice ∧
      Backed params.deviationThresholdBps (trusted.map Sample.mark) agg.markPrice := by
  intro trusted
  set samples := marketSamples h.veCodec ext agg.marketIndex with hsamples
  have hsub : trusted.Sublist samples := honestSamples_sublist _ _ _ _
  have hne : samples ≠ [] := by
    intro hnil
    have htrusted : honestSamples h.veCodec honest ext agg.marketIndex = [] :=
      List.sublist_nil.mp (hnil ▸ hsub)
    rw [hnil, htrusted] at hmajority
    exact absurd hmajority (by decide)
  have hweight := marketSamples_weight_le (m := agg.marketIndex) hpow honce
  have hcount : Countable samples := countable_marketSamples hwords hne (by omega)
  obtain ⟨i, k, hi, hk, hnear_i, hnear_k, hoff⟩ := hcount.medians_near hbps
  rw [← (mem_aggregateFromExtInfo hagg).1] at hnear_i hnear_k hoff
  -- both prices come about in the same way
  have hbacked : ∀ (f : Sample → ℕ) (v price : ℕ),
      IsMedian (samples.map fun x => (f x, x.weight)) v →
      Near params.deviationThresholdBps v price →
      (params.deviationThresholdBps = 0 → price = v) →
      Backed params.deviationThresholdBps (trusted.map f) price := by
    intro f v price hv hnear hexact
    obtain ⟨lo, hlo, hi, hhi, hle, hge⟩ := median_in_honest_range hv hsub hmajority
    refine ⟨⟨f lo, List.mem_map_of_mem hlo, f hi, List.mem_map_of_mem hhi, v, hle, hge, hnear⟩,
      fun hzero => ⟨f lo, List.mem_map_of_mem hlo, f hi, List.mem_map_of_mem hhi, ?_⟩⟩
    rw [hexact hzero]
    exact ⟨hle, hge⟩
  exact ⟨hbacked Sample.index i _ hi hnear_i fun h0 => congrArg Prod.fst (hoff h0),
    hbacked Sample.mark k _ hk hnear_k fun h0 => congrArg Prod.snd (hoff h0)⟩

end Majority

/-- Votes whose first byte is the index and the mark price of market 0. -/
def byteVotes : VoteExtensionHandler where
  veCodec := {
    encode := fun _ => .error "not needed"
    decode := fun bz =>
      let price := (bz.headD 1).toNat
      .ok { prices := [{ marketIndex := 0, indexPrice := price, markPrice := price }] } }
  ecCodec := { encode := fun _ => .error "not needed", decode := fun _ => .error "not needed" }

/-- A validator of power 1 that votes for a price. -/
def votesFor (price : UInt8) : ExtendedVoteInfo where
  validator := { address := [price], power := 1 }
  voteExtension := [price]

theorem weightedMedian_pairs {l : List (ℕ × ℕ)} {v : ℕ} (hne : l ≠ []) (hpos : ∀ x ∈ l, 0 < x.2)
    (hsum : (l.map Prod.snd).sum ≤ 2 ^ 63) (hv : IsMedian l v) :
    weightedMedian (l.map Prod.fst) (l.map Prod.snd) = v := by
  have h := weightedMedianBy_isMedian isSort_sortByValue hne Prod.fst Prod.snd hpos
    (.of_sum_le (List.forall_mem_map.mpr hpos) hsum)
  rw [List.map_id'] at h
  exact h.unique hv

/-- Two honest votes for 100 and 102 outweigh one for 255: the price is 102. -/
theorem oracle_honest_majority_one_liar :
    let ext : ExtendedCommitInfo := { votes := [votesFor 100, votesFor 255, votesFor 102] }
    ∃ agg ∈ aggregateFromExtInfo byteVotes ext {} [0], agg.indexPrice = 102 ∧
      Backed 500 [100, 102] agg.indexPrice ∧ Backed 500 [100, 102] agg.markPrice := by
  intro ext
  have hsamples : marketSamples byteVotes.veCodec ext 0
      = [⟨100, 100, 1⟩, ⟨255, 255, 1⟩, ⟨102, 102, 1⟩] := by decide +kernel
  have hmedians : medians {} (marketSamples byteVotes.veCodec ext 0) = (102, 102) := by
    have hall : weightedMedian [100, 255, 102] [1, 1, 1] = 102 :=
      @weightedMedian_pairs [(100, 1), (255, 1), (102, 1)] 102 (by decide) (by decide) (by decide)
        ⟨by decide, by decide⟩
    have hclose : weightedMedian [100, 102] [1, 1] = 102 :=
      @weightedMedian_pairs [(100, 1), (102, 1)] 102 (by decide) (by decide) (by decide)
        ⟨by decide, by decide⟩
    rw [hsamples, medians]
    simp only [List.map_cons, List.map_nil, hall]
    exact Prod.ext hclose hclose
  have hagg : (⟨0, 102, 102, 3, 3⟩ : Aggregation) ∈ aggregateFromExtInfo byteVotes ext {} [0] := by
    rw [aggregateFromExtInfo, if_neg (by decide +kernel)]
    refine List.mem_filterMap.mpr ⟨0, List.mem_singleton_self 0, ?_⟩
    rw [aggregateMarket, if_neg (by decide +kernel), hmedians, hsamples]
    rfl
  have hwords : byteVotes.veCodec.Words := by
    intro bz ov hdecode p hp
    cases hdecode
    obtain rfl := List.mem_singleton.mp hp
    have hbyte := (bz.headD 1).toNat_lt
    exact ⟨by dsimp only; omega, by dsimp only; omega⟩
  have honce : ∀ v ∈ ext.votes, ∀ ov, byteVotes.veCodec.decode v.voteExtension = .ok ov →
      (ov.prices.map MarketPrice.marketIndex).Nodup := by
    intro v _ ov hdecode
    cases hdecode
    exact List.nodup_singleton 0
  have h := oracle_honest_majority (fun v => decide (v ≠ votesFor 255)) hwords (by decide)
    (by decide) (by decide) honce hagg (by decide +kernel)
  exact ⟨_, hagg, rfl, h⟩

end PerpDex.Oracle
