/-
Stored prices over many blocks.

* `storeAggregation_inBand` — smoothing does not leave an interval.

Main result: `stored_prices_in_band`.

A commit is honest with respect to one market: the votes on another one may come from liars.
-/
import PerpDex.OracleMedians

namespace PerpDex.Oracle

open Arith Median

/-! ### The band of the stored prices -/

/-- Between two prices, give or take `bps` hundredths of a percent of them. -/
structure Band (bps lo hi price : ℕ) : Prop where
  low : lo * 10000 ≤ price * 10000 + lo * bps
  high : price * 10000 ≤ hi * (10000 + bps)

theorem Band.of_near {b bps lo hi v price : ℕ} (hle : b ≤ bps) (hlo : lo ≤ v) (hhi : v ≤ hi)
    (h : Near b v price) : Band bps lo hi price := by
  rw [Near, ← abs_of_nonneg (by norm_num : (0 : ℤ) ≤ 10000), ← abs_mul, abs_le] at h
  obtain ⟨hbelow, habove⟩ := h
  refine ⟨?_, ?_⟩
  · -- a threshold of 100 percent or more leaves nothing to show
    zify at *
    rcases le_total (bps : ℤ) 10000 with hbps | hbps
    · nlinarith
    · nlinarith
  · zify at *
    nlinarith

theorem Band.between {bps lo hi a b q : ℕ} (ha : Band bps lo hi a) (hb : Band bps lo hi b)
    (hmin : min a b ≤ q) (hmax : q ≤ max a b) : Band bps lo hi q := by
  have hlow : lo * 10000 ≤ min a b * 10000 + lo * bps := by
    rcases min_choice a b with h | h <;> rw [h]
    exacts [ha.low, hb.low]
  have hhigh : max a b * 10000 ≤ hi * (10000 + bps) := by
    rcases max_choice a b with h | h <;> rw [h]
    exacts [ha.high, hb.high]
  exact ⟨hlow.trans (Nat.add_le_add_right (Nat.mul_le_mul_right _ hmin) _),
    (Nat.mul_le_mul_right _ hmax).trans hhigh⟩

/-- A weighted mean of two numbers, rounded down, is between them. -/
theorem smoothed_between {α β a b : ℕ} (h : α + β = 10000) :
    min a b ≤ (α * a + β * b) / 10000 ∧ (α * a + β * b) / 10000 ≤ max a b := by
  rw [Nat.le_div_iff_mul_le (by decide)]
  constructor
  · calc min a b * 10000 = α * min a b + β * min a b := by rw [← h]; ring
      _ ≤ α * a + β * b :=
        Nat.add_le_add (Nat.mul_le_mul_left α (min_le_left a b)) (Nat.mul_le_mul_left β (min_le_right a b))
  · refine Nat.div_le_of_le_mul ?_
    calc α * a + β * b ≤ α * max a b + β * max a b :=
        Nat.add_le_add (Nat.mul_le_mul_left α (le_max_left a b)) (Nat.mul_le_mul_left β (le_max_right a b))
      _ = 10000 * max a b := by rw [← h]; ring

/-- An index and a mark price in the band; the mark price is a word and not zero. -/
structure Banded (bps lo hi i k : ℕ) : Prop where
  index : Band bps lo hi i
  mark : Band bps lo hi k
  pos : 0 < k
  word : k < 2 ^ 32

/-- What is stored for a market, if anything is, is in the band. -/
def Prices.InBand (bps lo hi m : ℕ) (prices : Prices) : Prop :=
  ∀ p, prices.get m = some p → Banded bps lo hi p.indexPrice p.markPrice

section Band

variable {bps lo hi m : ℕ} {params : Params} {prices : Prices} {p : OraclePrice}

/-- **Smoothing changes the mark price only, and does not leave the band.** -/
theorem applyMarkSmoothing_banded (bps lo hi : ℕ) (prices : Prices) (params : Params)
    (p : OraclePrice) :
    ∃ mark, applyMarkSmoothing prices params p = { p with markPrice := mark } ∧
      (Banded bps lo hi p.indexPrice p.markPrice → prices.InBand bps lo hi p.marketIndex →
        Banded bps lo hi p.indexPrice mark) := by
  rw [applyMarkSmoothing]
  dsimp only
  split
  · exact ⟨p.markPrice, rfl, fun hp _ => hp⟩
  · rename_i hα
    split
    · exact ⟨p.markPrice, rfl, fun hp _ => hp⟩
    · rename_i prev hprev
      split
      · exact ⟨p.markPrice, rfl, fun hp _ => hp⟩
      · refine ⟨_, rfl, fun hp hprices => ?_⟩
        have hold := hprices prev hprev
        obtain ⟨hmin, hmax⟩ := smoothed_between (a := p.markPrice) (b := prev.markPrice)
          (show params.markPriceEmaAlpha + (10000 - params.markPriceEmaAlpha) = 10000 by omega)
        set sum := params.markPriceEmaAlpha * p.markPrice
          + (10000 - params.markPriceEmaAlpha) * prev.markPrice
        have hlt : sum / 10000 < 2 ^ 32 := hmax.trans_lt (max_lt hp.word hold.word)
        have hpos : 0 < sum / 10000 := (lt_min hp.pos hold.pos).trans_le hmin
        rw [word64_of_lt (by omega), if_neg hpos.ne', Nat.mod_eq_of_lt hlt]
        exact ⟨hp.index, hp.mark.between hold.mark hmin hmax, hpos, hlt⟩

theorem storeAggregation_inBand {now height : ℤ} {agg : Aggregation}
    (hagg : agg.marketIndex = m → Banded bps lo hi agg.indexPrice agg.markPrice)
    (hprices : prices.InBand bps lo hi m) :
    (storeAggregation params now height prices agg).InBand bps lo hi m := by
  intro p hp
  obtain ⟨mark, heq, hbanded⟩ := applyMarkSmoothing_banded bps lo hi prices params
    ⟨agg.marketIndex, agg.indexPrice, agg.markPrice, now, height, agg.participantCount,
      agg.totalPower⟩
  rw [storeAggregation, heq, setPrice] at hp
  split_ifs at hp with hzero
  · exact hprices p hp
  · by_cases hm : agg.marketIndex = m
    · subst hm
      cases (Table.get_put_self _ _).symm.trans hp
      exact hbanded (hagg rfl) hprices
    · rw [Table.get_put, if_neg (Ne.symm hm)] at hp
      exact hprices p hp

/-- Both prices of a market are prices of its samples. -/
theorem medians_mem (params : Params) {samples : List Sample} (hne : samples ≠ []) :
    ∃ x ∈ samples, ∃ y ∈ samples, medians params samples = (x.index, y.mark) := by
  have hall : ∀ l ≠ [], l.Sublist samples → ∃ x ∈ samples, ∃ y ∈ samples,
      (weightedMedian (l.map Sample.index) (l.map Sample.weight),
        weightedMedian (l.map Sample.mark) (l.map Sample.weight)) = (x.index, y.mark) := by
    intro l hl hsub
    obtain ⟨x, hx, hi⟩ := weightedMedian_mem hl Sample.index Sample.weight
    obtain ⟨y, hy, hk⟩ := weightedMedian_mem hl Sample.mark Sample.weight
    exact ⟨x, hsub.subset hx, y, hsub.subset hy, by rw [hi, hk]⟩
  rw [medians]
  dsimp only
  split
  · exact hall samples hne (.refl _)
  · split
    · exact hall samples hne (.refl _)
    · exact hall _ ‹_› List.filter_sublist

end Band

/-! ### Blocks with an honest majority -/

/-- The votes on the last block, as far as the market `m` is concerned: all were accepted when they
were cast, and if there are any on the market then those of honest validators outweigh the others
and are between `lo` and `hi`. -/
structure HonestCommit (h : VoteExtensionHandler) (honest : ExtendedVoteInfo → Bool) (m lo hi : ℕ)
    (ext : ExtendedCommitInfo) : Prop where
  power : ∀ v ∈ ext.votes, 0 ≤ v.validator.power
  total : (ext.votes.map fun v => v.validator.power).sum * 10000 < 2 ^ 59
  verified : ∀ v ∈ ext.votes, ∃ ctx height, verifyVoteExtension h ctx height v.voteExtension = .accept
  majority : marketSamples h.veCodec ext m ≠ [] →
    ((marketSamples h.veCodec ext m).map Sample.weight).sum
      < 2 * ((honestSamples h.veCodec honest ext m).map Sample.weight).sum
  range : ∀ x ∈ honestSamples h.veCodec honest ext m,
    (lo ≤ x.index ∧ x.index ≤ hi) ∧ lo ≤ x.mark ∧ x.mark ≤ hi

/-- What `preBlocker` is given. -/
structure Block where
  ctx : Context
  now : ℤ
  height : ℤ
  txs : List Bytes
  order : List ℕ

def runBlocks (h : VoteExtensionHandler) (blocks : List Block) (prices : Prices) : Prices :=
  blocks.foldl (fun prices b => preBlocker h b.ctx b.now b.height b.txs b.order prices) prices

section Blocks

variable {h : VoteExtensionHandler} {honest : ExtendedVoteInfo → Bool} {bps lo hi m : ℕ}
  {ext : ExtendedCommitInfo} {params : Params} {prices : Prices}

/-- **Accepted prices** are not zero, and no market has two of them or one before. -/
theorem verifyPrices_accept {seen : List ℕ} {l : List MarketPrice} :
    verifyPrices seen l = .accept ↔ (∀ p ∈ l, p.indexPrice ≠ 0 ∧ p.markPrice ≠ 0) ∧
      (∀ p ∈ l, p.marketIndex ∉ seen) ∧ (l.map MarketPrice.marketIndex).Nodup := by
  induction l generalizing seen with
  | nil => simp [verifyPrices]
  | cons p rest ih =>
    rw [verifyPrices]
    split_ifs with hzero hseen
    · simp only [false_iff]
      intro h
      have hp := h.1 p List.mem_cons_self
      tauto
    · simp only [false_iff]
      exact fun h => h.2.1 p List.mem_cons_self hseen
    · rw [ih]
      simp only [List.mem_cons, forall_eq_or_imp, List.map_cons, List.nodup_cons, List.mem_map,
        not_or]
      constructor
      · rintro ⟨hpos, hfresh, hnodup⟩
        refine ⟨⟨by tauto, hpos⟩, ⟨hseen, fun q hq => (hfresh q hq).2⟩, ?_, hnodup⟩
        rintro ⟨q, hq, heq⟩
        exact (hfresh q hq).1 heq
      · rintro ⟨⟨-, hpos⟩, ⟨-, hfresh⟩, hne, hnodup⟩
        exact ⟨hpos, fun q hq => ⟨fun heq => hne ⟨q, hq, heq⟩, hfresh q hq⟩, hnodup⟩

/-- An accepted vote lists no market twice. -/
theorem verified_once (hempty : h.veCodec.decode [] = .ok {}) {ctx : Context} {height : ℤ} {bz : Bytes}
    (haccept : verifyVoteExtension h ctx height bz = .accept) {ov : OracleVote}
    (hdecode : h.veCodec.decode bz = .ok ov) : (ov.prices.map MarketPrice.marketIndex).Nodup := by
  by_cases hbz : bz = []
  · rw [hbz, hempty] at hdecode
    cases hdecode
    exact List.nodup_nil
  · rw [verifyVoteExtension, if_neg hbz, hdecode] at haccept
    split_ifs at haccept with hon
    dsimp only at haccept
    split_ifs at haccept
    exact (verifyPrices_accept.mp haccept).2.2

theorem aggregateMarket_nil (total : ℤ) (m : ℕ) : aggregateMarket params total [] m = none := by
  rw [aggregateMarket]
  split
  · rfl
  · simp [medians, weightedMedian]

/-- **The prices that an honest commit yields are in the band.** -/
theorem HonestCommit.banded (hext : HonestCommit h honest m lo hi ext) (hwords : h.veCodec.Words)
    (hempty : h.veCodec.decode [] = .ok {}) (hbps : bps < 2 ^ 32)
    (hparams : params.deviationThresholdBps ≤ bps) {order : List ℕ} {agg : Aggregation}
    (hagg : agg ∈ aggregateFromExtInfo h ext params order) (hm : agg.marketIndex = m) :
    Banded bps lo hi agg.indexPrice agg.markPrice := by
  subst hm
  have hne : marketSamples h.veCodec ext agg.marketIndex ≠ [] := by
    intro hnil
    have hagg := hagg
    rw [aggregateFromExtInfo] at hagg
    split at hagg
    · cases hagg
    · obtain ⟨m, -, hm⟩ := List.mem_filterMap.mp hagg
      obtain ⟨rfl, -⟩ := aggregateMarket_some hm
      rw [hnil, aggregateMarket_nil] at hm
      cases hm
  have hweight := marketSamples_weight_le (m := agg.marketIndex) hext.power fun v hv ov hdecode => by
    obtain ⟨ctx, height, haccept⟩ := hext.verified v hv
    exact verified_once hempty haccept hdecode
  have htotal := hext.total
  have hcount := countable_marketSamples hwords hne (by omega)
  obtain ⟨i, k, hi, hk, hnear_i, hnear_k, -⟩ := hcount.medians_near (hparams.trans_lt hbps)
  obtain ⟨x, -, y, hy, hmem⟩ := medians_mem params hne
  have hmajority := hext.majority hne
  have hsub := honestSamples_sublist h.veCodec honest ext agg.marketIndex
  obtain ⟨a, ha, b, hb, hai, hib⟩ := median_in_honest_range hi hsub hmajority
  obtain ⟨a', ha', b', hb', hak, hkb⟩ := median_in_honest_range hk hsub hmajority
  have hprices := (mem_aggregateFromExtInfo hagg).1
  rw [← hprices] at hnear_i hnear_k hmem
  have hmark : agg.markPrice = y.mark := congrArg Prod.snd hmem
  refine ⟨.of_near hparams ((hext.range a ha).1.1.trans hai) (hib.trans (hext.range b hb).1.2) hnear_i,
    .of_near hparams ((hext.range a' ha').2.1.trans hak) (hkb.trans (hext.range b' hb').2.2) hnear_k,
    ?_, ?_⟩
  · rw [hmark]
    exact (hcount.mark y hy).1
  · rw [hmark]
    exact (hcount.mark y hy).2

theorem preBlocker_inBand {b : Block} (hwords : h.veCodec.Words)
    (hempty : h.veCodec.decode [] = .ok {}) (hbps : bps < 2 ^ 32)
    (hparams : ∀ params, b.ctx.params = some params → params.deviationThresholdBps ≤ bps)
    (hcommit : ∀ bz rest ext, b.txs = bz :: rest → h.ecCodec.decode bz = .ok ext →
      HonestCommit h honest m lo hi ext) (hprices : prices.InBand bps lo hi m) :
    (preBlocker h b.ctx b.now b.height b.txs b.order prices).InBand bps lo hi m := by
  unfold preBlocker
  split
  · exact hprices
  · split
    · exact hprices
    · rename_i bz rest htxs
      split
      · exact hprices
      · rename_i ext hdecode
        split
        · exact hprices
        · rename_i params hparam
          have hext := hcommit bz rest ext htxs hdecode
          have hall : ∀ agg ∈ aggregateFromExtInfo h ext params b.order, agg.marketIndex = m →
              Banded bps lo hi agg.indexPrice agg.markPrice :=
            fun agg => hext.banded hwords hempty hbps (hparams params hparam)
          generalize aggregateFromExtInfo h ext params b.order = l at hall
          induction l generalizing prices with
          | nil => exact hprices
          | cons agg rest ih =>
            exact ih (storeAggregation_inBand (hall agg List.mem_cons_self) hprices)
              fun a ha => hall a (List.mem_cons_of_mem agg ha)

/-- **A minority cannot move a stored price out of what honest validators say.**  Over any number of
blocks, if in each of them the injected votes on a market are honest by majority, with honest prices
between `lo` and `hi`, then index and mark price of the market stay between them up to the deviation
threshold, through all smoothing and however the parameters change below it. -/
theorem stored_prices_in_band (hwords : h.veCodec.Words) (hempty : h.veCodec.decode [] = .ok {})
    (hbps : bps < 2 ^ 32) {blocks : List Block}
    (hparams : ∀ b ∈ blocks, ∀ params, b.ctx.params = some params →
      params.deviationThresholdBps ≤ bps)
    (hcommits : ∀ b ∈ blocks, ∀ bz rest ext, b.txs = bz :: rest → h.ecCodec.decode bz = .ok ext →
      HonestCommit h honest m lo hi ext) (hprices : prices.InBand bps lo hi m) :
    (runBlocks h blocks prices).InBand bps lo hi m := by
  induction blocks generalizing prices with
  | nil => exact hprices
  | cons b rest ih =>
    exact ih (fun c hc => hparams c (List.mem_cons_of_mem b hc))
      (fun c hc => hcommits c (List.mem_cons_of_mem b hc))
      (preBlocker_inBand hwords hempty hbps (hparams b List.mem_cons_self)
        (hcommits b List.mem_cons_self) hprices)

end Blocks

/-- Votes of one byte for the price of market 0, and commits that list the votes. -/
def byteCommits : VoteExtensionHandler where
  veCodec := {
    encode := fun _ => .error "not needed"
    decode := fun bz => match bz with
      | [] => .ok {}
      | price :: _ => .ok { prices := [⟨0, price.toNat, price.toNat⟩], submittedAtHeight := 2 } }
  ecCodec := {
    encode := fun _ => .error "not needed"
    decode := fun bz => .ok { votes := bz.map votesFor } }

/-- In two blocks two honest votes meet a lie: the price of 101 that is stored stays between 100 and
102, give or take five percent. -/
theorem stored_prices_in_band_two_blocks :
    let ctx : Context := { voteExtensionsEnableHeight := some 1 }
    let blocks : List Block := [⟨ctx, 0, 2, [[100, 255, 102]], [0]⟩, ⟨ctx, 1000, 3, [[100, 255, 102]], [0]⟩]
    let stored : Prices := Table.ofRows [⟨0, 101, 101, 0, 1, 3, 3⟩]
    (runBlocks byteCommits blocks stored).InBand 500 100 102 0 := by
  intro ctx blocks stored
  have hwords : byteCommits.veCodec.Words := by
    intro bz ov hdecode p hp
    cases bz with
    | nil =>
      cases hdecode
      cases hp
    | cons price rest =>
      cases hdecode
      obtain rfl := List.mem_singleton.mp hp
      have hbyte := price.toNat_lt
      exact ⟨by dsimp only; omega, by dsimp only; omega⟩
  have hhonest : HonestCommit byteCommits (fun v => decide (v ≠ votesFor 255)) 0 100 102
      { votes := [votesFor 100, votesFor 255, votesFor 102] } := by
    have hverified : ∀ v ∈ [votesFor 100, votesFor 255, votesFor 102],
        verifyVoteExtension byteCommits ctx 2 v.voteExtension = .accept := by decide +kernel
    exact ⟨by decide +kernel, by decide +kernel, fun v hv => ⟨ctx, 2, hverified v hv⟩,
      fun _ => by decide +kernel, by decide +kernel⟩
  have hstored : stored.InBand 500 100 102 0 := by
    intro p hp
    cases (show stored.get 0 = some ⟨0, 101, 101, 0, 1, 3, 3⟩ by decide).symm.trans hp
    exact ⟨⟨by decide, by decide⟩, ⟨by decide, by decide⟩, by decide, by decide⟩
  have hblocks : ∀ b ∈ blocks, b.ctx.params = some {} ∧ b.txs = [[100, 255, 102]] := by
    simp [blocks, ctx]
  refine @stored_prices_in_band byteCommits (fun v => decide (v ≠ votesFor 255))
    500 100 102 0 stored hwords rfl (by decide) blocks (fun b hb params hparams => ?_)
    (fun b hb bz rest ext htxs hdecode => ?_) hstored
  · cases (hblocks b hb).1.symm.trans hparams
    exact le_rfl
  · cases (hblocks b hb).2.symm.trans htxs
    cases hdecode
    exact hhonest

end PerpDex.Oracle
