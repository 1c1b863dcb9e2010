/-
The daemon that feeds prices to the oracle (`x/oracle/daemon`).

* `MarketResolver.refresh` — the markets that the pairs of the sidecar are looked up in;
* `scalePrice`, `poll` — quotes, scaled to the precision of a market and cached.

Main result: `markets_fed_iff`.

The Unicode tables of the language's library are a parameter.  The reverse map of the resolver serves log
messages only and is left out, and a poll that fails changes nothing.
-/
import PerpDex.Types

namespace PerpDex.Oracle

/-! ### Pairs -/

/-- Tables of characters; letters in upper case, and what is no letter, stay as they are. -/
structure Unicode where
  upper : Char → Char
  isSpace : Char → Bool
  upper_upper : ∀ c, upper (upper c) = upper c
  upper_of_mem : ∀ c ∈ ['/', 'U', 'S', 'D'], upper c = c

variable (u : Unicode)

def toUpper (s : String) : String := String.ofList (s.toList.map u.upper)

def trimSpace (s : String) : String :=
  String.ofList ((s.toList.dropWhile u.isSpace).reverse.dropWhile u.isSpace).reverse

/-- Quotes in tether are those in dollars. -/
def pairFromAssets (base quote : String) : String :=
  let base := toUpper u (trimSpace u base)
  let quote := toUpper u (trimSpace u quote)
  base ++ "/" ++ if quote = "USDT" then "USD" else quote

theorem toUpper_pairFromAssets (base quote : String) :
    toUpper u (pairFromAssets u base quote) = pairFromAssets u base quote := by
  have happend : ∀ s t : String, toUpper u (s ++ t) = toUpper u s ++ toUpper u t := by
    intro s t
    unfold toUpper
    rw [String.toList_append, List.map_append, String.ofList_append]
  have htwice : ∀ s, toUpper u (toUpper u s) = toUpper u s := by
    intro s
    unfold toUpper
    rw [String.toList_ofList, List.map_map]
    exact congrArg String.ofList (List.map_congr_left fun c _ => u.upper_upper c)
  have hslash : toUpper u "/" = "/" := by
    simp [toUpper, u.upper_of_mem]
  have husd : toUpper u "USD" = "USD" := by
    simp [toUpper, u.upper_of_mem]
  unfold pairFromAssets
  dsimp only
  rw [happend, happend, htwice, hslash]
  split
  · rw [husd]
  · rw [htwice]

/-! ### Markets by pair -/

structure MarketShim where
  marketIndex : ℕ
  baseAssetId : ℕ
  quoteAssetId : ℕ
  decimals : ℕ

def defaultPriceDecimals : ℕ := 2

/-- What the daemon reads of the chain: the markets, and the display names of assets. -/
structure Registry where
  markets : Table Market.marketIndex
  displayName : ℕ → Option String

def Registry.shims (reg : Registry) : List MarketShim :=
  reg.markets.toList.map fun m => ⟨m.marketIndex, m.baseAssetId, m.quoteAssetId, defaultPriceDecimals⟩

structure MarketResolver where
  pairToIdx : KVStore String ℕ := KVStore.empty
  decimals : KVStore ℕ ℕ := KVStore.empty

namespace MarketResolver

/-- Markets without names are skipped, and a pair belongs to the last market that has it. -/
def add (displayName : ℕ → Option String) (r : MarketResolver) (m : MarketShim) : MarketResolver :=
  match displayName m.baseAssetId, displayName m.quoteAssetId with
  | some baseSym, some quoteSym =>
    if baseSym = "" ∨ quoteSym = "" then r
    else {
      pairToIdx := r.pairToIdx.set (pairFromAssets u baseSym quoteSym) m.marketIndex
      decimals := r.decimals.set m.marketIndex m.decimals }
  | _, _ => r

def refresh (reg : Registry) : MarketResolver := reg.shims.foldl (add u reg.displayName) {}

def marketIndex (r : MarketResolver) (pair : String) : Option ℕ := r.pairToIdx.get (toUpper u pair)

/-- Eight digits, unless the market says otherwise. -/
def decimalsOf (r : MarketResolver) (idx : ℕ) : ℕ :=
  match r.decimals.get idx with
  | none => 8
  | some d => if d = 0 then 8 else d

end MarketResolver

/-! ### Quotes -/

/-- A price with `srcDecimals` digits as one with `dstDecimals` digits, if it is a 32-bit word. -/
def scalePrice (raw : ℤ) (srcDecimals dstDecimals : ℕ) : Option ℕ :=
  if raw ≤ 0 then none
  else
    let out := if srcDecimals = dstDecimals then raw
      else if srcDecimals < dstDecimals then raw * 10 ^ (dstDecimals - srcDecimals)
      else raw.tdiv (10 ^ (srcDecimals - dstDecimals))
    if out ≤ maxUint32 then some out.toNat else none

structure CachedPrice where
  marketIndex : ℕ
  price : ℕ
  updatedAt : ℤ
deriving DecidableEq, Repr

abbrev Cache : Type := Table CachedPrice.marketIndex

/-- Zero is no price. -/
def Cache.set (c : Cache) (marketIndex price : ℕ) (updatedAt : ℤ) : Cache :=
  if price = 0 then c else c.put { marketIndex, price, updatedAt }

structure PriceQuote where
  pair : String
  value : ℤ

def cacheQuote (r : MarketResolver) (sidecarDecimals : ℕ) (now : ℤ) (c : Cache) (q : PriceQuote) :
    Cache :=
  match r.marketIndex u q.pair with
  | none => c
  | some idx =>
    match scalePrice q.value sidecarDecimals (r.decimalsOf idx) with
    | none => c
    | some scaled => c.set idx scaled now

/-- A poll that the sidecar has answered. -/
def poll (r : MarketResolver) (sidecarDecimals : ℕ) (now : ℤ) (c : Cache) (quotes : List PriceQuote) :
    Cache :=
  quotes.foldl (cacheQuote u r sidecarDecimals now) c

/-! ### What a pair resolves to -/

section Resolver

variable {u} {names : ℕ → Option String} {r : MarketResolver} {m : MarketShim} {p : String}

/-- The names of the assets of a market make up a pair, and neither is empty. -/
def MarketShim.Resolves (u : Unicode) (names : ℕ → Option String) (m : MarketShim) (p : String) :
    Prop :=
  ∃ base quote, names m.baseAssetId = some base ∧ names m.quoteAssetId = some quote ∧ base ≠ "" ∧
    quote ≠ "" ∧ pairFromAssets u base quote = p

theorem MarketResolver.add_cases (u : Unicode) (names : ℕ → Option String) (r : MarketResolver)
    (m : MarketShim) :
    (∃ p, (∀ p', m.Resolves u names p' ↔ p' = p) ∧ add u names r m = {
      pairToIdx := r.pairToIdx.set p m.marketIndex
      decimals := r.decimals.set m.marketIndex m.decimals }) ∨
    (∀ p, ¬ m.Resolves u names p) ∧ add u names r m = r := by
  unfold add MarketShim.Resolves
  split
  · rename_i base quote hbase hquote
    simp only [hbase, hquote, Option.some.injEq]
    split_ifs with hempty
    · refine .inr ⟨?_, rfl⟩
      rintro p ⟨_, _, rfl, rfl, hb, hq, -⟩
      exact hempty.elim hb hq
    · obtain ⟨hb, hq⟩ := not_or.mp hempty
      refine .inl ⟨_, fun p' => ⟨?_, ?_⟩, rfl⟩
      · rintro ⟨_, _, rfl, rfl, -, -, rfl⟩
        rfl
      · rintro rfl
        exact ⟨base, quote, rfl, rfl, hb, hq, rfl⟩
  · rename_i hnames
    refine .inr ⟨?_, rfl⟩
    rintro p ⟨base, quote, hb, hq, -⟩
    exact hnames base quote hb hq

/-- A resolver of the markets of a list: it knows their pairs, and nothing else. -/
structure MarketResolver.Knows (u : Unicode) (names : ℕ → Option String) (l : List MarketShim)
    (r : MarketResolver) : Prop where
  sound : ∀ p i, r.pairToIdx.get p = some i → ∃ m ∈ l, m.marketIndex = i ∧ m.Resolves u names p
  complete : ∀ m ∈ l, ∀ p, m.Resolves u names p → ∃ i, r.pairToIdx.get p = some i
  precise : ∀ p i, r.pairToIdx.get p = some i → r.decimals.get i = some defaultPriceDecimals

theorem MarketResolver.Knows.add {l : List MarketShim} (h : r.Knows u names l)
    (hm : m.decimals = defaultPriceDecimals) : (r.add u names m).Knows u names (l ++ [m]) := by
  rcases add_cases u names r m with ⟨p, hp, heq⟩ | ⟨hnone, heq⟩
  · rw [heq]
    refine ⟨fun p' i hi => ?_, fun m' hm' p' hres => ?_, fun p' i hi => ?_⟩
    · rw [KVStore.get_set] at hi
      split_ifs at hi with hpair
      · exact ⟨m, by simp, Option.some.inj hi, (hp p').mpr hpair⟩
      · obtain ⟨m', hm', hboth⟩ := h.sound p' i hi
        exact ⟨m', List.mem_append_left _ hm', hboth⟩
    · rw [KVStore.get_set]
      split_ifs with hpair
      · exact ⟨_, rfl⟩
      · rcases List.mem_append.mp hm' with hm' | hm'
        · exact h.complete m' hm' p' hres
        · obtain rfl := List.mem_singleton.mp hm'
          exact absurd ((hp p').mp hres) hpair
    · rw [KVStore.get_set] at hi ⊢
      split_ifs with hidx
      · rw [hm]
      · split_ifs at hi with hpair
        · exact absurd (Option.some.inj hi).symm hidx
        · exact h.precise p' i hi
  · rw [heq]
    refine ⟨fun p i hi => ?_, fun m' hm' p hres => ?_, h.precise⟩
    · obtain ⟨m', hm', hboth⟩ := h.sound p i hi
      exact ⟨m', List.mem_append_left _ hm', hboth⟩
    · rcases List.mem_append.mp hm' with hm' | hm'
      · exact h.complete m' hm' p hres
      · obtain rfl := List.mem_singleton.mp hm'
        exact absurd hres (hnone p)

theorem MarketResolver.knows_refresh (u : Unicode) (reg : Registry) :
    (refresh u reg).Knows u reg.displayName reg.shims := by
  have hdecimals : ∀ m ∈ reg.shims, m.decimals = defaultPriceDecimals := by
    intro m hm
    obtain ⟨_, -, rfl⟩ := List.mem_map.mp hm
    rfl
  unfold refresh
  generalize reg.shims = l at hdecimals
  induction l using List.reverseRecOn with
  | nil =>
    refine ⟨fun p i hi => ?_, fun m hm => ?_, fun p i hi => ?_⟩
    · cases hi
    · cases hm
    · cases hi
  | append_singleton l m ih =>
    rw [List.foldl_append]
    exact (ih fun m' hm' => hdecimals m' (List.mem_append_left _ hm')).add (hdecimals m (by simp))

end Resolver

/-! ### What a poll leaves in the cache -/

section Poll

variable {u} {r : MarketResolver} {D : ℕ} {now : ℤ} {c : Cache} {i v : ℕ} {q : PriceQuote}
  {quotes : List PriceQuote}

/-- An entry of this poll. -/
def Cache.Fresh (c : Cache) (i : ℕ) (now : ℤ) : Prop := ∃ e, c.get i = some e ∧ e.updatedAt = now

theorem Cache.fresh_set {j price : ℕ} :
    (c.set j price now).Fresh i now ↔ c.Fresh i now ∨ price ≠ 0 ∧ i = j := by
  unfold Cache.set Fresh
  split_ifs with hzero
  · simp [hzero]
  · rw [Table.get_put]
    split_ifs with hi
    · simp [hzero, show i = j from hi]
    · simp [show ¬ i = j from hi]

theorem fresh_cacheQuote : (cacheQuote u r D now c q).Fresh i now ↔ c.Fresh i now ∨
    r.marketIndex u q.pair = some i ∧ ∃ v, scalePrice q.value D (r.decimalsOf i) = some v ∧ v ≠ 0 := by
  unfold cacheQuote
  split
  · rename_i hnone
    simp [hnone]
  · rename_i idx hidx
    split
    · rename_i hscale
      rw [hidx, or_iff_left]
      rintro ⟨hi, v, hv, -⟩
      cases hi
      cases hscale.symm.trans hv
    · rename_i scaled hscale
      rw [Cache.fresh_set, hidx]
      refine or_congr_right ⟨?_, ?_⟩
      · rintro ⟨hne, rfl⟩
        exact ⟨rfl, scaled, hscale, hne⟩
      · rintro ⟨hi, v, hv, hne⟩
        cases hi
        cases hscale.symm.trans hv
        exact ⟨hne, rfl⟩

theorem fresh_poll : (poll u r D now c quotes).Fresh i now ↔ c.Fresh i now ∨
    ∃ q ∈ quotes, r.marketIndex u q.pair = some i ∧
      ∃ v, scalePrice q.value D (r.decimalsOf i) = some v ∧ v ≠ 0 := by
  unfold poll
  induction quotes generalizing c with
  | nil => simp
  | cons q rest ih =>
    rw [List.foldl_cons, ih, fresh_cacheQuote, or_assoc, List.exists_mem_cons_iff]

end Poll

theorem exists_scalePrice (D : ℕ) : ∃ raw v, scalePrice raw D defaultPriceDecimals = some v ∧ v ≠ 0 := by
  match D with
  | 0 => exact ⟨1, 100, rfl, by decide⟩
  | 1 => exact ⟨1, 10, rfl, by decide⟩
  | 2 => exact ⟨1, 1, rfl, by decide⟩
  | n + 3 =>
    have hpos : (0 : ℤ) < 10 ^ (n + 1) := by positivity
    have hne : ¬ n + 3 = defaultPriceDecimals := by unfold defaultPriceDecimals; omega
    have hge : ¬ n + 3 < defaultPriceDecimals := by unfold defaultPriceDecimals; omega
    have hdigits : n + 3 - defaultPriceDecimals = n + 1 := by unfold defaultPriceDecimals; omega
    refine ⟨10 ^ (n + 1), 1, ?_, by decide⟩
    simp only [scalePrice, hpos.not_ge, hne, hge, hdigits, if_false, Int.tdiv_self hpos.ne']
    rfl

/-! ### Markets that are fed -/

/-- The display names of the assets of a market make up a pair. -/
def Registry.HasPair (reg : Registry) (u : Unicode) (m : Market) (p : String) : Prop :=
  ∃ base quote, reg.displayName m.baseAssetId = some base ∧
    reg.displayName m.quoteAssetId = some quote ∧ pairFromAssets u base quote = p

/-- A quote for its pair that fits, and is not zero, gives a market a fresh price. -/
def Registry.Fed (reg : Registry) (u : Unicode) (D : ℕ) : Prop :=
  ∀ (c : Cache) now quotes, ∀ m ∈ reg.markets.toList, ∀ p, reg.HasPair u m p → ∀ q ∈ quotes,
    toUpper u q.pair = p → ∀ v, scalePrice q.value D defaultPriceDecimals = some v → v ≠ 0 →
      (poll u (.refresh u reg) D now c quotes).Fresh m.marketIndex now

/-- No display name is empty, and no two markets have the same pair. -/
structure Registry.Distinct (reg : Registry) (u : Unicode) : Prop where
  named : ∀ m ∈ reg.markets.toList, ∀ base quote, reg.displayName m.baseAssetId = some base →
    reg.displayName m.quoteAssetId = some quote → base ≠ "" ∧ quote ≠ ""
  apart : ∀ m ∈ reg.markets.toList, ∀ m' ∈ reg.markets.toList, ∀ p, reg.HasPair u m p →
    reg.HasPair u m' p → m = m'

section Fed

variable {u} {reg : Registry} {D : ℕ} {m : Market} {p : String}

theorem Registry.mem_shims {shim : MarketShim} : shim ∈ reg.shims ↔ ∃ m ∈ reg.markets.toList,
    shim = ⟨m.marketIndex, m.baseAssetId, m.quoteAssetId, defaultPriceDecimals⟩ := by
  simp only [shims, List.mem_map, eq_comm]

theorem Registry.market_of_get {i : ℕ}
    (h : (MarketResolver.refresh u reg).pairToIdx.get p = some i) :
    ∃ m ∈ reg.markets.toList, m.marketIndex = i ∧ ∃ base quote,
      reg.displayName m.baseAssetId = some base ∧ reg.displayName m.quoteAssetId = some quote ∧
        base ≠ "" ∧ quote ≠ "" ∧ pairFromAssets u base quote = p := by
  obtain ⟨_, hmem, rfl, hres⟩ := (MarketResolver.knows_refresh u reg).sound p i h
  obtain ⟨m, hm, rfl⟩ := Registry.mem_shims.mp hmem
  exact ⟨m, hm, rfl, hres⟩

theorem Registry.eq_of_marketIndex {m' : Market} (hm : m ∈ reg.markets.toList)
    (hm' : m' ∈ reg.markets.toList) (h : m.marketIndex = m'.marketIndex) : m = m' := by
  have hget := Table.mem_toList_iff.mp hm
  rw [h] at hget
  exact Option.some.inj (hget.symm.trans (Table.mem_toList_iff.mp hm'))

/-- If every market is fed, a pair resolves to each market that has it: the cache may be empty, and a
quote be the only one. -/
theorem Registry.Fed.get (h : reg.Fed u D) (hm : m ∈ reg.markets.toList) (hp : reg.HasPair u m p) :
    (MarketResolver.refresh u reg).pairToIdx.get p = some m.marketIndex := by
  have hupper : toUpper u p = p := by
    obtain ⟨base, quote, -, -, rfl⟩ := hp
    exact toUpper_pairFromAssets u base quote
  obtain ⟨raw, v, hv, hne⟩ := exists_scalePrice D
  have hfresh := h Table.empty 0 [⟨p, raw⟩] m hm p hp ⟨p, raw⟩ (by simp) hupper v hv hne
  rcases fresh_poll.mp hfresh with ⟨e, he, -⟩ | ⟨q, hq, hidx, -⟩
  · cases he
  · obtain rfl := List.mem_singleton.mp hq
    rw [MarketResolver.marketIndex, hupper] at hidx
    exact hidx

/-- **Every market is fed** if and only if no display name is empty and no two markets share a pair:
of those that do, the resolver remembers the last one. -/
theorem markets_fed_iff (u : Unicode) (reg : Registry) (D : ℕ) : reg.Fed u D ↔ reg.Distinct u := by
  constructor
  · intro h
    refine ⟨fun m hm base quote hb hq => ?_, fun m hm m' hm' p hp hp' => ?_⟩
    · obtain ⟨m', hm', hi, base', quote', hb', hq', hne, hne', -⟩ :=
        Registry.market_of_get (h.get hm ⟨base, quote, hb, hq, rfl⟩)
      obtain rfl := Registry.eq_of_marketIndex hm' hm hi
      cases hb'.symm.trans hb
      cases hq'.symm.trans hq
      exact ⟨hne, hne'⟩
    · have hi := (h.get hm hp).symm.trans (h.get hm' hp')
      exact Registry.eq_of_marketIndex hm hm' (Option.some.inj hi)
  · intro h c now quotes m hm p hp q hq hpair v hv hne
    have hknows := MarketResolver.knows_refresh u reg
    obtain ⟨base, quote, hb, hq', hbq⟩ := hp
    obtain ⟨hbase, hquote⟩ := h.named m hm base quote hb hq'
    obtain ⟨i, hi⟩ := hknows.complete _ (Registry.mem_shims.mpr ⟨m, hm, rfl⟩) p
      ⟨base, quote, hb, hq', hbase, hquote, hbq⟩
    have hget : (MarketResolver.refresh u reg).pairToIdx.get p = some m.marketIndex := by
      obtain ⟨m', hm', rfl, b', q', hb', hq'', -, -, hp'⟩ := Registry.market_of_get hi
      rw [hi, h.apart m' hm' m hm p ⟨b', q', hb', hq'', hp'⟩ ⟨base, quote, hb, hq', hbq⟩]
    have hdecimals : (MarketResolver.refresh u reg).decimalsOf m.marketIndex = defaultPriceDecimals := by
      rw [MarketResolver.decimalsOf, hknows.precise p _ hget]
      rfl
    refine fresh_poll.mpr (.inr ⟨q, hq, ?_, v, ?_, hne⟩)
    · rw [MarketResolver.marketIndex, hpair, hget]
    · rw [hdecimals, hv]

end Fed

/-- ASCII letters and space. -/
def ascii : Unicode where
  upper := Char.toUpper
  isSpace := Char.isWhitespace
  upper_upper c := by
    unfold Char.toUpper
    split
    · rename_i h
      split
      · -- an upper-case letter is no lower-case one
        rename_i h'
        exfalso
        simp only [UInt32.le_iff_toNat_le, UInt32.toNat_add] at h h'
        revert h h'
        simp
        omega
      · rfl
    · rfl
  upper_of_mem := by
    simp only [List.mem_cons, List.not_mem_nil, or_false, forall_eq_or_imp, forall_eq]
    decide

/-- Bitcoin in dollars, and in tether or euros. -/
def twoMarkets (quote : String) : Registry where
  markets := Table.ofRows [
    { marketIndex := 0, baseAssetId := 1, quoteAssetId := 2 },
    { marketIndex := 2048, baseAssetId := 1, quoteAssetId := 3, marketType := .spot }]
  displayName := fun
    | 1 => some "btc"
    | 2 => some "USD"
    | 3 => some quote
    | _ => none

/-- The perp market in dollars gets no price: its pair belongs to the spot market in tether. -/
theorem shared_pair_starves :
    (twoMarkets "USDT").HasPair ascii { marketIndex := 0, baseAssetId := 1, quoteAssetId := 2 }
      "BTC/USD" ∧
    scalePrice 6000000000000 8 2 = some 6000000 ∧
    (poll ascii (.refresh ascii (twoMarkets "USDT")) 8 1000 Table.empty
      [⟨"BTC/USD", 6000000000000⟩]).toList = [⟨2048, 6000000, 1000⟩] :=
  ⟨⟨"btc", "USD", rfl, rfl, by decide +kernel⟩, by decide +kernel, by decide +kernel⟩

end PerpDex.Oracle
