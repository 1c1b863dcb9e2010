/-
When markets expire.

* `Scheduled` — the expiry index lists the active markets that have an expiry, and nothing else.

Main results: `Sweep.iterateExpired`, `expiry_bookkeeping`.

The sweep walks the keys it found when it started and removes them as it goes.  That it expires the
markets behind them is therefore proved for an arbitrary list of keys.
-/
import Mathlib.Logic.Relation
import PerpDex.Hooks
import PerpDex.MarketMsgs
import PerpDex.SecondaryIndex

namespace PerpDex

open Txn

/-- The entry of a market in the expiry index. -/
def dueEntry (mk : Market) : Option ((ℤ ×ₗ ℕ) × Unit) :=
  if mk.isIndexed then some (toLex (mk.expiryTimestamp, mk.marketIndex), ()) else none

/-- The expiry index is exact, and expiries are not negative. -/
structure Scheduled (s : State) : Prop where
  index : IsIndex s.market.markets dueEntry s.market.expiryIndex
  expiry : ∀ m mk, s.market.markets.get m = some mk → 0 ≤ mk.expiryTimestamp

structure SameMarkets (s t : State) : Prop where
  markets : t.market.markets = s.market.markets
  expiryIndex : t.market.expiryIndex = s.market.expiryIndex

variable {s t u : State} {m : ℕ} {mk old : Market} {v : Unit}

theorem SameMarkets.scheduled (h : SameMarkets s t) (hs : Scheduled s) : Scheduled t where
  index := by
    rw [h.markets, h.expiryIndex]
    exact hs.index
  expiry := by
    rw [h.markets]
    exact hs.expiry

theorem Traded.sameMarkets (h : Traded s t) : SameMarkets s t :=
  ⟨by rw [h.frame], by rw [h.frame]⟩

theorem dueEntry_eq_some {x : ℤ} {w : Unit} :
    dueEntry mk = some (toLex (x, m), w) ↔
      mk.status = .active ∧ 0 < mk.expiryTimestamp ∧ mk.expiryTimestamp = x ∧
        mk.marketIndex = m := by
  unfold dueEntry
  split
  · rename_i hindexed
    simp only [Market.isIndexed, Bool.and_eq_true, decide_eq_true_eq] at hindexed
    simp [hindexed]
  · rename_i hindexed
    simp only [Market.isIndexed, Bool.and_eq_true, decide_eq_true_eq, not_and] at hindexed
    simp only [reduceCtorEq, false_iff]
    rintro ⟨hactive, hpos, -⟩
    exact hindexed hactive hpos

theorem dueEntry_index {l : ℤ ×ₗ ℕ} {w : Unit} (h : dueEntry mk = some (l, w)) :
    (ofLex l).2 = mk.marketIndex :=
  ((dueEntry_eq_some (x := (ofLex l).1) (m := (ofLex l).2)).mp h).2.2.2.symm

/-! ### Writes -/

theorem Scheduled.put (h : Scheduled s) (hexpiry : 0 ≤ mk.expiryTimestamp)
    (hmarkets : t.market.markets = s.market.markets.put mk)
    (hindex : t.market.expiryIndex = s.market.expiryIndex.replace
      ((s.market.markets.get mk.marketIndex).bind dueEntry) (dueEntry mk)) : Scheduled t where
  index := by
    rw [hmarkets, hindex]
    refine h.index.put mk (fun _ _ => rfl) fun r l w w' _ hmk hr => ?_
    exact (dueEntry_index hr).symm.trans (dueEntry_index hmk)
  expiry m' mk' hget := by
    rw [hmarkets, Table.get_put] at hget
    split at hget
    · cases hget
      exact hexpiry
    · exact h.expiry m' mk' hget

theorem createMarket_run (s : State) (mk : Market) :
    ∃ t, (createMarket mk).run s = .ok () t ∧
      t.market.markets = s.market.markets.put mk ∧
      t.market.expiryIndex = s.market.expiryIndex.replace none (dueEntry mk) := by
  unfold createMarket dueEntry
  cases mk.isIndexed with
  | true => exact ⟨_, rfl, rfl, rfl⟩
  | false => exact ⟨_, rfl, rfl, rfl⟩

theorem createMarket_scheduled (h : Scheduled s) (hexpiry : 0 ≤ mk.expiryTimestamp)
    (hfree : s.market.markets.get mk.marketIndex = none)
    (hrun : (createMarket mk).run s = .ok v t) :
    Scheduled t ∧ t.market.markets = s.market.markets.put mk := by
  obtain ⟨t', ht', hmarkets, hindex⟩ := createMarket_run s mk
  cases hrun.symm.trans ht'
  refine ⟨h.put hexpiry hmarkets ?_, hmarkets⟩
  rw [hfree]
  exact hindex

theorem updateMarket_run (h : Scheduled s) (hold : s.market.markets.get old.marketIndex = some old)
    (hkey : mk.marketIndex = old.marketIndex) :
    ∃ t, (updateMarket old mk).run s = .ok () t ∧
      t.market.markets = s.market.markets.put mk ∧
      t.market.expiryIndex = s.market.expiryIndex.replace (dueEntry old) (dueEntry mk) := by
  have hsame := h.index.replace_same hold
  unfold updateMarket dueEntry at *
  cases hwas : old.isIndexed with
  | false =>
    cases hwants : mk.isIndexed with
    | false => exact ⟨_, rfl, rfl, rfl⟩
    | true =>
      simp only [when, reduceCtorEq, false_and, true_and, true_or, if_true, if_false]
      exact ⟨_, rfl, rfl, rfl⟩
  | true =>
    cases hwants : mk.isIndexed with
    | false =>
      simp only [when, reduceCtorEq, false_and, true_and, true_or, if_true, if_false]
      exact ⟨_, rfl, rfl, rfl⟩
    | true =>
      by_cases hexpiry : old.expiryTimestamp = mk.expiryTimestamp
      · -- The entry stays where it is.
        simp only [when, hexpiry, reduceCtorEq, ne_eq, not_true_eq_false, or_self, and_false,
          if_false]
        refine ⟨_, rfl, rfl, ?_⟩
        simp only [hwas, if_true, hexpiry] at hsame
        simp only [if_true, hkey]
        exact hsame.symm
      · simp only [when, ne_eq, hexpiry, not_false_eq_true, or_true, and_self, if_true]
        exact ⟨_, rfl, rfl, rfl⟩

theorem updateMarket_scheduled (h : Scheduled s)
    (hold : s.market.markets.get old.marketIndex = some old)
    (hkey : mk.marketIndex = old.marketIndex) (hexpiry : 0 ≤ mk.expiryTimestamp)
    (hrun : (updateMarket old mk).run s = .ok v t) :
    Scheduled t ∧ t.market.markets = s.market.markets.put mk := by
  obtain ⟨t', ht', hmarkets, hindex⟩ := updateMarket_run h hold hkey
  cases hrun.symm.trans ht'
  refine ⟨h.put hexpiry hmarkets ?_, hmarkets⟩
  rw [hkey, hold]
  exact hindex

theorem applyExitPosition_traded (m : ℕ) : Keeps Traded (applyExitPosition m) :=
  applyExitPosition_rule (fun _ _ => Or.inl fun f _ => apply_keeps f) m

theorem applyMarketExit_sameMarkets (hrun : (applyMarketExit mk).run s = .ok v t) :
    SameMarkets s t := by
  have hkeeps : Keeps Traded (applyMarketExit mk) :=
    (applyExitPosition_traded _).attempt.bind fun _ => Keeps.pure
  exact (hkeeps.ok hrun).sameMarkets

theorem expireMarket_scheduled (h : Scheduled s)
    (hmk : s.market.markets.get mk.marketIndex = some mk)
    (hrun : (expireMarket mk).run s = .ok v t) :
    Scheduled t ∧ t.market.markets = s.market.markets.put { mk with status := .expired } := by
  obtain ⟨_, s₁, h₁, hexit⟩ := run_bind_ok.mp hrun
  have hkey : ({ mk with status := .expired } : Market).marketIndex = mk.marketIndex := rfl
  obtain ⟨hs₁, hmarkets⟩ := updateMarket_scheduled h hmk hkey (h.expiry _ mk hmk) h₁
  have hsame : SameMarkets s₁ t := applyMarketExit_sameMarkets hexit
  exact ⟨hsame.scheduled hs₁, hsame.markets.trans hmarkets⟩

theorem expireMarket_isValue {e : Err} (h : Scheduled s)
    (hmk : s.market.markets.get mk.marketIndex = some mk)
    (hrun : (expireMarket mk).run s = .error e t) : e.isValue = false := by
  rcases run_bind_error.mp hrun with hupdate | ⟨_, s₁, -, hexit⟩
  · obtain ⟨t', ht', -⟩ := updateMarket_run h hmk
      (show ({ mk with status := .expired } : Market).marketIndex = mk.marketIndex from rfl)
    cases ht'.symm.trans hupdate
  · rcases run_bind_error.mp hexit with hlogged | ⟨_, _, -, hpure⟩
    · exact (run_attempt_error.mp hlogged).1
    · cases hpure

/-! ### The sweep -/

def activeAt (s : State) (m : ℕ) : Bool :=
  (s.market.markets.get m).any fun mk => decide (mk.status = .active)

/-- The markets that were active in `s` and are not in `t`. -/
def expiredSince (s t : State) : Finset ℕ :=
  s.market.markets.rows.keys.filter fun m => activeAt s m = true ∧ activeAt t m = false

theorem activeAt_eq_true :
    activeAt s m = true ↔ ∃ mk, s.market.markets.get m = some mk ∧ mk.status = .active := by
  simp only [activeAt, Option.any_eq_true, decide_eq_true_eq]

theorem mem_expiredSince : m ∈ expiredSince s t ↔ activeAt s m = true ∧ activeAt t m = false := by
  rw [expiredSince, Finset.mem_filter, and_iff_right_iff_imp]
  rintro ⟨hactive, -⟩
  obtain ⟨mk, hmk, -⟩ := activeAt_eq_true.mp hactive
  exact KVStore.mem_keys.mpr ⟨mk, hmk⟩

/-- Nothing happened to the markets but that some expired, each of them active before. -/
structure Sweep (s t : State) : Prop where
  scheduled : Scheduled t
  now : t.now = s.now
  kept : ∀ m mk, t.market.markets.get m = some mk → mk.status = .active →
    s.market.markets.get m = some mk
  frozen : ∀ m mk, s.market.markets.get m = some mk → mk.status = .expired →
    t.market.markets.get m = some mk

theorem Sweep.refl (h : Scheduled s) : Sweep s s := ⟨h, rfl, fun _ _ h _ => h, fun _ _ h _ => h⟩

theorem Sweep.trans (h : Sweep s t) (h' : Sweep t u) : Sweep s u where
  scheduled := h'.scheduled
  now := h'.now.trans h.now
  kept m mk hmk hst := h.kept m mk (h'.kept m mk hmk hst) hst
  frozen m mk hmk hst := h'.frozen m mk (h.frozen m mk hmk hst) hst

theorem Sweep.activeAt_false (h : Sweep s t) (hs : activeAt s m = false) :
    activeAt t m = false := by
  by_contra hne
  obtain ⟨mk, hmk, hst⟩ := activeAt_eq_true.mp (by simpa using hne)
  have hactive : activeAt s m = true := activeAt_eq_true.mpr ⟨mk, h.kept m mk hmk hst, hst⟩
  rw [hs] at hactive
  cases hactive

theorem Sweep.expire (h : Scheduled s) (hmk : s.market.markets.get mk.marketIndex = some mk)
    (hst : mk.status = .active) (hrun : (expireMarket mk).run s = .ok v t) :
    Sweep s t ∧ activeAt t mk.marketIndex = false := by
  obtain ⟨hsched, hmarkets⟩ := expireMarket_scheduled h hmk hrun
  have hforced : Forced s t := by
    obtain ⟨_, s₁, h₁, hexit⟩ := run_bind_ok.mp hrun
    have hfirst := expire_forced hmk hst
    rw [after_of_ok h₁] at hfirst
    have hkeeps : Keeps Traded (do
        let _ ← logged (applyExitPosition mk.marketIndex) : Tx Unit) :=
      (applyExitPosition_traded _).attempt.bind fun _ => Keeps.pure
    exact trans_of Forced hfirst (hkeeps.ok hexit).forced
  refine ⟨⟨hsched, by rw [hforced.frame], fun m mk' hmk' hst' => ?_, hforced.expired⟩, ?_⟩
  · rw [hmarkets, Table.get_put] at hmk'
    split at hmk'
    · cases hmk'
      cases hst'
    · exact hmk'
  · rw [activeAt, hmarkets]
    have hget := Table.get_put_self s.market.markets { mk with status := .expired }
    rw [hget]
    rfl

theorem Sweep.dropKey (h : Scheduled s) {key : ℤ ×ₗ ℕ} (hkey : activeAt s (ofLex key).2 = false) :
    s.market.expiryIndex.remove key = s.market.expiryIndex := by
  refine KVStore.ext_get fun j => ?_
  rw [KVStore.get_remove]
  split
  · rename_i hj
    subst hj
    refine (h.index.get_none fun mk w hmk hentry => ?_).symm
    have hactive : activeAt s (ofLex j).2 = true := by
      obtain ⟨hst, -, -, hm⟩ := (dueEntry_eq_some (x := (ofLex j).1) (m := (ofLex j).2)).mp hentry
      exact activeAt_eq_true.mpr ⟨mk, hm ▸ hmk, hst⟩
    rw [hkey] at hactive
    cases hactive
  · rfl

/-- **The sweep expires all the markets on its list, or as many as its budget allows.** -/
theorem Sweep.iterateExpired {keys : List (ℤ ×ₗ ℕ)} :
    ∀ {s : State} {budget : ℕ}, Scheduled s →
      (PerpDex.iterateExpired keys budget).run s = .ok v t →
      Sweep s t ∧ ((∀ key ∈ keys, activeAt t (ofLex key).2 = false) ∨
        budget ≤ (expiredSince s t).card) := by
  induction keys with
  | nil =>
    intro s budget h hrun
    obtain ⟨-, rfl⟩ := run_pure_ok.mp hrun
    exact ⟨Sweep.refl h, .inl fun _ hkey => absurd hkey List.not_mem_nil⟩
  | cons key rest ih =>
    intro s budget h hrun
    rcases budget with _ | budget
    · obtain ⟨-, rfl⟩ := run_pure_ok.mp hrun
      exact ⟨Sweep.refl h, .inr (Nat.zero_le _)⟩
    -- The market is gone or closed: its key is dropped and nothing is counted.
    have hstale : ∀ {s₁ : State}, activeAt s (ofLex key).2 = false →
        s₁ = { s with market := { s.market with
          expiryIndex := s.market.expiryIndex.remove key } } →
        (PerpDex.iterateExpired rest (budget + 1)).run s₁ = .ok v t →
        Sweep s t ∧ ((∀ k ∈ key :: rest, activeAt t (ofLex k).2 = false) ∨
          budget + 1 ≤ (expiredSince s t).card) := by
      intro s₁ hclosed hs₁ hrest
      rw [Sweep.dropKey h hclosed] at hs₁
      subst hs₁
      obtain ⟨hsweep, hdone⟩ := ih h hrest
      refine ⟨hsweep, hdone.imp_left fun hall k hk => ?_⟩
      rcases List.mem_cons.mp hk with rfl | hk
      · exact hsweep.activeAt_false hclosed
      · exact hall k hk
    simp only [PerpDex.iterateExpired, run_bind_read] at hrun
    rcases hget : getMarket (ofLex key).2 s with e | mk
    · simp only [hget] at hrun
      refine hstale ?_ rfl hrun
      rcases hmarket : s.market.markets.get (ofLex key).2 with _ | mk
      · rw [activeAt, hmarket]
        rfl
      · rw [getMarket_eq_ok.mpr hmarket] at hget
        cases hget
    · simp only [hget] at hrun
      have hmk := getMarket_eq_ok.mp hget
      have hidx : mk.marketIndex = (ofLex key).2 := Table.key_of_get hmk
      have hstored : s.market.markets.get mk.marketIndex = some mk := by rw [hidx]; exact hmk
      by_cases hst : mk.status = .active
      · rw [if_neg (not_not.mpr hst)] at hrun
        obtain ⟨visited, s₁, hvisit, hrun⟩ := run_bind_ok.mp hrun
        rcases run_attempt_ok.mp hvisit with ⟨_, rfl, hexpire⟩ | ⟨e, rfl, hvalue, hexpire⟩
        · obtain ⟨hfirst, hclosed⟩ := Sweep.expire h hstored hst hexpire
          rw [hidx] at hclosed
          obtain ⟨hsweep, hdone⟩ := ih hfirst.scheduled hrun
          refine ⟨hfirst.trans hsweep, hdone.imp (fun hall k hk => ?_) fun hcard => ?_⟩
          · rcases List.mem_cons.mp hk with rfl | hk
            · exact hsweep.activeAt_false hclosed
            · exact hall k hk
          · have hactive : activeAt s (ofLex key).2 = true := activeAt_eq_true.mpr ⟨mk, hmk, hst⟩
            have hnew : (ofLex key).2 ∉ expiredSince s₁ t := by
              rw [mem_expiredSince, hclosed]
              simp
            have hsub : insert (ofLex key).2 (expiredSince s₁ t) ⊆ expiredSince s t := by
              intro m hm
              rcases Finset.mem_insert.mp hm with rfl | hm
              · exact mem_expiredSince.mpr ⟨hactive, hsweep.activeAt_false hclosed⟩
              · obtain ⟨hm₁, hm₂⟩ := mem_expiredSince.mp hm
                obtain ⟨mk', hmk', hst'⟩ := activeAt_eq_true.mp hm₁
                exact mem_expiredSince.mpr
                  ⟨activeAt_eq_true.mpr ⟨mk', hfirst.kept m mk' hmk' hst', hst'⟩, hm₂⟩
            calc budget + 1 ≤ (expiredSince s₁ t).card + 1 := Nat.succ_le_succ hcard
              _ = (insert (ofLex key).2 (expiredSince s₁ t)).card :=
                (Finset.card_insert_of_notMem hnew).symm
              _ ≤ (expiredSince s t).card := Finset.card_le_card hsub
        · have hpanic := expireMarket_isValue h hstored hexpire
          rw [hvalue] at hpanic
          cases hpanic
      · rw [if_pos hst] at hrun
        refine hstale ?_ rfl hrun
        rw [activeAt, hmk, Option.any_some, decide_eq_false_iff_not]
        exact hst

theorem marketEndBlocker_sweep (h : Scheduled s) (hrun : marketEndBlocker.run s = .ok v t) :
    Sweep s t ∧ ((∀ m mk, s.market.markets.get m = some mk → mk.status = .active →
        mk.expiryTimestamp ≠ 0 → mk.expiryTimestamp ≤ s.now → activeAt t m = false) ∨
      s.market.params.maxMarketsExpiredPerBlock ≤ (expiredSince s t).card) := by
  simp only [marketEndBlocker, run_bind_read] at hrun
  obtain ⟨hsweep, hdone⟩ := Sweep.iterateExpired h hrun
  refine ⟨hsweep, hdone.imp_left fun hall m mk hmk hst hne hdue => ?_⟩
  have hidx : mk.marketIndex = m := Table.key_of_get hmk
  have hpos : 0 < mk.expiryTimestamp := lt_of_le_of_ne (h.expiry m mk hmk) (Ne.symm hne)
  have hlisted : s.market.expiryIndex.get (toLex (mk.expiryTimestamp, m)) = some () := by
    refine h.index.get (r := mk) (by rw [hidx]; exact hmk) ?_
    exact dueEntry_eq_some.mpr ⟨hst, hpos, rfl, hidx⟩
  refine hall (toLex (mk.expiryTimestamp, m)) (List.mem_map.mpr ⟨(_, ()), ?_, rfl⟩)
  exact List.mem_filter.mpr ⟨KVStore.mem_entries.mpr hlisted, decide_eq_true hdue⟩

/-! ### Genesis -/

theorem validateMarketStatics_expiry (h : validateMarketStatics mk = .ok v) :
    0 ≤ mk.expiryTimestamp := by
  simp only [validateMarketStatics, checkExpiry, except_bind_ok, ensure_ok] at h
  omega

theorem validateMarkets_scheduled {params : MarketParams} {markets : List Market} :
    ∀ {seen : List ℕ} {s : State},
      MarketGenesis.validateMarkets params seen markets = .ok () →
      (∀ m mk, s.market.markets.get m = some mk → m ∈ seen) → Scheduled s →
      (markets.forM createMarket).run s = .ok v t → Scheduled t := by
  induction markets with
  | nil =>
    intro seen s _ _ h hrun
    obtain ⟨-, rfl⟩ := run_pure_ok.mp hrun
    exact h
  | cons mk rest ih =>
    intro seen s hvalid hseen h hrun
    simp only [MarketGenesis.validateMarkets, except_bind_ok, ensure_ok] at hvalid
    obtain ⟨_, hnew, _, hstatics, _, -, hvalid⟩ := hvalid
    obtain ⟨_, s₁, h₁, hrun⟩ := run_bind_ok.mp hrun
    have hfree : s.market.markets.get mk.marketIndex = none := by
      rcases hget : s.market.markets.get mk.marketIndex with _ | mk'
      · rfl
      · exact absurd (hseen _ _ hget) hnew
    obtain ⟨hs₁, hmarkets⟩ :=
      createMarket_scheduled h (validateMarketStatics_expiry hstatics) hfree h₁
    refine ih hvalid (fun m mk' hget => ?_) hs₁ hrun
    rw [hmarkets, Table.get_put] at hget
    split at hget
    · rename_i hm
      exact hm ▸ List.mem_cons_self
    · exact List.mem_cons_of_mem _ (hseen m mk' hget)

theorem setMarketDetails_sameMarkets {d : MarketDetails}
    (hrun : (setMarketDetails d).run s = .ok v t) : SameMarkets s t := by
  cases hrun
  exact ⟨rfl, rfl⟩

theorem MarketGenesis.init_scheduled {gs : MarketGenesis} (hvalid : gs.validate = .ok ())
    (hmarkets : s.market.markets = Table.empty) (hindex : s.market.expiryIndex = KVStore.empty)
    (hrun : gs.init.run s = .ok v t) : Scheduled t := by
  simp only [MarketGenesis.validate, except_bind_ok] at hvalid
  obtain ⟨_, -, _, hvalid, -⟩ := hvalid
  simp only [MarketGenesis.init, run_bind_write] at hrun
  obtain ⟨_, s₁, h₁, hrun⟩ := run_bind_ok.mp hrun
  have hempty : Scheduled { s with market := { s.market with params := gs.params } } := by
    refine ⟨?_, fun m mk hget => ?_⟩
    · show IsIndex s.market.markets dueEntry s.market.expiryIndex
      rw [hmarkets, hindex]
      exact IsIndex.empty
    · rw [show s.market.markets.get m = none by rw [hmarkets]; rfl] at hget
      cases hget
  have hs₁ : Scheduled s₁ := by
    refine validateMarkets_scheduled hvalid (fun m mk hget => ?_) hempty h₁
    rw [show s.market.markets.get m = none by rw [hmarkets]; rfl] at hget
    cases hget
  refine forM_rule (P := fun _ s => Scheduled s) ?_ hrun hs₁
  exact fun d rest u w _ hu _ hstep => (setMarketDetails_sameMarkets hstep).scheduled hu

/-! ### What can happen to the markets -/

section Steps

variable [AddressCodec] {authority : String}

/-- A message of the module's authority, the expiry of a market, a run of the end blocker, or anything that
leaves the markets and their expiry index alone. -/
inductive MarketStep (authority : String) (s : State) : State → Prop
  | create {t : State} (msg : MsgCreateMarket)
      (h : (MarketServer.createMarket authority msg).run s = .ok () t) : MarketStep authority s t
  | update {t : State} (msg : MsgUpdateMarket)
      (h : (MarketServer.updateMarket authority msg).run s = .ok () t) : MarketStep authority s t
  | updateDetails {t : State} (msg : MsgUpdateMarketDetails)
      (h : (MarketServer.updateMarketDetails authority msg).run s = .ok () t) :
      MarketStep authority s t
  | updateParams {t : State} (msg : MsgUpdateMarketParams)
      (h : (MarketServer.updateParams authority msg).run s = .ok () t) : MarketStep authority s t
  | expire {t : State} {mk : Market} (hmk : s.market.markets.get mk.marketIndex = some mk)
      (hst : mk.status = .active) (h : (expireMarket mk).run s = .ok () t) :
      MarketStep authority s t
  | endBlock {t : State} (h : marketEndBlocker.run s = .ok () t) : MarketStep authority s t
  | other {t : State} (h : SameMarkets s t) : MarketStep authority s t

omit [AddressCodec] in
theorem MarketServer.checkIndexRange_same (mk : Market) : Keeps Eq (checkIndexRange mk) := by
  refine Keeps.read.bind fun params => ?_
  cases mk.marketType with
  | perps => exact Keeps.require
  | spot => exact Keeps.require

omit [AddressCodec] in
theorem MarketServer.checkAssets_same (mk : Market) : Keeps Eq (checkAssets mk) := by
  refine Keeps.read.bind fun quote => Keeps.require.bind fun _ => ?_
  cases mk.marketType with
  | perps => exact Keeps.require
  | spot => exact Keeps.read.bind fun base => Keeps.require

theorem MarketServer.createMarket_ok {msg : MsgCreateMarket}
    (h : (MarketServer.createMarket authority msg).run s = .ok v t) :
    0 ≤ msg.market.expiryTimestamp ∧ s.market.markets.get msg.market.marketIndex = none ∧
      ∃ s₁, (PerpDex.createMarket { msg.market with status := .active }).run s = .ok () s₁ ∧
        SameMarkets s₁ t := by
  simp only [MarketServer.createMarket, run_bind_lift_ok, MsgCreateMarket.validateBasic,
    except_bind_ok] at h
  obtain ⟨_, ⟨_, -, _, -, _, -, _, hstatics, -⟩, h⟩ := h
  obtain ⟨-, h⟩ := run_bind_require_ok.mp h
  rw [run_bind_read] at h
  obtain ⟨hfree, h⟩ := run_bind_require_ok.mp h
  obtain ⟨_, s₁, hrange, h⟩ := run_bind_ok.mp h
  obtain rfl := (MarketServer.checkIndexRange_same _).ok hrange
  obtain ⟨_, s₂, hassets, h⟩ := run_bind_ok.mp h
  obtain rfl := (MarketServer.checkAssets_same _).ok hassets
  obtain ⟨_, s₃, hcreate, h⟩ := run_bind_ok.mp h
  refine ⟨validateMarketStatics_expiry hstatics, ?_, s₃, hcreate, setMarketDetails_sameMarkets h⟩
  simpa using hfree

theorem MarketServer.updateMarket_ok {msg : MsgUpdateMarket}
    (h : (MarketServer.updateMarket authority msg).run s = .ok v t) :
    ∃ mk s₁, s.market.markets.get mk.marketIndex = some mk ∧ mk.status ≠ .expired ∧
      0 ≤ msg.newExpiryTimestamp ∧
      (PerpDex.updateMarket mk (overlay msg mk)).run s = .ok () s₁ ∧ SameMarkets s₁ t := by
  simp only [MarketServer.updateMarket, run_bind_lift_ok, MsgUpdateMarket.validateBasic,
    checkExpiry, except_bind_ok, ensure_ok] at h
  obtain ⟨_, ⟨_, -, _, -, _, -, _, -, _, -, _, -, _, -, _, -, _, hexpiry, -⟩, h⟩ := h
  obtain ⟨-, h⟩ := run_bind_require_ok.mp h
  obtain ⟨mk, hmk, h⟩ := run_bind_read_ok.mp h
  obtain ⟨hst, h⟩ := run_bind_require_ok.mp h
  rw [run_bind_read] at h
  obtain ⟨-, h⟩ := run_bind_require_ok.mp h
  obtain ⟨_, s₁, hupdate, h⟩ := run_bind_ok.mp h
  have hmk := getMarket_eq_ok.mp hmk
  have hidx : mk.marketIndex = msg.marketIndex := Table.key_of_get hmk
  refine ⟨mk, s₁, by rw [hidx]; exact hmk, hst, not_lt.mp hexpiry, hupdate, ?_⟩
  rw [run_when] at h
  split at h
  · exact applyMarketExit_sameMarkets h
  · cases h
    exact ⟨rfl, rfl⟩

/-- **Every step keeps the index exact and leaves expired markets as they are.** -/
theorem MarketStep.scheduled (h : MarketStep authority s t) (hs : Scheduled s) :
    Scheduled t ∧ ∀ m mk, s.market.markets.get m = some mk → mk.status = .expired →
      t.market.markets.get m = some mk := by
  have hidle : SameMarkets s t → Scheduled t ∧ ∀ m mk, s.market.markets.get m = some mk →
      mk.status = .expired → t.market.markets.get m = some mk := by
    intro hsame
    refine ⟨hsame.scheduled hs, fun m mk hmk _ => ?_⟩
    rw [hsame.markets]
    exact hmk
  cases h with
  | create msg h =>
    obtain ⟨hexpiry, hfree, s₁, hcreate, hsame⟩ := MarketServer.createMarket_ok h
    obtain ⟨hs₁, hmarkets⟩ := createMarket_scheduled hs
      (show 0 ≤ ({ msg.market with status := .active } : Market).expiryTimestamp from hexpiry)
      hfree hcreate
    refine ⟨hsame.scheduled hs₁, fun m mk hmk _ => ?_⟩
    rw [hsame.markets, hmarkets, Table.get_put_ne]
    · exact hmk
    · rintro rfl
      rw [show s.market.markets.get msg.market.marketIndex = some mk from hmk] at hfree
      cases hfree
  | update msg h =>
    obtain ⟨old, s₁, hold, hst, hexpiry, hupdate, hsame⟩ := MarketServer.updateMarket_ok h
    have hkey : (MarketServer.overlay msg old).marketIndex = old.marketIndex := rfl
    obtain ⟨hs₁, hmarkets⟩ := updateMarket_scheduled hs hold hkey hexpiry hupdate
    refine ⟨hsame.scheduled hs₁, fun m mk hmk hst' => ?_⟩
    rw [hsame.markets, hmarkets, Table.get_put_ne]
    · exact hmk
    · rintro rfl
      rw [hkey, hold] at hmk
      cases hmk
      exact hst hst'
  | expire hmk hst h =>
    obtain ⟨hsweep, -⟩ := Sweep.expire hs hmk hst h
    exact ⟨hsweep.scheduled, hsweep.frozen⟩
  | endBlock h =>
    obtain ⟨hsweep, -⟩ := marketEndBlocker_sweep hs h
    exact ⟨hsweep.scheduled, hsweep.frozen⟩
  | updateDetails msg h =>
    simp only [MarketServer.updateMarketDetails, run_bind_lift_ok, run_bind_require_ok,
      run_bind_read_ok] at h
    obtain ⟨_, -, -, d, -, h⟩ := h
    exact hidle (setMarketDetails_sameMarkets h)
  | updateParams msg h =>
    simp only [MarketServer.updateParams, run_bind_lift_ok, run_bind_require_ok] at h
    obtain ⟨_, -, -, h⟩ := h
    cases h
    exact hidle ⟨rfl, rfl⟩
  | other h => exact hidle h

abbrev MarketRun (authority : String) : State → State → Prop :=
  Relation.ReflTransGen (MarketStep authority)

theorem MarketRun.scheduled (h : MarketRun authority s t) (hs : Scheduled s) :
    Scheduled t ∧ ∀ m mk, s.market.markets.get m = some mk → mk.status = .expired →
      t.market.markets.get m = some mk := by
  induction h with
  | refl => exact ⟨hs, fun _ _ h _ => h⟩
  | tail _ hstep ih =>
    obtain ⟨hnext, hfrozen⟩ := hstep.scheduled ih.1
    exact ⟨hnext, fun m mk hmk hst => hfrozen m mk (ih.2 m mk hmk hst) hst⟩

/-- **Expiry bookkeeping.**  In every state reached from a valid genesis, the expiry index holds the
pairs of expiry and market of the active markets that have an expiry; a market that has expired stays
as it is; and an end blocker that did not use up its budget leaves no active market whose expiry has
come. -/
theorem expiry_bookkeeping {gs : MarketGenesis} {s₀ s₁ : State} (hvalid : gs.validate = .ok ())
    (hmarkets : s₀.market.markets = Table.empty) (hindex : s₀.market.expiryIndex = KVStore.empty)
    (hinit : gs.init.run s₀ = .ok () s₁) (hrun : MarketRun authority s₁ s) :
    (∀ x m, s.market.expiryIndex.get (toLex (x, m)) = some () ↔
      ∃ mk, s.market.markets.get m = some mk ∧ mk.status = .active ∧ mk.expiryTimestamp = x ∧
        x ≠ 0) ∧
    (∀ m mk t, s.market.markets.get m = some mk → mk.status = .expired →
      MarketRun authority s t → t.market.markets.get m = some mk) ∧
    ∀ t, marketEndBlocker.run s = .ok () t →
      (expiredSince s t).card < s.market.params.maxMarketsExpiredPerBlock →
      ∀ m mk, t.market.markets.get m = some mk → mk.status = .active → mk.expiryTimestamp ≠ 0 →
        s.now < mk.expiryTimestamp := by
  have hs : Scheduled s :=
    (hrun.scheduled (MarketGenesis.init_scheduled hvalid hmarkets hindex hinit)).1
  refine ⟨fun x m => ?_, fun m mk t hmk hst h => (h.scheduled hs).2 m mk hmk hst,
    fun t hend hbudget m mk hmk hst hne => ?_⟩
  · rw [hs.index.exact]
    constructor
    · rintro ⟨mk, hmk, hentry⟩
      obtain ⟨hst, hpos, rfl, rfl⟩ := dueEntry_eq_some.mp hentry
      exact ⟨mk, hmk, hst, rfl, hpos.ne'⟩
    · rintro ⟨mk, hmk, hst, rfl, hne⟩
      have hidx : mk.marketIndex = m := Table.key_of_get hmk
      refine ⟨mk, by rw [hidx]; exact hmk, dueEntry_eq_some.mpr ⟨hst, ?_, rfl, hidx⟩⟩
      exact lt_of_le_of_ne (hs.expiry m mk hmk) (Ne.symm hne)
  · obtain ⟨hsweep, hdone⟩ := marketEndBlocker_sweep hs hend
    by_contra hdue
    have hclosed := (hdone.resolve_right (not_le.mpr hbudget)) m mk (hsweep.kept m mk hmk hst) hst
      hne (not_lt.mp hdue)
    have hactive : activeAt t m = true := activeAt_eq_true.mpr ⟨mk, hmk, hst⟩
    rw [hclosed] at hactive
    cases hactive

end Steps

def oneExpiry : MarketGenesis where
  params := { maxMarketsExpiredPerBlock := 2 }
  markets := [{
    marketIndex := 0, quoteAssetId := usdcAssetIndex, minBaseAmount := 1, minQuoteAmount := 1,
    sizeExtensionMultiplier := 1, quoteExtensionMultiplier := 1, expiryTimestamp := 1000 }]
  marketDetails := [{
    marketIndex := 0, defaultInitialMarginFraction := 500, minInitialMarginFraction := 100,
    maintenanceMarginFraction := 50, closeOutMarginFraction := 20 }]

/-- In a block at time 2000 the market of `oneExpiry` is due, and the end blocker expires it. -/
theorem expiry_bookkeeping_one_expiry :
    let _ := AddressCodec.acceptAll
    let s := { after oneExpiry.init {} with now := 2000 }
    let t := after marketEndBlocker s
    s.market.expiryIndex.get (toLex (1000, 0)) = some () ∧
      (t.market.markets.get 0).map Market.status = some .expired ∧
      ∀ m mk, t.market.markets.get m = some mk → mk.status = .active → mk.expiryTimestamp ≠ 0 →
        2000 < mk.expiryTimestamp := by
  intro _ s t
  have hrun : MarketRun "" (after oneExpiry.init {}) s := .single (.other ⟨rfl, rfl⟩)
  have hvalid : oneExpiry.validate = .ok () := rfl
  have hempty : ({} : State).market.markets = Table.empty := rfl
  obtain ⟨-, -, hsweep⟩ := expiry_bookkeeping hvalid hempty rfl
    (run_of_succeeds (by decide +kernel)) hrun
  exact ⟨by decide +kernel, by decide +kernel,
    hsweep t (run_of_succeeds (by decide +kernel)) (by decide +kernel)⟩

end PerpDex
