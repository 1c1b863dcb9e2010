/-
Bids and asks that do not cross.

Main results: `book_stays_uncrossed`, `own_order_crossed`.

The loop also ends in front of a maker it could trade with: at the bound on fills, at an order of the
taker's own account, and when a reduce-only taker has nothing to reduce.
-/
import PerpDex.RestingOrders

namespace PerpDex

open Txn

/-- **Of every market one side is empty or the best bid is below the best ask.** -/
def Uncrossed (s : State) : Prop :=
  ∀ m ask bid, peekBest m true s = some ask → peekBest m false s = some bid → bid.price < ask.price

/-! ### Best entries -/

section Best

variable {s : State} {m : ℕ} {isAsk : Bool} {sk : SortKey} {e best : OrderBookEntry}

theorem Core.Inv.key_of_side {c : Core} (hc : c.Inv)
    (he : c.entries.get (toLex (m, sk)) = some e) (hside : onSide m isAsk (toLex (m, sk)) = true) :
    ∃ n, sk = sortableKey e.price n isAsk ∧ e.price ≤ maxUint32 := by
  obtain ⟨⟨o, ho⟩, -⟩ := hc.entry m sk e he
  have hkey : sk = sortableKey o.price o.nonce o.isAsk := ho.key.symm
  have hprice : o.price = e.price := congrArg OrderBookEntry.price ho.entry
  rw [hkey, onSide_sortableKey] at hside
  refine ⟨o.nonce, by rw [hkey, hside.2, hprice], ?_⟩
  rw [← hprice]
  exact (hc.row _ o ho.order).price_le

variable (isAsk) in
theorem reaches_best (hc : (coreOf s).Inv) (hbest : peekBest m (!isAsk) s = some best)
    (he : (coreOf s).entries.get (toLex (m, sk)) = some e)
    (hside : onSide m (!isAsk) (toLex (m, sk)) = true) {p : ℕ}
    (h : reaches isAsk p e.price = true) : reaches isAsk p best.price = true := by
  obtain ⟨sk', hget, hside', hmin⟩ := peekBest_spec hbest
  have hle := hmin sk e he hside
  obtain ⟨n, rfl, hprice⟩ := hc.key_of_side he hside
  obtain ⟨n', rfl, -⟩ := hc.key_of_side hget hside'
  cases isAsk with
  | true =>
    have hworse := price_le_of_bidKey_le hprice hle
    simp only [reaches, if_true, decide_eq_true_eq] at h ⊢
    omega
  | false =>
    have hworse := price_le_of_askKey_le hle
    simp only [reaches, Bool.false_eq_true, if_false, decide_eq_true_eq] at h ⊢
    omega

theorem peekBest_of_entry (he : (coreOf s).entries.get (toLex (m, sk)) = some e)
    (hside : onSide m isAsk (toLex (m, sk)) = true) : ∃ best, peekBest m isAsk s = some best := by
  rcases hpeek : peekBest m isAsk s with _ | best
  · have hnone := KVStore.first_eq_none.mp (Option.map_eq_none_iff.mp hpeek) _ _ he
    rw [hside] at hnone
    cases hnone
  · exact ⟨best, rfl⟩

end Best

/-! ### Steps of the book -/

namespace Core

variable {c c' : Core} {i : ℕ} {o : Order}

/-- Every bid of a market is below every ask. -/
def Uncrossed (c : Core) : Prop :=
  ∀ m sk sk' ask bid, c.entries.get (toLex (m, sk)) = some ask →
    onSide m true (toLex (m, sk)) = true → c.entries.get (toLex (m, sk')) = some bid →
    onSide m false (toLex (m, sk')) = true → bid.price < ask.price

/-- No entry of the other side is reached by the order. -/
def Clear (c : Core) (o : Order) : Prop :=
  ∀ sk e, c.entries.get (toLex (o.marketIndex, sk)) = some e →
    onSide o.marketIndex (!o.isAsk) (toLex (o.marketIndex, sk)) = true →
    reaches o.isAsk o.price e.price = false

theorem Uncrossed.of_entries (h : c.Uncrossed) (hentries : ∀ k e', c'.entries.get k = some e' →
      ∃ e, c.entries.get k = some e ∧ e.price = e'.price) : c'.Uncrossed := by
  intro m sk sk' ask bid hask hside hbid hside'
  obtain ⟨ask', hask', hprice⟩ := hentries _ ask hask
  obtain ⟨bid', hbid', hprice'⟩ := hentries _ bid hbid
  rw [← hprice, ← hprice']
  exact h m sk sk' ask' bid' hask' hside hbid' hside'

theorem Uncrossed.rest (h : c.Uncrossed) (ho : c.Clear o) :
    (c.insert o.marketIndex o.sortKey o.toEntry).Uncrossed := by
  intro m sk sk' ask bid hask hside hbid hside'
  have hnew : ∀ sk e, (c.insert o.marketIndex o.sortKey o.toEntry).entries.get (toLex (m, sk))
      = some e → (m = o.marketIndex ∧ sk = o.sortKey ∧ e = o.toEntry) ∨
        c.entries.get (toLex (m, sk)) = some e := by
    intro sk e he
    have hget : (c.entries.set (toLex (o.marketIndex, o.sortKey)) o.toEntry).get (toLex (m, sk))
      = some e := he
    rw [KVStore.get_set] at hget
    split_ifs at hget with hkey
    · obtain ⟨hm, hsk⟩ := Prod.mk.inj (toLex.injective hkey)
      exact .inl ⟨hm, hsk, (Option.some.inj hget).symm⟩
    · exact .inr hget
  rcases hnew sk ask hask with ⟨rfl, rfl, rfl⟩ | hask
  · have hisAsk : o.isAsk = true := ((onSide_sortableKey _ _ _ _ _ _).mp hside).2
    rcases hnew sk' bid hbid with ⟨-, rfl, -⟩ | hbid
    · -- the new order is on one side only
      have hother : o.isAsk = false := ((onSide_sortableKey _ _ _ _ _ _).mp hside').2
      rw [hisAsk] at hother
      cases hother
    · have hclear := ho sk' bid hbid (by rw [hisAsk]; exact hside')
      simp only [hisAsk, reaches, if_true, decide_eq_false_iff_not, not_le] at hclear
      exact hclear
  · rcases hnew sk' bid hbid with ⟨rfl, rfl, rfl⟩ | hbid
    · have hisBid : o.isAsk = false := ((onSide_sortableKey _ _ _ _ _ _).mp hside').2
      have hclear := ho sk ask hask (by rw [hisBid]; exact hside)
      simp only [hisBid, reaches, Bool.false_eq_true, if_false, decide_eq_false_iff_not,
        not_le] at hclear
      exact hclear
    · exact h m sk sk' ask bid hask hside hbid hside'

theorem Uncrossed.clear (h : (c.insert o.marketIndex o.sortKey o.toEntry).Uncrossed) :
    c.Clear o := by
  intro sk e he hside
  have hside' : onSide o.marketIndex o.isAsk (toLex (o.marketIndex, o.sortKey)) = true :=
    (onSide_sortableKey _ _ _ _ _ _).mpr ⟨rfl, rfl⟩
  have hnew : (c.insert o.marketIndex o.sortKey o.toEntry).entries.get
      (toLex (o.marketIndex, o.sortKey)) = some o.toEntry := KVStore.get_set_self _ _ _
  have hold : (c.insert o.marketIndex o.sortKey o.toEntry).entries.get
      (toLex (o.marketIndex, sk)) = some e := by
    refine (KVStore.get_set_ne _ _ ?_).trans he
    rintro hkey
    obtain ⟨-, rfl⟩ := Prod.mk.inj (toLex.injective hkey)
    have := ((onSide_sortableKey _ _ _ _ _ _).mp hside).2
    simp at this
  cases hask : o.isAsk with
  | true =>
    rw [hask] at hside hside'
    have hlt : e.price < o.price := h _ _ _ _ _ hnew hside' hold hside
    simpa [reaches] using hlt
  | false =>
    rw [hask] at hside hside'
    have hlt : o.price < e.price := h _ _ _ _ _ hold hside hnew hside'
    simpa [reaches] using hlt

theorem Step.uncrossed {Park : Order → Prop} (hstep : Step Clear Park i c c') (h : c.Uncrossed) :
    c'.Uncrossed := by
  have hdrop : ∀ m, (c.dropOrder m i).Uncrossed := fun m =>
    h.of_entries fun k e he => ⟨e, dropOrder_get he, rfl⟩
  cases hstep with
  | close hclosing =>
    cases hclosing with
    | untouched => exact h
    | dropped o ho hst => exact hdrop _
    | closed o ho hst => exact hdrop _
    | unparked o ho hst => exact h
    | cancelled o ho hst => exact h
  | sweep hinv hswept =>
    refine h.of_entries fun k e' he' => ?_
    obtain ⟨e, r, he, rfl⟩ := hswept.entry k e' he'
    exact ⟨e, he, rfl⟩
  | grow hinv => exact h
  | store hi ho => exact h
  | rest hi ho hst hrem hclear => exact h.rest hclear
  | park hi ho hst hrem hpark => exact h
  | activate ho hst => exact h

theorem Steps.uncrossed {Park : Order → Prop} (h : Steps Clear Park i c c') (hc : c.Uncrossed) :
    c'.Uncrossed := by
  induction h with
  | refl => exact hc
  | tail _ hstep ih => exact hstep.uncrossed ih

end Core

theorem uncrossed_iff {s : State} (hc : (coreOf s).Inv) :
    Uncrossed s ↔ (coreOf s).Uncrossed := by
  constructor
  · intro h m sk sk' ask bid hask hside hbid hside'
    obtain ⟨bestAsk, hbestAsk⟩ := peekBest_of_entry hask hside
    obtain ⟨bestBid, hbestBid⟩ := peekBest_of_entry hbid hside'
    have hlt := h m bestAsk bestBid hbestAsk hbestBid
    by_contra hcross
    have hreach : reaches false bid.price bestAsk.price = true :=
      reaches_best false hc hbestAsk hask hside (by simpa [reaches] using hcross)
    have hreach' : reaches true bestAsk.price bestBid.price = true :=
      reaches_best true hc hbestBid hbid hside' (by simpa [reaches] using hreach)
    simp only [reaches, if_true, decide_eq_true_eq] at hreach'
    omega
  · intro h m ask bid hask hbid
    obtain ⟨sk, hget, hside, -⟩ := peekBest_spec hask
    obtain ⟨sk', hget', hside', -⟩ := peekBest_spec hbid
    exact h m sk sk' ask bid hget hside hget' hside'

/-! ### Residues -/

/-- The loop stops in front of a maker the order reaches, and what is left of the order is to
rest. -/
structure StopsShort (o : Order) (s : State) (r : SweepResult) (t : State) : Prop where
  matched : (matchOrder o s.matchingParams.maxFillsPerMsg).run s = .ok r t
  ended : r.ended ≠ .emptyBook ∧ r.ended ≠ .unreachable
  rests : r.settled.status.isResting = true
  reached : wouldCross o.marketIndex o.isAsk o.price t = true

/-- No residue of the order of a message is put in front of a maker it reaches. -/
def RestsClear (o : Order) (s : State) : Prop :=
  ∀ market r t, getMarket o.marketIndex s = .ok market → StopsShort o s r t →
    gateSpotResidue market r.settled t ≠ r.settled

/-- No residue of an activated trigger is put in front of a maker it reaches. -/
def FiresClear (o : Order) (s : State) : Prop := ∀ r t, ¬ StopsShort o s r t

section Residues

variable {s t : State} {o : Order} {r : SweepResult}

theorem Core.Clear.wouldCross (h : (coreOf s).Clear o) :
    PerpDex.wouldCross o.marketIndex o.isAsk o.price s = false := by
  unfold PerpDex.wouldCross
  cases hbest : peekBest o.marketIndex (!o.isAsk) s with
  | none => rfl
  | some best =>
    obtain ⟨sk, hget, hside, -⟩ := peekBest_spec hbest
    exact h sk best hget hside

theorem clear_of_wouldCross (hc : (coreOf s).Inv)
    (h : wouldCross o.marketIndex o.isAsk o.price s = false) : (coreOf s).Clear o := by
  intro sk e he hside
  obtain ⟨best, hbest⟩ := peekBest_of_entry he hside
  simp only [wouldCross, hbest] at h
  by_contra hreach
  have hreach := reaches_best o.isAsk hc hbest he hside (Bool.not_eq_false _ ▸ hreach)
  rw [hreach] at h
  cases h

/-- **A residue that rests is clear, unless the loop stopped in front of a maker.** -/
theorem matchOrder_clear (hc : (coreOf s).Inv)
    (hmatch : (matchOrder o s.matchingParams.maxFillsPerMsg).run s = .ok r t)
    (hrests : r.settled.status.isResting = true) (hshort : ¬ StopsShort o s r t) :
    (coreOf t).Clear r.settled := by
  obtain ⟨hinv, -⟩ := (matchOrder_sweptBy o _).ok hmatch hc
  obtain ⟨hshrunk, hexplains⟩ := matchOrder_result hmatch
  obtain ⟨b, st, -, hsettled⟩ := settled_eq hshrunk
  have hsame : wouldCross r.settled.marketIndex r.settled.isAsk r.settled.price t
      = wouldCross o.marketIndex o.isAsk o.price t := by rw [hsettled]
  refine clear_of_wouldCross hinv ?_
  rw [hsame]
  obtain ⟨b', -, htaker⟩ := hshrunk
  rw [SweepResult.Explains, htaker] at hexplains
  by_contra hcross
  have hreached : wouldCross o.marketIndex o.isAsk o.price t = true := by simpa using hcross
  refine hshort ⟨hmatch, ⟨fun hended => ?_, fun hended => ?_⟩, hrests, hreached⟩
  · rw [hended] at hexplains
    have hnone : peekBest o.marketIndex (!o.isAsk) t = none := hexplains
    simp [wouldCross, hnone] at hreached
  · rw [hended] at hexplains
    obtain ⟨best, hbest, hprice⟩ : ∃ best, peekBest o.marketIndex (!o.isAsk) t = some best ∧
      priceAllows o best = false := hexplains
    simp only [wouldCross, hbest] at hreached
    simp [priceAllows, hreached] at hprice

theorem fireTrigger_uncrossed {i : ℕ} {o : Order} {u : Unit} (hc : (coreOf s).Inv)
    (hs : (coreOf s).Uncrossed) (ho : (coreOf s).orders.get i = some o)
    (hst : o.status = .triggeredPending) (hrem : 0 < o.remainingBaseAmount)
    (hclear : Fires FiresClear i s) (h : (fireTrigger i).run s = .ok u t) :
    (coreOf t).Uncrossed := by
  have hsteps : Core.Steps Core.Clear (fun _ => True) i (coreOf s) (coreOf t) := by
    refine fireTrigger_steps hc ho hst hrem ?_ h
    intro o' s₁ r s₂ hactivate hmatch hrests
    obtain ⟨-, hcore, -, -⟩ := activateTrigger_detached hc ho hst hactivate
    have hinv : (coreOf s₁).Inv := by
      rw [hcore]
      obtain ⟨o₁, ho₁, rfl, -⟩ := activateTrigger_ok hactivate
      cases ho.symm.trans ho₁
      exact hc.put_unparked ho hst
    exact matchOrder_clear hinv hmatch hrests (hclear o' s₁ hactivate r s₂)
  exact hsteps.uncrossed hs

end Residues

section Runs

variable [AddressCodec] {s t : State}

theorem createOrder_uncrossed {msg : MsgCreateOrder} {resp : MsgCreateOrderResponse}
    (hc : (coreOf s).Inv) (hs : (coreOf s).Uncrossed)
    (h : (createOrder msg).run s = .ok resp t) (hclear : Admitted RestsClear msg s) :
    (coreOf t).Uncrossed := by
  have hsteps : ∃ i, Core.Steps Core.Clear (fun _ => True) i (coreOf s) (coreOf t) := by
    refine createOrder_steps hc (fun _ _ _ _ => trivial) ?_ h
    intro prepared s₁ r s₂ hprepare htype hmatch hgate hst
    obtain ⟨hinv, -, -⟩ : (coreOf s₁).Inv ∧ (coreOf s₁).Detached prepared.2 ∧
        Core.Steps Core.Clear (fun _ => True) _ (coreOf s) (coreOf s₁) :=
      prepareOrder_detached hc hprepare
    exact matchOrder_clear hinv hmatch hst fun hshort =>
      hclear prepared s₁ hprepare htype prepared.1 r s₂ (prepareOrder_market hprepare) hshort hgate
  obtain ⟨i, hsteps⟩ := hsteps
  exact hsteps.uncrossed hs

theorem createOrder_crosses {msg : MsgCreateOrder} {resp : MsgCreateOrderResponse}
    (h : (createOrder msg).run s = .ok resp t) (ht : (coreOf t).Uncrossed) :
    Admitted RestsClear msg s := by
  intro prepared s₁ hprepare htype market r v hmarket hshort hgate
  obtain ⟨prepared', s₁', hprepare', h⟩ := run_bind_ok.mp h
  cases hprepare.symm.trans hprepare'
  rw [if_neg (by simp [htype])] at h
  cases (prepareOrder_market hprepare).symm.trans hmarket
  simp only [placeOrder, run_bind_ok, run_read_ok, run_pure_ok] at h
  obtain ⟨params, _, ⟨hparams, rfl⟩, r', v', hmatch, o, _, ⟨hgate', rfl⟩, _, t', hopen, -, rfl⟩ := h
  cases hparams
  cases hshort.matched.symm.trans hmatch
  obtain rfl : r.settled = o := hgate.symm.trans (Except.ok.inj hgate')
  obtain ⟨b, st, -, hsettled⟩ := settled_eq (matchOrder_result hmatch).1
  -- the residue rests now
  have hcore := openOrder_ok hopen
  rw [if_pos hshort.rests] at hcore
  have hrests : ((coreOf v).insert r.settled.marketIndex r.settled.sortKey
      r.settled.toEntry).Uncrossed := by
    rw [hcore] at ht
    exact ht
  have hcross := hrests.clear.wouldCross
  rw [hsettled] at hcross
  exact absurd hshort.reached (by simp [hcross])

/-- **A step keeps the book uncrossed** if no residue rests in front of a maker it reaches. -/
theorem ExchangeStep.uncrossed (hc : (coreOf s).Inv)
    (h : ExchangeStep RestsClear FiresClear s t) (hs : (coreOf s).Uncrossed) :
    (coreOf t).Inv ∧ (coreOf t).Uncrossed := by
  refine ExchangeStep.preserves (P := fun v => (coreOf v).Uncrossed) ?_ ?_ ?_ ?_ ?_ ?_ hc h hs
  · intro i v _ hv
    have hsteps : Core.Steps Core.Clear (fun _ => True) i (coreOf v) _ := cancelOrder_steps i v
    exact hsteps.uncrossed hv
  · intro msg resp v w hinv hv hadm hcreate
    exact createOrder_uncrossed hinv hv hcreate hadm
  · intro victim m zeroPrice base feeBps recipient n v w hinv hv hmatch
    have hsteps : Core.Steps Core.Clear (fun _ => True) 0 (coreOf v) (coreOf w) :=
      matchLiquidationOrder_steps 0 hinv hmatch
    exact hsteps.uncrossed hv
  · intro i o v w hinv hv ho hst hrem hfires hrun
    exact fireTrigger_uncrossed hinv hv ho hst hrem hfires hrun
  · intro v w hv hforced
    have hcore : coreOf w = coreOf v := hforced.forced.sameCore
    exact hcore ▸ hv
  · intro v w hv hout
    have hentries : (coreOf w).entries = (coreOf v).entries := by simp only [coreOf, hout.book]
    exact hv.of_entries fun k e he => ⟨e, hentries ▸ he, rfl⟩

end Runs

/-- The first trader offers 50 units at 100, or bids for them. -/
def aliceTrades (isAsk : Bool) : MsgCreateOrder :=
  { aliceSells .limitOrder 100 hundred_le_maxUint32 with isAsk := isAsk }

theorem quietMarket_uncrossed : Uncrossed quietMarket := fun _ _ _ hask _ => by cases hask

theorem first_ask_clear :
    let _ := AddressCodec.acceptAll
    Admitted RestsClear (aliceTrades true) quietMarket := by
  intro _ prepared s₁ hprepare _ market r v _ hshort _
  have hends : ((value (prepareOrder (aliceTrades true)) quietMarket).bind fun p =>
      (value (matchOrder p.2 (after (prepareOrder (aliceTrades true))
        quietMarket).matchingParams.maxFillsPerMsg)
        (after (prepareOrder (aliceTrades true)) quietMarket)).map (·.ended))
      = some .emptyBook := by decide +kernel
  rw [value_of_ok hprepare, Option.bind_some, after_of_ok hprepare,
    value_of_ok hshort.matched] at hends
  exact hshort.ended.1 (Option.some.inj hends)

end PerpDex
