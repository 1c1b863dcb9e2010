/-
The exchange as a machine whose moves are the operations of the order book keeper.

* `Move` — one operation: an order is accepted, activated, filled, stored, cancelled, …;
* `Desk.Sound`, `Move.sound` — between the moves the book is consistent, and the order in hand is on
  neither side of it.

Main result: `ExchangeStep.moves`.

The taker lives in memory while its fills are committed one by one, so facts about its residue cannot be
stated about the chain state alone.  A message that fails leaves no move behind; an activated trigger
that fails keeps its fills, and its order is abandoned.
-/
import PerpDex.BookFrame
import PerpDex.BookRun

namespace PerpDex

open Txn

variable {o : Order} {st : OrderStatus} {maker : OrderBookEntry} {base m : ℕ}

/-! ### The machine -/

/-- The order of a message, which is not stored yet, an activated trigger, or the order of a
liquidation, which is never stored. -/
inductive Task where
  | placing
  | fired
  | liquidating
deriving DecidableEq

structure Desk where
  state : State
  hand : Option (Task × Order)

def Order.filledBy (o : Order) (base : ℕ) : Order :=
  { o with remainingBaseAmount := o.remainingBaseAmount - base }

/-- A status with which a matched order may be stored. -/
structure Settles (o : Order) (st : OrderStatus) : Prop where
  filled : st = .filled ↔ o.remainingBaseAmount = 0
  matched : st ≠ .triggeredPending
  rests : st.isResting = true → o.timeInForce ≠ .ioc

theorem Settles.not_live (h : Settles o st)
    (hresting : ¬ st.isResting = true) : st.isLive = false := by
  simp [OrderStatus.isLive, hresting, h.matched]

/-- The trade by which the order in hand is filled. -/
inductive TradeOf (s : State) (k : Task) (o : Order) (maker : OrderBookEntry) (base : ℕ) :
    Bool → Tx Unit → Prop
  | user {market : Market} (hk : k ≠ .liquidating)
      (hmarket : getMarket o.marketIndex s = .ok market) :
      TradeOf s k o maker base (decide (market.marketType = .perps))
        (userTrade market o maker base)
  | liquidation {market : Market} (zeroPrice feeBps recipient : ℕ) (hk : k = .liquidating)
      (hmarket : getMarket o.marketIndex s = .ok market) (hperps : market.marketType = .perps) :
      TradeOf s k o maker base true
        (applyPerpsMatching (liquidationFill o maker base zeroPrice feeBps recipient))

/-- The order in hand is filled by `base` against `maker`, from the state `s` to the state `v`. -/
inductive Trades (s : State) (k : Task) (o : Order) (maker : OrderBookEntry) (base : ℕ)
    (v : State) : Prop
  | intro {u : State} {o' : Order} {isPerp : Bool} {trade : Tx Unit}
      (hfound : FoundMaker o isPerp s maker)
      (hsize : (matchSize o maker isPerp).run s = .ok (some base) s)
      (hkind : TradeOf s k o maker base isPerp trade) (htrade : trade.run s = .ok () u)
      (hfill : (fillMakerOrder maker.orderIndex base).run u = .ok o' v)

/-- What the failed matching or storing of the order may have left. -/
def Unplaced (o : Order) (s u : State) : Prop :=
  u = s ∨ ∃ st e, Settles o st ∧ (openOrder { o with status := st }).run s = .error e u

section Moves

variable [AddressCodec]

inductive Move : Desk → Desk → Prop
  | cancel {s : State} (i : ℕ) : Move ⟨s, none⟩ ⟨after (cancelOrder i) s, none⟩
  | accept {s t : State} {msg : MsgCreateOrder} {prepared : Market × Order}
      (h : (prepareOrder msg).run s = .ok prepared t)
      (htype : isTriggerOrder msg.orderType = false) :
      Move ⟨s, none⟩ ⟨t, some (.placing, prepared.2)⟩
  | park {s s₁ t : State} {msg : MsgCreateOrder} {prepared : Market × Order}
      (h : (prepareOrder msg).run s = .ok prepared s₁)
      (htype : isTriggerOrder msg.orderType = true)
      (hpark : (openTriggerOrder { prepared.2 with status := .triggeredPending }).run s₁
        = .ok () t) : Move ⟨s, none⟩ ⟨t, none⟩
  | activate {s t : State} {i : ℕ} {o o' : Order} (ho : (coreOf s).orders.get i = some o)
      (hst : o.status = .triggeredPending) (hrem : 0 < o.remainingBaseAmount)
      (h : (activateTrigger i).run s = .ok o' t) :
      Move ⟨s, none⟩ ⟨t, some (.fired, executableTwin o')⟩
  | seize {s : State} (victim m : ℕ) (isAsk : Bool) (zeroPrice base : ℕ) :
      Move ⟨s, none⟩ ⟨s, some (.liquidating, liquidationOrder victim m isAsk zeroPrice base)⟩
  | evict {s : State} {k : Task} {o : Order} {best : OrderBookEntry}
      (hbest : peekBest o.marketIndex (!o.isAsk) s = some best) :
      Move ⟨s, some (k, o)⟩ ⟨after (evictMakerOrder best.orderIndex .cancelled) s, some (k, o)⟩
  | fill {s v : State} {k : Task} {o : Order} {maker : OrderBookEntry} {base : ℕ}
      (h : Trades s k o maker base v) : Move ⟨s, some (k, o)⟩ ⟨v, some (k, o.filledBy base)⟩
  | store {s t : State} {k : Task} {o : Order} {st : OrderStatus} (hk : k ≠ .liquidating)
      (hst : Settles o st) (h : (openOrder { o with status := st }).run s = .ok () t) :
      Move ⟨s, some (k, o)⟩ ⟨t, none⟩
  | abandon {s u : State} {o : Order} (h : Unplaced o s u) :
      Move ⟨s, some (.fired, o)⟩ ⟨after (cancelOrder o.orderIndex) u, none⟩
  | release {s : State} {o : Order} : Move ⟨s, some (.liquidating, o)⟩ ⟨s, none⟩
  | forced {s t : State} (h : ForcedHook s t) : Move ⟨s, none⟩ ⟨t, none⟩
  | outside {s t : State} (h : Outside s t) : Move ⟨s, none⟩ ⟨t, none⟩

abbrev DeskRun : Desk → Desk → Prop := Relation.ReflTransGen Move

/-! ### The handlers as runs -/

variable {s t : State} {k : Task} {d d' : Desk}

/-- Where the loop goes from one taker and state to another: by moves of the machine, as long as
the markets are those of `M`. -/
structure Matches (M : Table Market.marketIndex) (k : Task) (x y : Order × State) : Prop where
  taker : x.1.ShrunkTo y.1
  markets : y.2.market.markets = x.2.market.markets
  moves : x.2.market.markets = M → DeskRun ⟨x.2, some (k, x.1)⟩ ⟨y.2, some (k, y.1)⟩

instance (M : Table Market.marketIndex) (k : Task) : IsPreorder (Order × State) (Matches M k) where
  refl _ := ⟨.refl _, rfl, fun _ => .refl⟩
  trans _ _ _ h h' := ⟨h.taker.trans h'.taker, h'.markets.trans h.markets,
    fun hM => (h.moves hM).trans (h'.moves (h.markets.trans hM))⟩

theorem evict_matches (M : Table Market.marketIndex) (k : Task)
    {best : OrderBookEntry} (hbest : peekBest o.marketIndex (!o.isAsk) s = some best) :
    Matches M k (o, s) (o, after (evictMakerOrder best.orderIndex .cancelled) s) :=
  ⟨.refl o, ((evictMakerOrder_frame _ _ s).sidelined 0).markets, fun _ => .single (.evict hbest)⟩

theorem runSweep_matches {M : Table Market.marketIndex} {isPerp : Bool}
    {attempt : Order → OrderBookEntry → ℕ → Tx FillOutcome} {goOn : Tx Bool}
    {trade : Order → OrderBookEntry → ℕ → Tx Unit} (hgoOn : Keeps Eq goOn) (taker : Order)
    (hattempt : ∀ o maker base, attempt o maker base = applyFill maker base (trade o maker base))
    (hmarkets : ∀ o maker base u v, (trade o maker base).run u = .ok () v →
      v.market.markets = u.market.markets)
    (htrade : ∀ o maker base u, u.market.markets = M → o.marketIndex = taker.marketIndex →
      TradeOf u k o maker base isPerp (trade o maker base)) (maxFills : ℕ) (s : State) :
    TracksTo (Matches M k) (taker, s) ((runSweep isPerp attempt goOn taker maxFills).run s) := by
  rw [runSweep, run_bind_read]
  refine sweep_track (m := taker.marketIndex) ?_ ?_ _ taker 0 maxFills s rfl
    rfl ?_ ?_
  · intro o u best hm ha hbest
    rw [← hm, ← ha] at hbest
    exact evict_matches M k hbest
  · intro o u
    rw [← hgoOn u]
    exact refl_of (Matches M k) (o, u)
  · intro x u v maker base hreached hatt hcommitted
    rw [hattempt] at hcommitted
    obtain ⟨w, o', htraded, hfilled⟩ := applyFill_committed hcommitted
    obtain ⟨r, -, hx⟩ := shrunkTo_of_passes hreached
    have hbook : BookOnly w v := (fillMakerOrder_bookOnly _ _).ok hfilled
    have hsame : v.market.markets = w.market.markets := by rw [hbook]
    refine ⟨⟨_, Nat.sub_le _ _, rfl⟩, hsame.trans (hmarkets _ _ _ _ _ htraded), fun hM => .single (.fill (.intro
      (nextMaker_found hatt.search) hatt.size (htrade x.taker maker base u hM (by rw [hx]))
      htraded hfilled))⟩
  · intro x u maker base hreached hatt hnot
    have : IsPreorder State fun s t => Matches M k (x.taker, s) (x.taker, t) :=
      { refl := fun s => refl_of (Matches M k) _
        trans := fun _ _ _ h h' => trans_of (Matches M k) h h' }
    rw [hattempt] at hnot ⊢
    refine applyFill_rule (R := fun s t => Matches M k (x.taker, s) (x.taker, t))
      (evict_matches M k (nextMaker_found hatt.search).best) fun w v o htraded hfilled => ?_
    exact absurd (applyFill_of_ok htraded hfilled) (hnot v)

omit [AddressCodec] in
theorem userTrade_markets {market : Market} (h : (userTrade market o maker base).run s = .ok () t) :
    t.market.markets = s.market.markets := by
  unfold userTrade at h
  split_ifs at h
  · rw [((apply_keeps _).ok h).frame]
  · exact (((applySpotMatching_frame _ _ _).ok h).sidelined 0).markets

/-- **Matching an order is a run of the machine**, whatever its outcome. -/
theorem matchOrder_moves (hk : k ≠ .liquidating) (taker : Order) (maxFills : ℕ)
    (s : State) : TracksTo
      (fun x y => x.1.ShrunkTo y.1 ∧ DeskRun ⟨x.2, some (k, x.1)⟩ ⟨y.2, some (k, y.1)⟩)
      (taker, s) ((matchOrder taker maxFills).run s) := by
  rw [matchOrder, run_bind_read]
  cases hmarket : getMarket taker.marketIndex s with
  | error e => exact ⟨taker, .refl _, .refl⟩
  | ok market =>
    have htracks := runSweep_matches (M := s.market.markets) (k := k)
      (Keeps.pure (a := true)) taker (applyUserFill_eq market) (fun _ _ _ _ _ => userTrade_markets)
      (fun o maker base u hu ho => .user hk ?_) maxFills s
    swap
    · rw [ho, ← hmarket]
      simp only [getMarket, hu]
    exact htracks.mono fun _ h => ⟨h.taker, h.moves rfl⟩

omit [AddressCodec] in
theorem Settles.cancelled (h : o.remainingBaseAmount ≠ 0) : Settles o .cancelled where
  filled := by simpa using h
  matched := by decide
  rests hst := absurd hst (by decide)

omit [AddressCodec] in
theorem Settles.remaining (h : Settles o st)
    (hst : st.isResting = true) : 0 < o.remainingBaseAmount := by
  refine Nat.pos_of_ne_zero fun hzero => ?_
  rw [h.filled.mpr hzero] at hst
  exact absurd hst (by decide)

omit [AddressCodec] in
theorem Unplaced.core (h : Unplaced o s t) (ho : (coreOf s).Detached o) :
    coreOf t = coreOf s ∨ ∃ o' : Order, (coreOf s).Detached o' ∧ o'.orderIndex = o.orderIndex ∧
      o'.marketIndex = o.marketIndex ∧
      coreOf t = (coreOf s).insert o'.marketIndex o'.sortKey o'.toEntry := by
  rcases h with rfl | ⟨st, e, -, hopen⟩
  · exact Or.inl rfl
  · rcases openOrder_error hopen with hsame | hinsert
    · exact Or.inl hsame
    · exact Or.inr ⟨_, ho.of_eq rfl rfl rfl rfl le_rfl, rfl, rfl, hinsert⟩

omit [AddressCodec] in
theorem SweepResult.settles {r : SweepResult} (h : r.Explains s) :
    ∃ st, r.settled = { r.taker with status := st } ∧ Settles r.taker st := by
  unfold SweepResult.settled killResidue
  split_ifs with hkill
  · exact ⟨.cancelled, rfl, .cancelled (Nat.ne_of_gt hkill.2)⟩
  · refine ⟨r.status, rfl, ?_⟩
    unfold SweepResult.status
    split_ifs with hrejected hzero hsome
    · refine .cancelled ?_
      simpa only [SweepResult.Explains, hrejected] using h
    · exact ⟨by simp [hzero], by decide, fun hst => absurd hst (by decide)⟩
    · exact ⟨by simp [hzero], by decide, fun _ hioc => hkill ⟨hioc, Nat.pos_of_ne_zero hzero⟩⟩
    · exact ⟨by simp [hzero], by decide, fun _ hioc => hkill ⟨hioc, Nat.pos_of_ne_zero hzero⟩⟩

theorem placeOrder_moves {market : Market} {order : Order} {resp : MsgCreateOrderResponse}
    (h : (placeOrder market order).run s = .ok resp t) :
    DeskRun ⟨s, some (.placing, order)⟩ ⟨t, none⟩ := by
  simp only [placeOrder, run_bind_read_ok, Except.ok.injEq] at h
  obtain ⟨params, rfl, h⟩ := h
  obtain ⟨r, v, hmatch, h⟩ := run_bind_ok.mp h
  simp only [run_bind_read_ok, Except.ok.injEq] at h
  obtain ⟨o, ho, h⟩ := h
  obtain ⟨_, w, hopen, hpure⟩ := run_bind_ok.mp h
  obtain ⟨-, rfl⟩ := run_pure_ok.mp hpure
  have hmoves := matchOrder_moves (k := .placing) (by decide) order
    s.matchingParams.maxFillsPerMsg s
  rw [hmatch] at hmoves
  obtain ⟨st, hsettled, hst⟩ := SweepResult.settles (matchOrder_result hmatch).2
  refine .tail hmoves.2 ?_
  -- the gate for spot residues leaves the order as it is or cancels it
  rw [← ho, gateSpotResidue, hsettled] at hopen
  split_ifs at hopen with hgate
  · have hrem : 0 < r.taker.remainingBaseAmount := hgate.2.2.1
    exact .store (by decide) (.cancelled (Nat.ne_of_gt hrem)) hopen
  · exact .store (by decide) hst hopen

theorem fireOrder_moves {u : Unit} (h : (fireOrder o).run s = .ok u t) :
    DeskRun ⟨s, some (.fired, o)⟩ ⟨t, none⟩ := by
  simp only [fireOrder, run_bind_read_ok, Except.ok.injEq] at h
  obtain ⟨params, rfl, h⟩ := h
  obtain ⟨r, v, hmatch, hopen⟩ := run_bind_ok.mp h
  have hmoves := matchOrder_moves (k := .fired) (by decide) o s.matchingParams.maxFillsPerMsg s
  rw [hmatch] at hmoves
  obtain ⟨st, hsettled, hst⟩ := SweepResult.settles (matchOrder_result hmatch).2
  rw [hsettled] at hopen
  exact .tail hmoves.2 (.store (by decide) hst hopen)

theorem fireOrder_unplaced {e : Err} (h : (fireOrder o).run s = .error e t) :
    ∃ o' v, DeskRun ⟨s, some (.fired, o)⟩ ⟨v, some (.fired, o')⟩ ∧ o.ShrunkTo o' ∧
      Unplaced o' v t := by
  simp only [fireOrder, run_bind_read] at h
  have hmoves := matchOrder_moves (k := .fired) (by decide) o s.matchingParams.maxFillsPerMsg s
  rcases run_bind_error.mp h with hmatch | ⟨r, v, hmatch, hopen⟩
  · rw [hmatch] at hmoves
    obtain ⟨o', hshrunk, hrun⟩ := hmoves
    exact ⟨o', t, hrun, hshrunk, Or.inl rfl⟩
  · rw [hmatch] at hmoves
    obtain ⟨st, hsettled, hst⟩ := SweepResult.settles (matchOrder_result hmatch).2
    rw [hsettled] at hopen
    exact ⟨r.taker, v, hmoves.2, hmoves.1, Or.inr ⟨st, e, hst, hopen⟩⟩

theorem fireTrigger_moves {i : ℕ} {u : Unit} (ho : (coreOf s).orders.get i = some o)
    (hst : o.status = .triggeredPending) (hrem : 0 < o.remainingBaseAmount)
    (h : (fireTrigger i).run s = .ok u t) : DeskRun ⟨s, none⟩ ⟨t, none⟩ := by
  rcases fireTrigger_ok h with ⟨e, hactivate⟩ | ⟨o₁, s₁, hactivate, hfired⟩
  · rw [activateTrigger_error hactivate]
  have hmove : Move ⟨s, none⟩ ⟨s₁, some (.fired, executableTwin o₁)⟩ :=
    .activate ho hst hrem hactivate
  rcases hfired with hfired | ⟨e, s₂, hfired, rfl⟩
  · exact .head hmove (fireOrder_moves hfired)
  · obtain ⟨o', v, hmoves, ⟨b, -, ho'⟩, hleft⟩ := fireOrder_unplaced hfired
    obtain ⟨ty, tif, p, -, htwin⟩ := executableTwin_eq o₁
    have hidx : o'.orderIndex = o₁.orderIndex := by rw [ho', htwin]
    rw [← hidx]
    exact .tail (.head hmove hmoves) (.abandon hleft)

theorem createOrder_moves {msg : MsgCreateOrder} {resp : MsgCreateOrderResponse}
    (h : (createOrder msg).run s = .ok resp t) : DeskRun ⟨s, none⟩ ⟨t, none⟩ := by
  obtain ⟨prepared, s₁, hprepare, hrest⟩ := run_bind_ok.mp h
  cases htype : isTriggerOrder msg.orderType with
  | true =>
    rw [htype, if_pos rfl] at hrest
    obtain ⟨_, s₂, hpark, hpure⟩ := run_bind_ok.mp hrest
    obtain ⟨-, rfl⟩ := run_pure_ok.mp hpure
    exact .single (.park hprepare htype hpark)
  | false =>
    rw [htype, if_neg (by decide)] at hrest
    exact .head (.accept hprepare htype) (placeOrder_moves hrest)

theorem matchLiquidation_moves {taker : Order} {maxFills zeroPrice feeBps recipient n : ℕ}
    (h : (matchLiquidation taker maxFills zeroPrice feeBps recipient).run s = .ok n t) :
    DeskRun ⟨s, some (.liquidating, taker)⟩ ⟨t, none⟩ := by
  simp only [matchLiquidation, run_bind_read_ok, run_bind_require_ok] at h
  obtain ⟨market, hmarket, hperps, h⟩ := h
  obtain ⟨r, v, hsweep, hpure⟩ := run_bind_ok.mp h
  obtain ⟨-, rfl⟩ := run_pure_ok.mp hpure
  have hmarkets : ∀ o maker base u v,
      (applyPerpsMatching (liquidationFill o maker base zeroPrice feeBps recipient)).run u
        = .ok () v → v.market.markets = u.market.markets := by
    intro o maker base u v htrade
    rw [((apply_keeps _).ok htrade).frame]
  have htracks := runSweep_matches (M := s.market.markets) (k := .liquidating)
    (Keeps.read (q := needsLiquidation taker.ownerAccountIndex taker.marketIndex)) taker
    (fun o maker base => show applyLiquidationFill zeroPrice feeBps recipient o maker base
      = applyFill maker base _ from rfl) hmarkets
    (fun o maker base u hu ho => .liquidation zeroPrice feeBps recipient rfl ?_ hperps) maxFills s
  swap
  · rw [ho, ← hmarket]
    simp only [getMarket, hu]
  rw [hsweep] at htracks
  exact .tail (htracks.moves rfl) .release

theorem matchLiquidationOrder_moves {victim zeroPrice feeBps recipient n : ℕ}
    (h : (matchLiquidationOrder victim m zeroPrice base feeBps recipient).run s = .ok n t) :
    DeskRun ⟨s, none⟩ ⟨t, none⟩ := by
  simp only [matchLiquidationOrder, run_bind_read_ok, run_bind_require_ok] at h
  obtain ⟨-, -, pos, -, -, h⟩ := h
  obtain ⟨abs, u, habs, h⟩ := run_bind_ok.mp h
  obtain rfl : s = u := (uint64Of_same _).ok habs
  simp only [run_bind_read_ok] at h
  obtain ⟨params, -, h⟩ := h
  exact .head (.seize _ _ _ _ _) (matchLiquidation_moves h)

/-- **Every message and hook of the exchange is a run of the machine.** -/
theorem ExchangeStep.moves {Admit Fire : Order → State → Prop} (hc : (coreOf s).Inv)
    (h : ExchangeStep Admit Fire s t) : DeskRun ⟨s, none⟩ ⟨t, none⟩ := by
  refine (ExchangeStep.preserves (P := fun v => DeskRun ⟨s, none⟩ ⟨v, none⟩)
    ?_ ?_ ?_ ?_ ?_ ?_ hc h .refl).2
  · exact fun i v _ hv => .tail hv (.cancel i)
  · exact fun msg resp v w _ hv _ hrun => hv.trans (createOrder_moves hrun)
  · exact fun _ _ _ _ _ _ n v w _ hv hrun => hv.trans (matchLiquidationOrder_moves hrun)
  · exact fun i o v w _ hv ho hst hrem _ hrun => hv.trans (fireTrigger_moves ho hst hrem hrun)
  · exact fun v w hv hhook => .tail hv (.forced hhook)
  · exact fun v w hv hout => .tail hv (.outside hout)

/-! ### Sound desks -/

omit [AddressCodec] in
theorem TradeOf.book {isPerp : Bool}
    {trade : Tx Unit} (h : TradeOf s k o maker base isPerp trade) : Keeps SameBook trade := by
  cases h with
  | user hk hmarket => exact userTrade_book _ _ _ _
  | liquidation zeroPrice feeBps recipient hk hmarket hperps => exact applyPerpsMatching_book _

/-- The book is consistent.  An order in hand that is to be stored is neither on the book nor
waiting; that of a message is not stored, and the stored order of an activated trigger is the one
it was activated from. -/
structure Desk.Sound (d : Desk) : Prop where
  inv : (coreOf d.state).Inv
  detached : ∀ k o, d.hand = some (k, o) → k ≠ .liquidating → (coreOf d.state).Detached o
  fresh : ∀ o, d.hand = some (.placing, o) → (coreOf d.state).orders.get o.orderIndex = none
  stored : ∀ o, d.hand = some (.fired, o) → ∃ o₀,
    (coreOf d.state).orders.get o.orderIndex = some o₀ ∧ o₀.status = .opened ∧
      0 < o₀.remainingBaseAmount ∧ (executableTwin o₀).ShrunkTo o

omit [AddressCodec] in
theorem Desk.Sound.idle (h : (coreOf s).Inv) : Desk.Sound ⟨s, none⟩ :=
  ⟨h, fun _ _ hd => by simp at hd, fun _ hd => by simp at hd, fun _ hd => by simp at hd⟩

omit [AddressCodec] in
theorem Desk.Sound.swept (h : Desk.Sound ⟨s, some (k, o)⟩)
    (hswept : SweptBy m s t) : Desk.Sound ⟨t, some (k, o)⟩ := by
  obtain ⟨hinv, hsw⟩ := hswept h.inv
  refine ⟨hinv, fun k' o' hd hk => hsw.detached (h.detached k' o' hd hk), fun o' hd => ?_,
    fun o' hd => ?_⟩
  · rcases hsw.order o'.orderIndex with hsame | ⟨_, _, _, _, _, _, _, hrow, -⟩
    · exact hsame.trans (h.fresh o' hd)
    · rw [h.fresh o' hd] at hrow
      simp at hrow
  · obtain ⟨o₀, hrow, hst, hrem, htwin⟩ := h.stored o' hd
    have hsame := (hsw.noEntry (h.detached _ o' hd (by decide)).noEntry).2
    exact ⟨o₀, hsame.trans hrow, hst, hrem, htwin⟩

omit [AddressCodec] in
theorem Desk.Sound.filledBy (h : Desk.Sound ⟨s, some (k, o)⟩) (base : ℕ) :
    Desk.Sound ⟨s, some (k, o.filledBy base)⟩ := by
  refine ⟨h.inv, fun k' o' hd hk => ?_, fun o' hd => ?_, fun o' hd => ?_⟩
  · cases hd
    exact (h.detached _ _ rfl hk).of_eq rfl rfl rfl rfl le_rfl
  · cases hd
    exact h.fresh o rfl
  · cases hd
    obtain ⟨o₀, hrow, hst, hrem, htwin⟩ := h.stored o rfl
    exact ⟨o₀, hrow, hst, hrem, htwin.trans ⟨_, Nat.sub_le _ _, rfl⟩⟩

omit [AddressCodec] in
theorem Desk.Sound.abandon_closing {u : State} (hd : Desk.Sound ⟨s, some (.fired, o)⟩)
    (h : Unplaced o s u) :
    (coreOf s).Closing o.orderIndex .cancelled (coreOf (after (cancelOrder o.orderIndex) u)) := by
  have hdet := hd.detached .fired o rfl (by decide)
  obtain ⟨o₀, hrow, hst, hrem, b, -, ho⟩ := hd.stored o rfl
  obtain ⟨ty, tif, p, -, htwin⟩ := executableTwin_eq o₀
  exact cancelOrder_unplaced (s := u) hd.inv hdet hrow (by rw [hst]; rfl) (Nat.ne_of_gt hrem)
    (by rw [ho, htwin]) (h.core hdet)

omit [AddressCodec] in
theorem Trades.sweptBy {v : State} (h : Trades s k o maker base v) : SweptBy o.marketIndex s v := by
  obtain ⟨hfound, -, hkind, htrade, hfill⟩ := h
  have hsame := (hkind.book.ok htrade).core
  obtain ⟨sk, he, -⟩ := peekBest_spec hfound.best
  exact trans_of (SweptBy o.marketIndex) (SameCore.sweptBy _ hsame)
    (fill_sweptBy (hsame ▸ he) hfill)

omit [AddressCodec] in
theorem Trades.of_values
    (market : Market) (o' : Order) (hk : k ≠ .liquidating) (hmarket : getMarket o.marketIndex s = .ok market)
    (hbest : peekBest o.marketIndex (!o.isAsk) s = some maker)
    (hprice : priceAllows o maker = true) (hother : maker.ownerAccountIndex ≠ o.ownerAccountIndex)
    (hfree : o.reduceOnly = false ∧ maker.reduceOnly = false)
    (hsize : value (matchSize o maker (decide (market.marketType = .perps))) s = some (some base))
    (htrade : succeeds (userTrade market o maker base) s = true)
    (hfill : value (fillMakerOrder maker.orderIndex base) (after (userTrade market o maker base) s)
      = some o') :
    Trades s k o maker base (after (fillMakerOrder maker.orderIndex base)
      (after (userTrade market o maker base) s)) := by
  refine .intro ⟨hbest, hprice, hother, fun _ h => ?_, fun _ h => ?_⟩ ?_ (.user hk hmarket)
    (run_of_succeeds htrade) (run_of_value hfill)
  · rw [hfree.1] at h
    simp at h
  · rw [hfree.2] at h
    simp at h
  · have hrun := run_of_value hsize
    rwa [← matchSize_same _ _ _ s] at hrun

omit [AddressCodec] in
theorem Trades.orders {v : State} (h : Trades s k o maker base v) (hc : (coreOf s).Inv) :
    base ≠ 0 ∧ base ≤ o.remainingBaseAmount ∧ ∃ o₁ sk,
      (coreOf s).entries.get (toLex (o.marketIndex, sk)) = some maker ∧
      o₁.Rests (coreOf s).orders o.marketIndex sk maker ∧ base ≤ o₁.remainingBaseAmount ∧
      (coreOf v).orders = (coreOf s).orders.put (applyOrderResidue o₁ base) := by
  obtain ⟨hfound, hsize, hkind, htrade, hfill⟩ := h
  obtain ⟨hne, htaker, hmaker, -, -⟩ := matchSize_some hsize
  obtain ⟨sk, he, -⟩ := peekBest_spec hfound.best
  obtain ⟨⟨o₁, hrests⟩, -⟩ := hc.entry _ _ _ he
  have hsame := (hkind.book.ok htrade).core
  have hle : base ≤ o₁.remainingBaseAmount := by
    rw [← hrests.entry] at hmaker
    exact hmaker
  refine ⟨hne, htaker, o₁, sk, he, hrests, hle, ?_⟩
  obtain ⟨o₂, sk₂, entry, ho₂, -, -, hcore⟩ := fillMakerOrder_ok hfill
  rw [hsame, hrests.order, Option.some_inj] at ho₂
  subst ho₂
  rw [hcore, hsame, applyOrderResidue, Nat.min_eq_left hle]
  split_ifs with hdrained hzero hzero
  · rw [hzero]
    rfl
  · exact absurd (Nat.sub_eq_zero_of_le hdrained) hzero
  · exact absurd (Nat.sub_eq_zero_iff_le.mp hzero) hdrained
  · rfl

/-- **Every move leaves the desk sound.** -/
theorem Move.sound (h : Move d d') (hd : d.Sound) : d'.Sound := by
  cases h with
  | @cancel s i => exact .idle (hd.inv.closing (cancelOrder_outcome i s))
  | @accept s t msg prepared h htype =>
    obtain ⟨hinv, hdet, -⟩ := @prepareOrder_detached (fun _ _ => True) (fun _ => True)
      _ _ _ _ _ hd.inv h
    refine ⟨hinv, fun k o hd' _ => ?_, fun o hd' => ?_, fun o hd' => by simp at hd'⟩
    · cases hd'
      exact hdet
    · obtain ⟨-, rfl⟩ := Prod.mk.inj (Option.some.inj hd')
      obtain ⟨-, next, -, -, horder, hcore⟩ := prepareOrder_ok h
      rw [hcore, horder]
      exact hd.inv.order_fresh le_rfl
  | @park s s₁ t msg prepared h htype hpark =>
    have hcreate : (createOrder msg).run s = .ok ⟨prepared.2.orderIndex, .triggeredPending, 0⟩ t := by
      refine run_bind_ok.mpr ⟨prepared, s₁, h, ?_⟩
      rw [if_pos htype]
      exact run_bind_ok.mpr ⟨(), t, hpark, rfl⟩
    have hsteps : ∃ i, Core.Steps (fun _ _ => True) (fun _ => True) i (coreOf s) (coreOf t) :=
      createOrder_steps hd.inv (fun _ _ _ _ => trivial) (fun _ _ _ _ _ _ _ _ _ => trivial) hcreate
    exact .idle (hsteps.choose_spec.inv hd.inv)
  | @activate s t i o o' ho hst hrem h =>
    obtain ⟨ho', hcore, hrow, hdet⟩ := activateTrigger_detached hd.inv ho hst h
    obtain ⟨ty, tif, p, hp, htwin⟩ := executableTwin_eq o'
    have hidx' : o'.orderIndex = i := Table.key_of_get hrow
    have hidx : (executableTwin o').orderIndex = i := by
      rw [htwin]
      exact hidx'
    refine ⟨?_, fun k o₁ hd' _ => ?_, fun o₁ hd' => by simp at hd', fun o₁ hd' => ?_⟩
    · rw [hcore, ho']
      exact hd.inv.put_unparked ho hst
    · obtain ⟨-, rfl⟩ := Prod.mk.inj (Option.some.inj hd')
      rw [htwin]
      exact hdet.of_eq rfl rfl rfl rfl hp
    · obtain ⟨-, rfl⟩ := Prod.mk.inj (Option.some.inj hd')
      refine ⟨o', hidx ▸ hrow, by rw [ho'], by rw [ho']; exact hrem, .refl _⟩
  | seize victim m isAsk zeroPrice base =>
    exact ⟨hd.inv, fun _ _ hd' hk => by simp at hd'; exact absurd hd'.1.symm hk,
      fun _ hd' => by simp at hd', fun _ hd' => by simp at hd'⟩
  | evict hbest => exact hd.swept (evict_sweptBy hbest .cancelled)
  | fill h => exact (hd.swept h.sweptBy).filledBy _
  | @store s t k o st hk hst h =>
    have hdet : (coreOf s).Detached { o with status := st } :=
      (hd.detached k o rfl hk).of_eq rfl rfl rfl rfl le_rfl
    have hsteps : Core.Steps (fun _ _ => True) (fun _ => True) _ (coreOf s) (coreOf t) :=
      openOrder_steps hdet (fun hresting => hst.remaining hresting) (fun _ => trivial) h
    exact .idle (hsteps.inv hd.inv)
  | @abandon s u o h => exact .idle (hd.inv.closing (hd.abandon_closing h))
  | release => exact .idle hd.inv
  | forced h =>
    have hcore := h.forced.sameCore
    exact .idle (hcore ▸ hd.inv)
  | outside h =>
    have hstep : Core.AnyStep (fun _ _ => True) (fun _ => True) _ _ := h.anyStep hd.inv
    exact .idle (hstep.choose_spec.inv hd.inv)

/-- Where the row of an order comes from after a move: at most its residue and its status changed, or
it is that of the order in hand, or of a trigger just parked. -/
inductive RowOf (d : Desk) (i : ℕ) (o' : Order) : Prop
  | kept {o : Order} {r : ℕ} {st : OrderStatus} (ho : (coreOf d.state).orders.get i = some o)
      (heq : o' = { o with remainingBaseAmount := r, status := st })
  | inHand {k : Task} {o : Order} {st : OrderStatus} (hhand : d.hand = some (k, o))
      (hk : k ≠ .liquidating) (heq : o' = { o with status := st })
  | parked {msg : MsgCreateOrder} {prepared : Market × Order} {t : State}
      (h : (prepareOrder msg).run d.state = .ok prepared t)
      (htype : isTriggerOrder msg.orderType = true)
      (heq : o' = { prepared.2 with status := .triggeredPending })

section Rows

variable {i : ℕ} {o' : Order}

theorem RowOf.same (h : (coreOf d.state).orders.get i = some o) : RowOf d i o :=
  .kept (r := o.remainingBaseAmount) h rfl

theorem RowOf.of_put {orders : Table Order.orderIndex} {r : Order}
    (horders : orders = (coreOf d.state).orders.put r) (h₁ : RowOf d r.orderIndex r)
    (h : orders.get i = some o') : RowOf d i o' := by
  rw [horders, Table.get_put] at h
  split_ifs at h with hi
  · cases h
    exact hi ▸ h₁
  · exact .same h

theorem Core.Closing.row {c' : Core} {j : ℕ}
    (h : (coreOf d.state).Closing j st c') (hrow : c'.orders.get i = some o') : RowOf d i o' := by
  cases h with
  | untouched => exact .same hrow
  | dropped o ho hst => exact .same (by simpa using hrow)
  | closed o ho hst =>
    have hidx : o.orderIndex = j := Table.key_of_get ho
    exact .of_put (r := { o with status := st }) (by simp [Core.put])
      (.kept (r := o.remainingBaseAmount) (hidx ▸ ho) rfl) hrow
  | unparked o ho hst => exact .same hrow
  | cancelled o ho hst =>
    have hidx : o.orderIndex = j := Table.key_of_get ho
    exact .of_put (r := { o with status := st }) rfl
      (.kept (r := o.remainingBaseAmount) (hidx ▸ ho) rfl) hrow

theorem Core.Swept.row {c' : Core} (h : Core.Swept m (coreOf d.state) c')
    (hrow : c'.orders.get i = some o') : RowOf d i o' := by
  rcases h.order i with hsame | ⟨_, _, o, r, st, -, -, ho, hnew⟩
  · exact .same (hsame ▸ hrow)
  · rw [hrow] at hnew
    exact .kept ho (Option.some.inj hnew)

theorem Move.row (h : Move d d') (hd : d.Sound)
    (hrow : (coreOf d'.state).orders.get i = some o') : RowOf d i o' := by
  cases h with
  | @cancel s j => exact (cancelOrder_outcome j s).row hrow
  | @accept s t msg prepared h htype =>
    obtain ⟨-, next, -, -, -, hcore⟩ := prepareOrder_ok h
    rw [hcore] at hrow
    exact .same hrow
  | @park s s₁ t msg prepared h htype hpark =>
    obtain ⟨-, next, -, -, -, hcore⟩ := prepareOrder_ok h
    have horders : (coreOf t).orders
        = (coreOf s).orders.put { prepared.2 with status := .triggeredPending } := by
      rw [openTriggerOrder_ok hpark, hcore]
      rfl
    exact .of_put horders (.parked h htype rfl) hrow
  | @activate s t j o₁ o₂ ho hst hrem h =>
    obtain ⟨o₃, ho₃, rfl, hcore⟩ := activateTrigger_ok h
    have hidx : o₃.orderIndex = j := Table.key_of_get ho₃
    exact .of_put (r := { o₃ with status := .opened }) (by rw [hcore]; rfl)
      (.kept (r := o₃.remainingBaseAmount) (hidx ▸ ho₃) rfl) hrow
  | seize victim m isAsk zeroPrice base => exact .same hrow
  | evict hbest => exact ((evict_sweptBy hbest .cancelled) hd.inv).2.row hrow
  | fill h => exact (h.sweptBy hd.inv).2.row hrow
  | @store s t k o₁ st hk hst h =>
    have horders : (coreOf t).orders = (coreOf s).orders.put { o₁ with status := st } := by
      rw [openOrder_ok h]
      split_ifs <;> rfl
    exact .of_put horders (.inHand rfl hk rfl) hrow
  | @abandon s u o₁ h =>
    exact (hd.abandon_closing h).row hrow
  | release => exact .same hrow
  | forced h =>
    have hcore := h.forced.sameCore
    exact .same (hcore ▸ hrow)
  | @outside s t h =>
    have hbook : (coreOf t).orders = (coreOf s).orders := by simp only [coreOf, h.book]
    exact .same (hbook ▸ hrow)

/-- Where an order in hand that is to be stored comes from: it was in hand with at least as much left,
or it is the order of a message or of an activated trigger. -/
inductive HandOf (d : Desk) (o' : Order) : Prop
  | kept {k : Task} {o : Order} {r : ℕ} (hhand : d.hand = some (k, o)) (hk : k ≠ .liquidating)
      (hr : r ≤ o.remainingBaseAmount) (heq : o' = { o with remainingBaseAmount := r })
  | accepted {msg : MsgCreateOrder} {prepared : Market × Order} {t : State}
      (h : (prepareOrder msg).run d.state = .ok prepared t) (heq : o' = prepared.2)
  | activated {i : ℕ} {o : Order} (ho : (coreOf d.state).orders.get i = some o)
      (heq : o' = executableTwin { o with status := .opened })

theorem Move.handOf (h : Move d d') (ho : d'.hand = some (k, o'))
    (hk : k ≠ .liquidating) : HandOf d o' := by
  cases h with
  | accept h htype =>
    obtain ⟨-, rfl⟩ := Prod.mk.inj (Option.some.inj ho)
    exact .accepted h rfl
  | activate ho₁ hst hrem h =>
    obtain ⟨-, rfl⟩ := Prod.mk.inj (Option.some.inj ho)
    obtain ⟨o₃, ho₃, rfl, -⟩ := activateTrigger_ok h
    exact .activated ho₃ rfl
  | seize victim m isAsk zeroPrice base =>
    obtain ⟨rfl, -⟩ := Prod.mk.inj (Option.some.inj ho)
    exact absurd rfl hk
  | evict hbest => exact .kept ho hk le_rfl rfl
  | fill h =>
    cases ho
    exact .kept rfl hk (Nat.sub_le _ _) rfl
  | _ => cases ho

end Rows

theorem DeskRun.sound (h : DeskRun d d') (hd : d.Sound) : d'.Sound := by
  induction h with
  | refl => exact hd
  | tail _ hmove ih => exact hmove.sound ih

/-- **What every move between sound desks keeps holds in every desk of a run.** -/
theorem DeskRun.invariant {P : Desk → Prop} (hstep : ∀ d d', d.Sound → P d → Move d d' → P d')
    (h : DeskRun d d') (hd : d.Sound) (hP : P d) : d'.Sound ∧ P d' := by
  induction h with
  | refl => exact ⟨hd, hP⟩
  | tail _ hmove ih => exact ⟨hmove.sound ih.1, hstep _ _ ih.1 ih.2 hmove⟩

theorem ExchangeRun.moves {Admit Fire : Order → State → Prop} (hc : (coreOf s).Inv)
    (h : ExchangeRun Admit Fire s t) : DeskRun ⟨s, none⟩ ⟨t, none⟩ := by
  induction h with
  | refl => exact .refl
  | tail _ hstep ih => exact ih.trans (hstep.moves (ih.sound (.idle hc)).inv)

end Moves

end PerpDex
