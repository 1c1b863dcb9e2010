/-
The matching loop as a sequence of passes.

* `nextMaker_explains` — what the search for a maker says about the book it leaves;
* `SweptBy` — the loop only takes entries from the other side of its market;
* `sweep_result` — what the loop returns, and why it ended.

Main result: `sweep_rule`.

Errors of the loop matter: the block hook that activates triggers goes on with whatever a failed loop has
written.
-/
import Mathlib.Logic.Relation
import PerpDex.BookEffects

namespace PerpDex

open Txn

variable {s t : State}
variable {taker : Order} {isAsk isPerp : Bool} {base fuel m : ℕ} {maker : OrderBookEntry}
  {attempt : Order → OrderBookEntry → ℕ → Tx FillOutcome} {goOn : Tx Bool} {trade : Tx Unit}

/-! ### The search for a maker -/

/-- What the answer of the search says about the taker and the book. -/
def MakerSearch.Explains (taker : Order) (s : State) : MakerSearch → Prop
  | .found maker => peekBest taker.marketIndex (!taker.isAsk) s = some maker ∧
      priceAllows taker maker = true ∧ maker.ownerAccountIndex ≠ taker.ownerAccountIndex
  | .emptyBook => peekBest taker.marketIndex (!taker.isAsk) s = none
  | .unreachable => ∃ best, peekBest taker.marketIndex (!taker.isAsk) s = some best ∧
      priceAllows taker best = false
  | .selfTrade | .reduceOnly => ∃ best, peekBest taker.marketIndex (!taker.isAsk) s = some best ∧
      priceAllows taker best = true

theorem nextMaker_succ (taker : Order) (isPerp : Bool) (fuel : ℕ) (s : State) :
    (nextMaker taker isPerp (fuel + 1)).run s =
      match peekBest taker.marketIndex (!taker.isAsk) s with
      | none => .ok .emptyBook s
      | some best =>
        if priceAllows taker best = false then .ok .unreachable s
        else if best.ownerAccountIndex = taker.ownerAccountIndex then .ok .selfTrade s
        else if 0 < best.expiry ∧ best.expiry ≤ s.now then
          (evictMakerOrder best.orderIndex .cancelled >>= fun _ =>
            nextMaker taker isPerp fuel).run s
        else if isPerp = true ∧ taker.reduceOnly = true ∧ reducedBy
            (getPosition s taker.ownerAccountIndex taker.marketIndex) taker.isAsk = false then
          .ok .reduceOnly s
        else if mustEvict s taker isPerp best then
          (evictMakerOrder best.orderIndex .cancelled >>= fun _ =>
            nextMaker taker isPerp fuel).run s
        else .ok (.found best) s := by
  rw [nextMaker, run_bind_read]
  dsimp only
  cases peekBest taker.marketIndex (!taker.isAsk) s with
  | none => rfl
  | some best =>
    dsimp only
    split_ifs <;> rfl

theorem nextMaker_settled {r : MakerSearch} (h : (nextMaker taker isPerp fuel).run s = .ok r t) :
    (nextMaker taker isPerp 1).run t = .ok r t := by
  induction fuel generalizing s with
  | zero => simp [nextMaker, run_throw] at h
  | succ fuel ih =>
    have hlook := nextMaker_succ taker isPerp 0 s
    rw [nextMaker_succ] at h
    have hevict : ∀ best : OrderBookEntry, (evictMakerOrder best.orderIndex .cancelled >>= fun _ =>
        nextMaker taker isPerp fuel).run s = .ok r t →
        (nextMaker taker isPerp 1).run t = .ok r t := by
      intro best hrun
      obtain ⟨_, s₁, -, hrest⟩ := run_bind_ok.mp hrun
      exact ih hrest
    rcases hbest : peekBest taker.marketIndex (!taker.isAsk) s with _ | best
    · simp only [hbest] at h hlook
      cases h
      exact hlook
    · simp only [hbest] at h hlook
      split_ifs at h hlook
      · cases h
        exact hlook
      · cases h
        exact hlook
      · exact hevict best h
      · cases h
        exact hlook
      · exact hevict best h
      · cases h
        exact hlook

theorem evict_no_look {best : OrderBookEntry} {r : MakerSearch} :
    (evictMakerOrder best.orderIndex .cancelled >>= fun _ => nextMaker taker isPerp 0).run s
      ≠ .ok r t := by
  intro h
  obtain ⟨_, s₁, -, hrest⟩ := run_bind_ok.mp h
  simp [nextMaker, run_throw] at hrest

theorem nextMaker_explains {r : MakerSearch}
    (h : (nextMaker taker isPerp fuel).run s = .ok r t) : r.Explains taker t := by
  have hlook := nextMaker_settled h
  rw [nextMaker_succ] at hlook
  rcases hbest : peekBest taker.marketIndex (!taker.isAsk) t with _ | best
  · simp only [hbest, EStateM.Result.ok.injEq, and_true] at hlook
    rw [← hlook]
    exact hbest
  · simp only [hbest] at hlook
    split_ifs at hlook with hprice hself hexpired hreduce hmust
    · cases hlook
      exact ⟨best, hbest, hprice⟩
    · cases hlook
      exact ⟨best, hbest, by simpa using hprice⟩
    · exact absurd hlook evict_no_look
    · cases hlook
      exact ⟨best, hbest, by simpa using hprice⟩
    · exact absurd hlook evict_no_look
    · cases hlook
      exact ⟨hbest, by simpa using hprice, hself⟩

/-- What holds of a maker that the search found, in the state in which it was found. -/
structure FoundMaker (taker : Order) (isPerp : Bool) (s : State) (maker : OrderBookEntry) :
    Prop where
  best : peekBest taker.marketIndex (!taker.isAsk) s = some maker
  price : priceAllows taker maker = true
  other : maker.ownerAccountIndex ≠ taker.ownerAccountIndex
  /-- A reduce-only taker has a position that the trade reduces. -/
  takerReduces : isPerp = true → taker.reduceOnly = true →
    reducedBy (getPosition s taker.ownerAccountIndex taker.marketIndex) taker.isAsk = true
  /-- So has the owner of a reduce-only maker. -/
  makerReduces : isPerp = true → maker.reduceOnly = true →
    reducedBy (getPosition s maker.ownerAccountIndex taker.marketIndex) (!taker.isAsk) = true

theorem look_found (h : (nextMaker taker isPerp 1).run s = .ok (.found maker) s) :
    peekBest taker.marketIndex (!taker.isAsk) s = some maker ∧ priceAllows taker maker = true ∧
      maker.ownerAccountIndex ≠ taker.ownerAccountIndex ∧
      ¬ (0 < maker.expiry ∧ maker.expiry ≤ s.now) ∧
      ¬ (isPerp = true ∧ taker.reduceOnly = true ∧ reducedBy
        (getPosition s taker.ownerAccountIndex taker.marketIndex) taker.isAsk = false) ∧
      ¬ mustEvict s taker isPerp maker = true := by
  rw [nextMaker_succ] at h
  rcases hbest : peekBest taker.marketIndex (!taker.isAsk) s with _ | best
  · simp [hbest] at h
  · simp only [hbest] at h
    split_ifs at h with hprice hself hexpired hreduce hmust
    · simp at h
    · simp at h
    · exact absurd h evict_no_look
    · simp at h
    · exact absurd h evict_no_look
    · obtain rfl := MakerSearch.found.inj (EStateM.Result.ok.inj h).1
      exact ⟨rfl, by simpa using hprice, hself, hexpired, hreduce, hmust⟩

theorem nextMaker_found (h : (nextMaker taker isPerp fuel).run s = .ok (.found maker) t) :
    FoundMaker taker isPerp t maker := by
  obtain ⟨hbest, hprice, hself, -, hreduce, hmust⟩ := look_found (nextMaker_settled h)
  refine ⟨hbest, hprice, hself, fun hp hr => ?_, fun hp hr => ?_⟩
  · by_contra hnot
    exact hreduce ⟨hp, hr, by simpa using hnot⟩
  · by_contra hnot
    exact hmust (by simp [mustEvict, hp, hr, hnot])

theorem nextMaker_live (h : (nextMaker taker isPerp fuel).run s = .ok (.found maker) t) :
    maker.expiry ≤ 0 ∨ t.now < maker.expiry := by
  obtain ⟨-, -, -, hlive, -⟩ := look_found (nextMaker_settled h)
  omega

section Rules

variable {R : State → State → Prop} [IsPreorder State R]

/-- **A relation kept by every eviction of a best maker is kept by the search.** -/
theorem nextMaker_rule
    (hevict : ∀ s best, peekBest taker.marketIndex (!taker.isAsk) s = some best →
      R s (after (evictMakerOrder best.orderIndex .cancelled) s)) (fuel : ℕ) :
    Keeps R (nextMaker taker isPerp fuel) := by
  induction fuel with
  | zero => exact Keeps.throw
  | succ fuel ih =>
    intro s
    have hstep : ∀ best, peekBest taker.marketIndex (!taker.isAsk) s = some best →
        R s (after (evictMakerOrder best.orderIndex .cancelled >>= fun _ =>
          nextMaker taker isPerp fuel) s) := by
      intro best hbest
      have h := hevict s best hbest
      refine after_bind ?_ ?_
      · intro o s₁ h₁
        rw [after_of_ok h₁] at h
        exact trans_of R h (ih s₁)
      · intro e s₁ h₁
        rw [after_of_error h₁] at h
        exact h
    rw [after, nextMaker_succ]
    rcases hbest : peekBest taker.marketIndex (!taker.isAsk) s with _ | best
    · exact refl_of R s
    · dsimp only
      split_ifs
      · exact refl_of R s
      · exact refl_of R s
      · exact hstep best hbest
      · exact refl_of R s
      · exact hstep best hbest
      · exact refl_of R s

end Rules

/-! ### Passes -/

theorem uint64Of_same (x : ℤ) : Keeps Eq (uint64Of x) := Keeps.bind Keeps.require fun _ => Keeps.pure

theorem capReduceOnly_same (applies : Bool) (account market base : ℕ) :
    Keeps Eq (capReduceOnly applies account market base) := by
  unfold capReduceOnly
  split
  · exact Keeps.bind Keeps.read fun _ => Keeps.bind (uint64Of_same _) fun _ => Keeps.pure
  · exact Keeps.pure

theorem matchSize_same (taker : Order) (maker : OrderBookEntry) (isPerp : Bool) :
    Keeps Eq (matchSize taker maker isPerp) := by
  refine Keeps.bind (capReduceOnly_same _ _ _ _) fun capped => ?_
  cases capped with
  | none => exact Keeps.pure
  | some base => exact Keeps.bind (capReduceOnly_same _ _ _ _) fun _ => Keeps.pure

theorem uint64Of_ok {x : ℤ} {n : ℕ} (h : (uint64Of x).run s = .ok n t) : t = s ∧ (n : ℤ) = x := by
  simp only [uint64Of, run_bind_ok, run_require_ok] at h
  obtain ⟨_, _, ⟨hrange, rfl⟩, hpure⟩ := h
  obtain ⟨rfl, rfl⟩ := run_pure_ok.mp hpure
  exact ⟨rfl, Int.toNat_of_nonneg hrange.1⟩

theorem capReduceOnly_some {applies : Bool} {account market b : ℕ}
    (h : (capReduceOnly applies account market base).run s = .ok (some b) t) :
    t = s ∧ b ≤ base ∧ (applies = true → (b : ℤ) ≤ |(getPosition s account market).baseSize|) := by
  unfold capReduceOnly at h
  split at h
  · simp only [run_bind_ok, run_read_ok] at h
    obtain ⟨pos, _, ⟨hpos, rfl⟩, limit, s₂, hword, hpure⟩ := h
    obtain ⟨rfl, hlimit⟩ := uint64Of_ok hword
    obtain ⟨hb, rfl⟩ := run_pure_ok.mp hpure
    cases hpos
    split_ifs at hb with hzero
    cases hb
    refine ⟨rfl, min_le_left _ _, fun _ => ?_⟩
    rw [← hlimit]
    exact_mod_cast min_le_right base limit
  · rename_i hno
    obtain ⟨hb, rfl⟩ := run_pure_ok.mp h
    cases hb
    exact ⟨rfl, le_rfl, fun happlies => absurd happlies hno⟩

/-- A fill has a size, is no larger than either order, and is no larger than the position of a
reduce-only side. -/
theorem matchSize_some (h : (matchSize taker maker isPerp).run s = .ok (some base) t) :
    base ≠ 0 ∧ base ≤ taker.remainingBaseAmount ∧ base ≤ maker.remainingBaseAmount ∧
      (isPerp = true → taker.reduceOnly = true →
        (base : ℤ) ≤ |(getPosition s taker.ownerAccountIndex taker.marketIndex).baseSize|) ∧
      (isPerp = true → maker.reduceOnly = true →
        (base : ℤ) ≤ |(getPosition s maker.ownerAccountIndex taker.marketIndex).baseSize|) := by
  obtain ⟨capped, s₁, htaker, hrest⟩ := run_bind_ok.mp h
  cases capped with
  | none => exact absurd (run_pure_ok.mp hrest).1 (by simp)
  | some b₁ =>
    obtain ⟨rfl, hb₁, htakerCap⟩ := capReduceOnly_some htaker
    obtain ⟨capped, s₂, hmaker, hpure⟩ := run_bind_ok.mp hrest
    obtain ⟨hfilter, -⟩ := run_pure_ok.mp hpure
    cases capped with
    | none => simp at hfilter
    | some b₂ =>
      obtain ⟨-, hb₂, hmakerCap⟩ := capReduceOnly_some hmaker
      obtain ⟨rfl, hne⟩ : base = b₂ ∧ b₂ ≠ 0 := by
        simp only [Option.filter] at hfilter
        split_ifs at hfilter with hne
        exact ⟨Option.some.inj hfilter, by simpa using hne⟩
      have hmin := Nat.le_min.mp hb₁
      refine ⟨hne, hb₂.trans hmin.1, hb₂.trans hmin.2, fun hp hr => ?_, fun hp hr => ?_⟩
      · have hcap := htakerCap (by simp [hp, hr])
        omega
      · have hpos : 0 < b₁ := by omega
        exact hmakerCap (by simp [hp, hr, hpos])

/-- Where the loop stands: the taker, the fills it may still make, and the state. -/
structure SweepState where
  taker : Order
  fillsLeft : ℕ
  state : State

/-- The pass that begins at `x` attempts to fill `base` against `maker` in the state `u`. -/
structure Attempts (isPerp : Bool) (x : SweepState) (u : State) (maker : OrderBookEntry)
    (base : ℕ) : Prop where
  remaining : x.taker.remainingBaseAmount ≠ 0
  fillsLeft : x.fillsLeft ≠ 0
  search : (nextMaker x.taker isPerp (entryCount x.state + 1)).run x.state = .ok (.found maker) u
  size : (matchSize x.taker maker isPerp).run u = .ok (some base) u

/-- A pass after which the loop goes on: the maker was evicted, or the fill was committed and
the taker has not recovered. -/
inductive Pass (isPerp : Bool) (attempt : Order → OrderBookEntry → ℕ → Tx FillOutcome)
    (goOn : Tx Bool) (x : SweepState) : SweepState → Prop
  | evicted {u v : State} {maker : OrderBookEntry} {base : ℕ}
      (ha : Attempts isPerp x u maker base)
      (h : (attempt x.taker maker base).run u = .ok .makerEvicted v) :
      Pass isPerp attempt goOn x ⟨x.taker, x.fillsLeft, v⟩
  | committed {u v w : State} {maker : OrderBookEntry} {base : ℕ}
      (ha : Attempts isPerp x u maker base)
      (h : (attempt x.taker maker base).run u = .ok .committed v)
      (hgo : goOn.run v = .ok true w) :
      Pass isPerp attempt goOn x
        ⟨{ x.taker with remainingBaseAmount := x.taker.remainingBaseAmount - base },
          x.fillsLeft - 1, w⟩

/-- The loop that begins at `x₀` comes to the pass that begins at `x`, and there commits a fill of
`base` against `maker`, from `u` to `v`. -/
structure Commits (isPerp : Bool) (attempt : Order → OrderBookEntry → ℕ → Tx FillOutcome)
    (goOn : Tx Bool) (x₀ x : SweepState) (maker : OrderBookEntry) (base : ℕ) (u v : State) :
    Prop where
  reached : Relation.ReflTransGen (Pass isPerp attempt goOn) x₀ x
  attempts : Attempts isPerp x u maker base
  committed : (attempt x.taker maker base).run u = .ok .committed v

theorem Attempts.of_values {left : ℕ}
    (s : State) (hremaining : taker.remainingBaseAmount ≠ 0) (hleft : left ≠ 0)
    (hsearch : value (nextMaker taker isPerp (entryCount s + 1)) s = some (.found maker))
    (hsize : value (matchSize taker maker isPerp)
      (after (nextMaker taker isPerp (entryCount s + 1)) s) = some (some base)) :
    Attempts isPerp ⟨taker, left, s⟩ (after (nextMaker taker isPerp (entryCount s + 1)) s) maker
      base where
  remaining := hremaining
  fillsLeft := hleft
  search := run_of_value hsearch
  size := by
    have hsame := matchSize_same taker maker isPerp
      (after (nextMaker taker isPerp (entryCount s + 1)) s)
    have hrun := run_of_value hsize
    rw [← hsame] at hrun
    exact hrun

theorem Commits.of_values {left : ℕ} (s : State)
    (hremaining : taker.remainingBaseAmount ≠ 0) (hleft : left ≠ 0)
    (hsearch : value (nextMaker taker isPerp (entryCount s + 1)) s = some (.found maker))
    (hsize : value (matchSize taker maker isPerp)
      (after (nextMaker taker isPerp (entryCount s + 1)) s) = some (some base))
    (hcommitted : value (attempt taker maker base)
      (after (nextMaker taker isPerp (entryCount s + 1)) s) = some .committed) :
    Commits isPerp attempt goOn ⟨taker, left, s⟩ ⟨taker, left, s⟩ maker base
      (after (nextMaker taker isPerp (entryCount s + 1)) s)
      (after (attempt taker maker base)
        (after (nextMaker taker isPerp (entryCount s + 1)) s)) where
  reached := .refl
  attempts := .of_values s hremaining hleft hsearch hsize
  committed := run_of_value hcommitted

def MatchOrderCommits (taker : Order) (maxFills : ℕ) (s : State) (x : SweepState)
    (maker : OrderBookEntry) (base : ℕ) (u v : State) : Prop :=
  ∃ market, getMarket taker.marketIndex s = .ok market ∧
    Commits (decide (market.marketType = .perps)) (applyUserFill market) (pure true)
      ⟨taker, maxFills, s⟩ x maker base u v

def MatchLiquidationCommits (taker : Order) (maxFills zeroPrice feeBps recipient : ℕ) (s : State)
    (x : SweepState) (maker : OrderBookEntry) (base : ℕ) (u v : State) : Prop :=
  (∃ market, getMarket taker.marketIndex s = .ok market ∧ market.marketType = .perps) ∧
    Commits true (applyLiquidationFill zeroPrice feeBps recipient)
      (Txn.read (needsLiquidation taker.ownerAccountIndex taker.marketIndex))
      ⟨taker, maxFills, s⟩ x maker base u v

/-- The loop that began at `x` ends at a related place: with the taker it returns, or with some
taker if it fails. -/
def TracksTo (R : Order × State → Order × State → Prop) (x : Order × State) :
    EStateM.Result Err State SweepResult → Prop
  | .ok r t => R x (r.taker, t)
  | .error _ t => ∃ o, R x (o, t)

theorem TracksTo.trans {R : Order × State → Order × State → Prop} [IsPreorder (Order × State) R]
    {x y : Order × State} {res : EStateM.Result Err State SweepResult} (h : TracksTo R y res)
    (hxy : R x y) : TracksTo R x res := by
  cases res with
  | ok r t => exact trans_of R hxy h
  | error e t =>
    obtain ⟨o, ho⟩ := h
    exact ⟨o, trans_of R hxy ho⟩

theorem TracksTo.mono {R R' : Order × State → Order × State → Prop} {x : Order × State}
    {res : EStateM.Result Err State SweepResult} (h : TracksTo R x res)
    (hR : ∀ y, R x y → R' x y) : TracksTo R' x res := by
  cases res with
  | ok r t => exact hR _ h
  | error e t =>
    obtain ⟨o, ho⟩ := h
    exact ⟨o, hR _ ho⟩

/-- **A relation between takers and states that evictions keep, committed fills keep with what
they take off the taker, and failed fills keep, is kept by the loop.** -/
theorem sweep_track {R : Order × State → Order × State → Prop} [IsPreorder (Order × State) R]
    (hevict : ∀ o s best, o.marketIndex = m → o.isAsk = isAsk → peekBest m (!isAsk) s = some best →
      R (o, s) (o, after (evictMakerOrder best.orderIndex .cancelled) s))
    (hgoOn : ∀ o s, R (o, s) (o, after goOn s)) (fuel : ℕ) (taker : Order) (total left : ℕ)
    (s : State) (hm : taker.marketIndex = m) (ha : taker.isAsk = isAsk)
    (hcommit : ∀ x u v maker base,
      Relation.ReflTransGen (Pass isPerp attempt goOn) ⟨taker, left, s⟩ x →
      Attempts isPerp x u maker base → (attempt x.taker maker base).run u = .ok .committed v →
      R (x.taker, u)
        ({ x.taker with remainingBaseAmount := x.taker.remainingBaseAmount - base }, v))
    (hfail : ∀ x u maker base,
      Relation.ReflTransGen (Pass isPerp attempt goOn) ⟨taker, left, s⟩ x →
      Attempts isPerp x u maker base →
      (∀ v, (attempt x.taker maker base).run u ≠ .ok .committed v) →
      R (x.taker, u) (x.taker, after (attempt x.taker maker base) u)) :
    TracksTo R (taker, s) ((sweep isPerp attempt goOn fuel taker total left).run s) := by
  induction fuel generalizing taker total left s with
  | zero => exact ⟨taker, refl_of R _⟩
  | succ fuel ih =>
    have : IsPreorder State fun s t => R (taker, s) (taker, t) :=
      { refl := fun s => refl_of R _
        trans := fun _ _ _ h h' => trans_of R h h' }
    have hsearch : Keeps (fun s t => R (taker, s) (taker, t))
        (nextMaker taker isPerp (entryCount s + 1)) := by
      refine nextMaker_rule ?_ _
      rw [hm, ha]
      exact fun s best => hevict taker s best hm ha
    unfold sweep
    dsimp only
    split_ifs with hrem hleft
    · exact refl_of R (taker, s)
    · exact refl_of R (taker, s)
    · rw [run_bind_read]
      refine run_bind_cases ?_ fun e v h => ⟨taker, hsearch.error h⟩
      intro search s₁ h₁
      have hR₁ : R (taker, s) (taker, s₁) := hsearch.ok h₁
      cases search with
      | emptyBook => exact hR₁
      | unreachable => exact hR₁
      | selfTrade => exact hR₁
      | reduceOnly => exact hR₁
      | found maker =>
        refine run_bind_cases ?_ fun e v h => ⟨taker, (matchSize_same _ _ _).error h ▸ hR₁⟩
        intro size s₂ h₂
        obtain rfl : s₁ = s₂ := (matchSize_same _ _ _).ok h₂
        cases size with
        | none => exact hR₁
        | some base =>
          have hattempts : Attempts isPerp ⟨taker, left, s⟩ s₁ maker base := ⟨hrem, hleft, h₁, h₂⟩
          refine run_bind_cases ?_ fun e v h => ⟨taker, trans_of R hR₁ ?_⟩
          swap
          · rw [← after_of_error h]
            exact hfail _ _ _ _ .refl hattempts fun w hw => by simp [hw] at h
          intro outcome s₃ h₃
          have hother : outcome ≠ .committed → R (taker, s) (taker, s₃) := by
            intro hne
            refine trans_of R hR₁ ?_
            rw [← after_of_ok h₃]
            refine hfail _ _ _ _ .refl hattempts fun w hw => hne ?_
            exact (EStateM.Result.ok.inj (h₃.symm.trans hw)).1
          -- the rest of the loop, from what this pass left
          cases outcome with
          | takerRejected => exact hother (by simp)
          | makerEvicted =>
            have hrest := ih taker total left s₃ hm ha
              (fun x u v mk b hx => hcommit x u v mk b (.head (.evicted hattempts h₃) hx))
              (fun x u mk b hx => hfail x u mk b (.head (.evicted hattempts h₃) hx))
            exact hrest.trans (hother (by simp))
          | committed =>
            have hR₃ := trans_of R (trans_of R hR₁ (hcommit _ _ _ _ _ .refl hattempts h₃))
              (hgoOn _ s₃)
            refine run_bind_cases ?_ fun e v h => ⟨_, after_of_error h ▸ hR₃⟩
            intro more s₄ h₄
            have hR₄ := after_of_ok h₄ ▸ hR₃
            cases more with
            | false => exact hR₄
            | true =>
              rw [if_pos rfl]
              refine TracksTo.trans (ih _ _ _ s₄ ?_ ?_ ?_ ?_) hR₄
              · exact hm
              · exact ha
              · exact fun x u v mk b hx =>
                  hcommit x u v mk b (.head (.committed hattempts h₃ h₄) hx)
              · exact fun x u mk b hx => hfail x u mk b (.head (.committed hattempts h₃ h₄) hx)

/-- **A relation kept by evictions and by every fill the loop comes to attempt is kept by the
loop.** -/
theorem sweep_rule {R : State → State → Prop} [IsPreorder State R]
    (hevict : ∀ s best, peekBest m (!isAsk) s = some best →
      R s (after (evictMakerOrder best.orderIndex .cancelled) s))
    (hgoOn : Keeps R goOn) (fuel : ℕ) (taker : Order) (total left : ℕ) (s : State)
    (hm : taker.marketIndex = m) (ha : taker.isAsk = isAsk)
    (hattempt : ∀ x u maker base,
      Relation.ReflTransGen (Pass isPerp attempt goOn) ⟨taker, left, s⟩ x →
      Attempts isPerp x u maker base → R u (after (attempt x.taker maker base) u)) :
    R s (after (sweep isPerp attempt goOn fuel taker total left) s) := by
  have : IsPreorder (Order × State) fun x y => R x.2 y.2 :=
    { refl := fun x => refl_of R x.2
      trans := fun _ _ _ h h' => trans_of R h h' }
  have htrack := sweep_track (R := fun x y => R x.2 y.2) (fun _ s best _ _ => hevict s best)
    (fun _ s => hgoOn s) fuel taker total left s hm ha
    (fun x u v maker base hx ha h => after_of_ok h ▸ hattempt x u maker base hx ha)
    (fun x u maker base hx ha _ => hattempt x u maker base hx ha)
  rw [after]
  cases hrun : (sweep isPerp attempt goOn fuel taker total left).run s with
  | ok r t =>
    rw [hrun] at htrack
    exact htrack
  | error e t =>
    rw [hrun] at htrack
    exact htrack.choose_spec

/-! ### Fills -/

theorem applyFill_rule {R : State → State → Prop} [IsPreorder State R]
    (hevict : R s (after (evictMakerOrder maker.orderIndex .cancelled) s))
    (hfill : ∀ u v o, trade.run s = .ok () u →
      (fillMakerOrder maker.orderIndex base).run u = .ok o v → R s v) :
    R s (after (applyFill maker base trade) s) := by
  have hclassify : ∀ e, R s (after (classifyApplyError maker.orderIndex e) s) := by
    intro e
    unfold classifyApplyError
    split_ifs
    · refine after_bind ?_ ?_
      · intro o u h
        rw [after_of_ok h] at hevict
        exact hevict
      · intro e u h
        rw [after_of_error h] at hevict
        exact hevict
    · exact refl_of R s
    · exact refl_of R s
  refine after_bind ?_ ?_
  · intro done u h
    rcases run_attempt_ok.mp h with ⟨a, rfl, hdone⟩ | ⟨e, rfl, -, hfailed⟩
    · obtain ⟨_, w, htrade, hrest⟩ := run_bind_ok.mp (run_atomic_ok.mp hdone)
      obtain ⟨o, w', hshrink, hpure⟩ := run_bind_ok.mp hrest
      obtain rfl := (run_pure_ok.mp hpure).2
      exact hfill w _ o htrade hshrink
    · obtain ⟨rfl, -⟩ := run_atomic_error.mp hfailed
      exact hclassify e
  · intro e u h
    obtain ⟨rfl, -⟩ := run_atomic_error.mp (run_attempt_error.mp h).2
    exact refl_of R _

theorem applyFill_committed (h : (applyFill maker base trade).run s = .ok .committed t) :
    ∃ u o, trade.run s = .ok () u ∧ (fillMakerOrder maker.orderIndex base).run u = .ok o t := by
  obtain ⟨done, u, hdone, hrest⟩ := run_bind_ok.mp h
  rcases run_attempt_ok.mp hdone with ⟨a, rfl, hok⟩ | ⟨e, rfl, -, hfailed⟩
  · obtain ⟨_, w, htrade, hrest'⟩ := run_bind_ok.mp (run_atomic_ok.mp hok)
    obtain ⟨o, w', hfill, hpure⟩ := run_bind_ok.mp hrest'
    obtain rfl := (run_pure_ok.mp hpure).2
    obtain rfl := (run_pure_ok.mp hrest).2
    exact ⟨w, o, htrade, hfill⟩
  · have hrest : (classifyApplyError maker.orderIndex e).run u = .ok .committed t := hrest
    unfold classifyApplyError at hrest
    split_ifs at hrest with hmaker htaker
    · obtain ⟨o, v, -, hpure⟩ := run_bind_ok.mp hrest
      exact absurd (run_pure_ok.mp hpure).1 (by simp)
    · exact absurd (run_pure_ok.mp hrest).1 (by simp)
    · simp [run_throw] at hrest

theorem applyFill_of_ok {u : State} {o : Order} (htrade : trade.run s = .ok () u)
    (hfill : (fillMakerOrder maker.orderIndex base).run u = .ok o t) :
    (applyFill maker base trade).run s = .ok .committed t := by
  refine run_bind_ok.mpr ⟨.ok (), t, run_attempt_ok.mpr (Or.inl ⟨(), rfl, ?_⟩), rfl⟩
  exact run_atomic_ok.mpr (run_bind_ok.mpr ⟨(), u, htrade, run_bind_ok.mpr ⟨o, t, hfill, rfl⟩⟩)

def userTrade (market : Market) (taker : Order) (maker : OrderBookEntry) (base : ℕ) : Tx Unit :=
  if market.marketType = .perps then applyPerpsMatching (userPerpFill market taker maker base)
  else applySpotMatching (userSpotFill market taker maker base) market.baseAssetId
    market.quoteAssetId

theorem applyUserFill_eq (market : Market) (taker : Order) (maker : OrderBookEntry) (base : ℕ) :
    applyUserFill market taker maker base
      = applyFill maker base (userTrade market taker maker base) := by
  unfold applyUserFill userTrade
  split <;> rfl

theorem userTrade_book (market : Market) (taker : Order) (maker : OrderBookEntry) (base : ℕ) :
    Keeps SameBook (userTrade market taker maker base) := by
  unfold userTrade
  split
  · exact applyPerpsMatching_book _
  · exact applySpotMatching_book _ _ _

/-! ### What a sweep does to the book -/

/-- From a consistent book to a consistent book with entries of market `m` taken away. -/
def SweptBy (m : ℕ) (s t : State) : Prop :=
  (coreOf s).Inv → (coreOf t).Inv ∧ Core.Swept m (coreOf s) (coreOf t)

instance (m : ℕ) : IsPreorder State (SweptBy m) where
  refl s hc := ⟨hc, Core.Swept.refl m _⟩
  trans s t u h h' hc := by
    obtain ⟨hc', hswept⟩ := h hc
    obtain ⟨hc'', hswept'⟩ := h' hc'
    exact ⟨hc'', hswept.trans hswept'⟩

theorem SameCore.sweptBy (m : ℕ) (h : SameCore s t) : SweptBy m s t := by
  intro hc
  rw [h]
  exact ⟨hc, Core.Swept.refl m _⟩

theorem peekBest_spec {best : OrderBookEntry} (h : peekBest m isAsk s = some best) :
    ∃ sk, (coreOf s).entries.get (toLex (m, sk)) = some best ∧
      onSide m isAsk (toLex (m, sk)) = true ∧
      ∀ sk' e', (coreOf s).entries.get (toLex (m, sk')) = some e' →
        onSide m isAsk (toLex (m, sk')) = true → sk ≤ sk' := by
  obtain ⟨⟨k, v⟩, hfirst, rfl⟩ := Option.map_eq_some_iff.mp h
  obtain ⟨hget, hside, hmin⟩ := KVStore.first_spec hfirst
  obtain ⟨m', sk⟩ := k
  have hm : m' = m := by
    simp only [onSide, Bool.and_eq_true, beq_iff_eq] at hside
    exact hside.1
  subst hm
  refine ⟨sk, hget, hside, fun sk' e' he' hside' => ?_⟩
  have hle := hmin _ e' he' hside'
  rcases Prod.Lex.le_iff.mp hle with hlt | ⟨-, hle⟩
  · exact absurd hlt (lt_irrefl _)
  · exact hle

theorem evict_sweptBy {best : OrderBookEntry}
    (h : peekBest m isAsk s = some best) (st : OrderStatus) :
    SweptBy m s (after (evictMakerOrder best.orderIndex st) s) := by
  intro hc
  obtain ⟨sk, he, -⟩ := peekBest_spec h
  obtain ⟨⟨o, hrests⟩, -⟩ := hc.entry m sk best he
  have hclosing := Core.Closing.of_resting hrests.order hrests.status
    (evictMakerOrder_outcome st hrests.order)
  exact ⟨hc.closing hclosing, hc.swept_closing he hclosing⟩

theorem fill_sweptBy {sk : SortKey} {o' : Order}
    (he : (coreOf s).entries.get (toLex (m, sk)) = some maker)
    (h : (fillMakerOrder maker.orderIndex base).run s = .ok o' t) : SweptBy m s t := by
  intro hc
  obtain ⟨o, sk', entry, ho, hfind, -, hcore⟩ := fillMakerOrder_ok h
  have hrests := hc.entry_of_order he ho
  obtain rfl : o.marketIndex = m := hrests.market
  have hfind' := hc.find_of_entry he
  rw [hfind', Option.some_inj, Prod.mk.injEq] at hfind
  obtain ⟨rfl, rfl⟩ := hfind
  rw [hcore]
  split_ifs with hle
  · have hdrop : (coreOf s).drop o.marketIndex maker.orderIndex sk
        = (coreOf s).dropOrder o.marketIndex maker.orderIndex := by
      rw [Core.dropOrder, hfind']
    rw [hdrop]
    exact ⟨hc.put_dropped ho hrests.status, (hc.swept_dropOrder he).put he ho 0 .filled⟩
  · have hrem : maker.remainingBaseAmount = o.remainingBaseAmount := by
      rw [← hrests.entry]
      rfl
    rw [hrem]
    exact ⟨hc.shrink he hrests (by omega) rfl, Core.Inv.swept_shrink he ho _ _⟩

theorem applyFill_sweptBy
    (hbest : peekBest m isAsk s = some maker) (htrade : Keeps SameCore trade) :
    SweptBy m s (after (applyFill maker base trade) s) := by
  refine applyFill_rule (evict_sweptBy hbest .cancelled) ?_
  intro u v o hrun hfill
  have hcore : coreOf u = coreOf s := htrade.ok hrun
  obtain ⟨sk, he, -⟩ := peekBest_spec hbest
  rw [← hcore] at he
  exact trans_of (SweptBy m) (SameCore.sweptBy m hcore) (fill_sweptBy he hfill)

theorem runSweep_sweptBy (hgoOn : Keeps SameCore goOn)
    (hattempt : ∀ taker maker base, ∃ trade, Keeps SameCore trade ∧
      attempt taker maker base = applyFill maker base trade) (taker : Order) (maxFills : ℕ) :
    Keeps (SweptBy taker.marketIndex) (runSweep isPerp attempt goOn taker maxFills) := by
  refine Keeps.bind Keeps.read fun bound s => ?_
  refine sweep_rule (fun u best hbest => evict_sweptBy hbest .cancelled)
    (hgoOn.mono fun _ _ h => h.sweptBy _) _ taker 0 maxFills s rfl rfl ?_
  intro x u maker base hx ha
  obtain ⟨hbest, -, -⟩ := nextMaker_explains ha.search
  obtain ⟨trade, htrade, heq⟩ := hattempt x.taker maker base
  rw [heq]
  -- passes change the residue of the taker only
  have htaker : x.taker.marketIndex = taker.marketIndex := by
    clear ha heq hbest htrade
    induction hx with
    | refl => rfl
    | tail _ hpass ih =>
      cases hpass with
      | evicted _ _ => exact ih
      | committed _ _ _ => exact ih
  rw [htaker] at hbest
  exact applyFill_sweptBy hbest htrade

theorem matchOrder_sweptBy (taker : Order) (maxFills : ℕ) :
    Keeps (SweptBy taker.marketIndex) (matchOrder taker maxFills) := by
  refine Keeps.bind Keeps.read fun market => ?_
  exact runSweep_sweptBy Keeps.pure
    (fun tk maker base => ⟨_, keepsCore <| userTrade_book market tk maker base, applyUserFill_eq _ _ _ _⟩) _ _

theorem matchLiquidationOrder_sweptBy (victim m zeroPrice base feeBps recipient : ℕ) :
    Keeps (SweptBy m) (matchLiquidationOrder victim m zeroPrice base feeBps recipient) := by
  refine Keeps.bind Keeps.require fun _ => Keeps.bind Keeps.require fun _ =>
    Keeps.bind Keeps.read fun pos => Keeps.bind Keeps.require fun _ => Keeps.bind ?_ fun abs =>
    Keeps.bind Keeps.read fun params => ?_
  · exact (uint64Of_same _).mono fun s t h => h ▸ refl_of (SweptBy m) s
  · refine Keeps.bind Keeps.read fun market => Keeps.bind Keeps.require fun _ =>
      Keeps.bind ?_ fun _ => Keeps.pure
    exact runSweep_sweptBy Keeps.read
      (fun tk maker b => ⟨_, keepsCore (applyPerpsMatching_book _), rfl⟩) _ _

/-! ### A sweep of an empty side -/

theorem nextMaker_empty (h : peekBest taker.marketIndex (!taker.isAsk) s = none) :
    (nextMaker taker isPerp (fuel + 1)).run s = .ok .emptyBook s := by
  rw [nextMaker, run_bind_read]
  simp only [h]
  rfl

theorem matchOrder_empty {maxFills : ℕ} {market : Market}
    (hmarket : getMarket taker.marketIndex s = .ok market)
    (h : peekBest taker.marketIndex (!taker.isAsk) s = none)
    (hrem : taker.remainingBaseAmount ≠ 0) (hfills : maxFills ≠ 0) :
    (matchOrder taker maxFills).run s = .ok ⟨taker, 0, .emptyBook⟩ s := by
  rw [matchOrder, run_bind_read, hmarket]
  simp only
  rw [runSweep, run_bind_read]
  simp only
  rw [sweep]
  simp only [if_neg hrem, if_neg hfills]
  rw [run_bind_read]
  exact run_bind_ok.mpr ⟨_, s, nextMaker_empty h, rfl⟩

/-! ### What a sweep returns -/

/-- What the reason for which the loop ended says about the taker and the book. -/
def SweepResult.Explains (r : SweepResult) (s : State) : Prop :=
  match r.ended with
  | .drained => r.taker.remainingBaseAmount = 0
  | .emptyBook => MakerSearch.emptyBook.Explains r.taker s
  | .unreachable => MakerSearch.unreachable.Explains r.taker s
  | .takerRejected => r.taker.remainingBaseAmount ≠ 0
  | _ => True

/-- The taker of a result is the taker of the loop with what is left of it. -/
def Order.ShrunkTo (o o' : Order) : Prop :=
  ∃ b ≤ o.remainingBaseAmount, o' = { o with remainingBaseAmount := b }

theorem Order.ShrunkTo.refl (o : Order) : o.ShrunkTo o := ⟨o.remainingBaseAmount, le_rfl, rfl⟩

theorem Order.ShrunkTo.trans {o o' o'' : Order} (h : o.ShrunkTo o') (h' : o'.ShrunkTo o'') :
    o.ShrunkTo o'' := by
  obtain ⟨b, hb, rfl⟩ := h
  obtain ⟨b', hb', rfl⟩ := h'
  exact ⟨b', hb'.trans hb, rfl⟩

theorem Order.ShrunkTo.of_sub {o o' : Order} {b : ℕ}
    (h : ({ o with remainingBaseAmount := o.remainingBaseAmount - b } : Order).ShrunkTo o') :
    o.ShrunkTo o' := by
  obtain ⟨b', hle, rfl⟩ := h
  exact ⟨b', hle.trans (Nat.sub_le _ _), rfl⟩

theorem shrunkTo_of_passes {x₀ x : SweepState}
    (h : Relation.ReflTransGen (Pass isPerp attempt goOn) x₀ x) : x₀.taker.ShrunkTo x.taker := by
  induction h with
  | refl => exact Order.ShrunkTo.refl _
  | tail _ hpass ih =>
    obtain ⟨b, hb, hx⟩ := ih
    cases hpass with
    | evicted ha h => exact ⟨b, hb, hx⟩
    | committed ha h hgo =>
      rw [hx]
      exact ⟨_, (Nat.sub_le _ _).trans hb, rfl⟩

theorem sweep_result {total left : ℕ} {r : SweepResult}
    (h : (sweep isPerp attempt goOn fuel taker total left).run s = .ok r t) :
    taker.ShrunkTo r.taker ∧ r.Explains t := by
  induction fuel generalizing taker total left s with
  | zero => simp [sweep, run_throw] at h
  | succ fuel ih =>
    unfold sweep at h
    dsimp only at h
    split_ifs at h with hrem hleft
    · obtain ⟨rfl, -⟩ := run_pure_ok.mp h
      exact ⟨.refl _, hrem⟩
    · obtain ⟨rfl, -⟩ := run_pure_ok.mp h
      exact ⟨.refl _, trivial⟩
    · obtain ⟨bound, s₀, -, h⟩ := run_bind_ok.mp h
      obtain ⟨search, s₁, h₁, h⟩ := run_bind_ok.mp h
      have hexplains := nextMaker_explains h₁
      cases search with
      | emptyBook =>
        obtain ⟨rfl, rfl⟩ := run_pure_ok.mp h
        exact ⟨.refl _, hexplains⟩
      | unreachable =>
        obtain ⟨rfl, rfl⟩ := run_pure_ok.mp h
        exact ⟨.refl _, hexplains⟩
      | selfTrade =>
        obtain ⟨rfl, -⟩ := run_pure_ok.mp h
        exact ⟨.refl _, trivial⟩
      | reduceOnly =>
        obtain ⟨rfl, -⟩ := run_pure_ok.mp h
        exact ⟨.refl _, trivial⟩
      | found maker =>
        obtain ⟨size, s₂, -, h⟩ := run_bind_ok.mp h
        cases size with
        | none =>
          obtain ⟨rfl, -⟩ := run_pure_ok.mp h
          exact ⟨.refl _, trivial⟩
        | some base =>
          obtain ⟨outcome, s₃, -, h⟩ := run_bind_ok.mp h
          cases outcome with
          | takerRejected =>
            obtain ⟨rfl, -⟩ := run_pure_ok.mp h
            exact ⟨.refl _, hrem⟩
          | makerEvicted => exact ih h
          | committed =>
            obtain ⟨more, s₄, -, h⟩ := run_bind_ok.mp h
            cases more with
            | false =>
              obtain ⟨rfl, -⟩ := run_pure_ok.mp h
              exact ⟨.of_sub (.refl _), trivial⟩
            | true =>
              obtain ⟨hshrunk, hex⟩ := ih h
              exact ⟨hshrunk.of_sub, hex⟩

theorem matchOrder_result {maxFills : ℕ} {r : SweepResult}
    (h : (matchOrder taker maxFills).run s = .ok r t) :
    taker.ShrunkTo r.taker ∧ r.Explains t := by
  obtain ⟨market, s₁, -, h⟩ := run_bind_ok.mp h
  obtain ⟨bound, s₂, -, h⟩ := run_bind_ok.mp h
  exact sweep_result h

theorem SweepResult.settled_resting {r : SweepResult} (h : r.settled.status.isResting = true) :
    r.settled = { r.taker with status := r.status } ∧ r.taker.remainingBaseAmount ≠ 0 ∧
      r.ended ≠ .takerRejected ∧ r.taker.timeInForce ≠ .ioc := by
  have hrem : r.taker.remainingBaseAmount ≠ 0 := by
    intro h0
    have hstatus : r.status.isResting = false := by
      unfold SweepResult.status
      split_ifs
      · rfl
      · rfl
    unfold SweepResult.settled killResidue at h
    split_ifs at h with hkill
    · exact absurd h0 (by
        have := hkill.2
        dsimp only at this
        omega)
    · rw [hstatus] at h
      exact absurd h (by simp)
  unfold SweepResult.settled killResidue at h ⊢
  split_ifs at h ⊢ with hkill
  · simp [OrderStatus.isResting] at h
  · refine ⟨rfl, hrem, ?_, ?_⟩
    · intro hrejected
      simp [SweepResult.status, hrejected, OrderStatus.isResting] at h
    · intro hioc
      exact hkill ⟨hioc, by
        dsimp only
        omega⟩

theorem applyFill_evicted (h : (applyFill maker base trade).run s = .ok .makerEvicted t) :
    t = after (evictMakerOrder maker.orderIndex .cancelled) s := by
  obtain ⟨done, u, hdone, hrest⟩ := run_bind_ok.mp h
  rcases run_attempt_ok.mp hdone with ⟨a, rfl, -⟩ | ⟨e, rfl, -, hfailed⟩
  · exact absurd (run_pure_ok.mp hrest).1 (by simp)
  · obtain ⟨rfl, -⟩ := run_atomic_error.mp hfailed
    have hrest : (classifyApplyError maker.orderIndex e).run u = .ok .makerEvicted t := hrest
    unfold classifyApplyError at hrest
    split_ifs at hrest with hmaker htaker
    · obtain ⟨o, v, hevict, hpure⟩ := run_bind_ok.mp hrest
      rw [after_of_ok hevict]
      exact (run_pure_ok.mp hpure).2
    · exact absurd (run_pure_ok.mp hrest).1 (by simp)
    · simp [run_throw] at hrest

end PerpDex
