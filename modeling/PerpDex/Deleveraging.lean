/-
What automatic deleveraging may do to the accounts it touches.

* `Walk` — the calls of the trade engine that a walk over the queue makes;
* `Distressed`, `Standing` — what the walk knows of the victim, read again after every fill, and of the
  candidates it has not reached, read once when the queue was built.

Main results: `auto_deleveraging_confined`, `pool_deleveraged_as_victim`.

What the queue says of a candidate can only go stale through a fill, and a fill moves the victim and one
candidate, so the ones ahead stand as they were queued.
-/
import Mathlib.Order.Lattice.Nat
import PerpDex.Liquidation
import PerpDex.OpenInterest

namespace PerpDex

open Txn

variable {s t : State} {victim m : ℕ}

/-! ### The calls of a walk -/

/-- A call of the trade engine made for a candidate. -/
structure EngineCall where
  candidate : ADLCandidate
  fill : Fill
  before : State

namespace EngineCall

variable (call : EngineCall)

def after : State := Txn.after (applyPerpsMatching call.fill) call.before

def committed : Bool := Txn.succeeds (applyPerpsMatching call.fill) call.before

variable {call}

theorem committed_of_ok {u : Unit} {t : State}
    (h : (applyPerpsMatching call.fill).run call.before = .ok u t) : call.committed = true := by
  rw [committed, Txn.succeeds, h]

theorem committed_of_error {e : Err} {t : State}
    (h : (applyPerpsMatching call.fill).run call.before = .error e t) : ¬ call.committed = true := by
  rw [committed, Txn.succeeds, h]
  exact Bool.false_ne_true

variable (call)

/-- If the call returns an error, it has not written anything. -/
def FailsCleanly : Prop :=
  ∀ e t, Err.isValue e = true → (applyPerpsMatching call.fill).run call.before = .error e t →
    t = call.before

end EngineCall

/-- The call for a candidate, given the zero price of the victim and what is left of its position. -/
def adlCall (victim marketIdx : ℕ) (oppositeIsLong takerIsAsk : Bool) (victimZP : ℕ) (remaining : ℤ)
    (s : State) (c : ADLCandidate) : EngineCall where
  candidate := c
  fill := adlFill victim c.accountIndex marketIdx
    (zeroPriceMid victimZP c.zeroPrice (!oppositeIsLong)) (min |c.positionSize| remaining).toNat
    takerIsAsk
  before := s

/-- The calls that `adlLoop` makes from `s`. -/
def adlLoopCalls (victim marketIdx : ℕ) (oppositeIsLong takerIsAsk : Bool) :
    List ADLCandidate → ℕ → ℕ → ℤ → State → List EngineCall
  | [], _, _, _, _ => []
  | c :: cands, attemptsLeft, victimZP, remaining, s =>
    if attemptsLeft = 0 ∨ remaining = 0 then []
    else if (if oppositeIsLong then victimZP < c.zeroPrice else victimZP > c.zeroPrice) then
      adlLoopCalls victim marketIdx oppositeIsLong takerIsAsk cands attemptsLeft victimZP remaining s
    else if ¬ 0 < min |c.positionSize| remaining then
      adlLoopCalls victim marketIdx oppositeIsLong takerIsAsk cands attemptsLeft victimZP remaining s
    -- the size has to be a machine word
    else if ¬ min |c.positionSize| remaining ≤ maxUint64 then []
    else
      let call := adlCall victim marketIdx oppositeIsLong takerIsAsk victimZP remaining s c
      call :: match (applyPerpsMatching call.fill).run s with
        | .error e t =>
          -- a panic ends the walk, any other error is logged
          if e.isValue then
            adlLoopCalls victim marketIdx oppositeIsLong takerIsAsk cands attemptsLeft victimZP
              remaining t
          else []
        | .ok _ t =>
          match getLiquidationRiskSnapshot victim marketIdx t with
          | .error _ => []
          | .ok snap =>
            if snap.position.baseSize = 0 then []
            else if snap.risk.healthStatus.isTerminal = false then []
            else
              adlLoopCalls victim marketIdx oppositeIsLong takerIsAsk cands (attemptsLeft - 1)
                snap.zeroPrice |snap.position.baseSize| t

/-- The calls that `autoADL` makes from `s`. -/
def autoADLCalls (victim marketIdx candCap attemptsLeft : ℕ) (s : State) : List EngineCall :=
  if attemptsLeft = 0 then []
  else
    match getLiquidationRiskSnapshot victim marketIdx s with
    | .error _ => []
    | .ok snap =>
      let pos := snap.position
      if pos.baseSize = 0 then []
      else if snap.risk.healthStatus.isTerminal = false then []
      else
        adlLoopCalls victim marketIdx pos.isShort pos.openingIsAsk
          (buildADLQueue marketIdx pos.isShort candCap s) attemptsLeft snap.zeroPrice |pos.baseSize| s

/-- One call after the other leads from `s` to `t`. -/
def Replays (s : State) : List EngineCall → State → Prop
  | [], t => t = s
  | call :: calls, t => call.before = s ∧ Replays call.after calls t

def fillsOf (calls : List EngineCall) : List EngineCall := calls.filter (·.committed)

/-- For each candidate the walk stops, passes it over, or calls the engine for it and goes on from what
the call left. -/
inductive Walk (victim m : ℕ) (long ask : Bool) :
    List ADLCandidate → ℕ → ℕ → ℤ → State → List EngineCall → Prop
  | stop {cands attempts zp remaining s} : Walk victim m long ask cands attempts zp remaining s []
  | skip {c cands attempts zp remaining s calls} :
      Walk victim m long ask cands attempts zp remaining s calls →
      Walk victim m long ask (c :: cands) attempts zp remaining s calls
  | last {c cands attempts zp remaining s} :
      attempts ≠ 0 → 0 < min |c.positionSize| remaining →
      Walk victim m long ask (c :: cands) attempts zp remaining s
        [adlCall victim m long ask zp remaining s c]
  | failed {c cands attempts zp remaining s calls e t} :
      attempts ≠ 0 → 0 < min |c.positionSize| remaining → Err.isValue e = true →
      (applyPerpsMatching (adlCall victim m long ask zp remaining s c).fill).run s = .error e t →
      Walk victim m long ask cands attempts zp remaining t calls →
      Walk victim m long ask (c :: cands) attempts zp remaining s
        (adlCall victim m long ask zp remaining s c :: calls)
  | filled {c cands attempts zp remaining s calls snap t} :
      attempts ≠ 0 → 0 < min |c.positionSize| remaining →
      (applyPerpsMatching (adlCall victim m long ask zp remaining s c).fill).run s = .ok () t →
      getLiquidationRiskSnapshot victim m t = .ok snap → snap.position.baseSize ≠ 0 →
      snap.risk.healthStatus.isTerminal = true →
      Walk victim m long ask cands (attempts - 1) snap.zeroPrice |snap.position.baseSize| t calls →
      Walk victim m long ask (c :: cands) attempts zp remaining s
        (adlCall victim m long ask zp remaining s c :: calls)

theorem adlLoopCalls_walk (long ask : Bool) (cands : List ADLCandidate) (attempts zp : ℕ)
    (remaining : ℤ) (s : State) :
    Walk victim m long ask cands attempts zp remaining s
      (adlLoopCalls victim m long ask cands attempts zp remaining s) := by
  fun_induction adlLoopCalls victim m long ask cands attempts zp remaining s with
  | case1 => exact .stop
  | case2 => exact .stop
  | case3 _ _ _ _ _ _ _ _ ih => exact .skip ih
  | case4 _ _ _ _ _ _ _ _ _ ih => exact .skip ih
  | case5 => exact .stop
  | case6 c cands attempts zp remaining s hgoes _ hsize _ call iherror ihok =>
    have hattempts : attempts ≠ 0 := fun h => hgoes (.inl h)
    have hsize := not_not.mp hsize
    cases hrun : (applyPerpsMatching call.fill).run s with
    | error e t =>
      dsimp only
      split
      · rename_i hvalue
        exact .failed hattempts hsize hvalue hrun (iherror t)
      · exact .last hattempts hsize
    | ok u t =>
      dsimp only
      cases hsnap : getLiquidationRiskSnapshot victim m t with
      | error e => exact .last hattempts hsize
      | ok snap =>
        dsimp only
        split
        · exact .last hattempts hsize
        rename_i hopen
        split
        · exact .last hattempts hsize
        rename_i hterminal
        exact .filled hattempts hsize hrun hsnap hopen (Bool.not_eq_false _ ▸ hterminal) (ihok t snap)

namespace Walk

variable {long ask : Bool} {cands : List ADLCandidate} {attempts zp : ℕ} {remaining : ℤ}
  {calls : List EngineCall}

theorem sublist (h : Walk victim m long ask cands attempts zp remaining s calls) :
    (calls.map (·.candidate)).Sublist cands := by
  induction h with
  | stop => exact List.nil_sublist _
  | skip _ ih => exact ih.cons _
  | last _ _ => exact (List.nil_sublist _).cons_cons _
  | failed _ _ _ _ _ ih => exact ih.cons_cons _
  | filled _ _ _ _ _ _ _ ih => exact ih.cons_cons _

theorem fills_le (h : Walk victim m long ask cands attempts zp remaining s calls) :
    (fillsOf calls).length ≤ attempts := by
  induction h with
  | stop => exact Nat.zero_le _
  | skip _ ih => exact ih
  | last hattempts _ =>
    exact (List.length_filter_le _ _).trans (Nat.one_le_iff_ne_zero.mpr hattempts)
  | failed _ _ _ hrun _ ih =>
    rwa [fillsOf, List.filter_cons_of_neg (EngineCall.committed_of_error hrun)]
  | filled hattempts _ hrun _ _ _ _ ih =>
    rw [fillsOf, List.filter_cons_of_pos (EngineCall.committed_of_ok hrun), List.length_cons]
    exact Nat.add_le_of_le_sub (Nat.one_le_iff_ne_zero.mpr hattempts) ih

end Walk

/-! ### The calls are the run -/

/-- A run that ends as `r` has made exactly these calls, and has paid for the fills among them. -/
def PaidFor (attempts : ℕ) (s : State) (calls : List EngineCall) :
    EStateM.Result Err State (ℕ × Except Err Unit) → Prop
  | .ok r t => Replays s calls t ∧ r.1 + (fillsOf calls).length = attempts
  | .error _ t => Replays s calls t

namespace PaidFor

variable {attempts : ℕ} {call : EngineCall} {calls : List EngineCall}
  {r : EStateM.Result Err State (ℕ × Except Err Unit)}

theorem failed {e : Err} (hrun : (applyPerpsMatching call.fill).run call.before = .error e t)
    (h : PaidFor attempts t calls r) : PaidFor attempts call.before (call :: calls) r := by
  have hafter : call.after = t := after_of_error hrun
  have hfills : fillsOf (call :: calls) = fillsOf calls :=
    List.filter_cons_of_neg (EngineCall.committed_of_error hrun)
  cases r with
  | ok r u => exact ⟨⟨rfl, hafter ▸ h.1⟩, hfills ▸ h.2⟩
  | error e u => exact ⟨rfl, hafter ▸ h⟩

theorem filled {u : Unit} (hattempts : attempts ≠ 0)
    (hrun : (applyPerpsMatching call.fill).run call.before = .ok u t)
    (h : PaidFor (attempts - 1) t calls r) : PaidFor attempts call.before (call :: calls) r := by
  have hafter : call.after = t := after_of_ok hrun
  have hfills : (fillsOf (call :: calls)).length = (fillsOf calls).length + 1 := by
    rw [fillsOf, List.filter_cons_of_pos (EngineCall.committed_of_ok hrun), List.length_cons, fillsOf]
  cases r with
  | ok r u =>
    refine ⟨⟨rfl, hafter ▸ h.1⟩, ?_⟩
    have hpaid := h.2
    omega
  | error e u => exact ⟨rfl, hafter ▸ h⟩

end PaidFor

theorem run_bind_uint64Of {α : Type} {x : ℤ} {f : ℕ → Tx α} (hx : 0 ≤ x ∧ x ≤ maxUint64) :
    (uint64Of x >>= f).run s = (f x.toNat).run s := by
  rw [EStateM.run_bind, uint64Of, EStateM.run_bind, run_require, if_pos hx]
  rfl

theorem adlLoop_paidFor (long ask : Bool) (cands : List ADLCandidate) (attempts zp : ℕ)
    (remaining : ℤ) (s : State) :
    PaidFor attempts s (adlLoopCalls victim m long ask cands attempts zp remaining s)
      ((adlLoop victim m long ask cands attempts zp remaining).run s) := by
  fun_induction adlLoopCalls victim m long ask cands attempts zp remaining s with
  | case1 => exact ⟨rfl, rfl⟩
  | case2 c cands attempts zp remaining s hstop =>
    rw [adlLoop, if_pos hstop]
    exact ⟨rfl, rfl⟩
  | case3 c cands attempts zp remaining s hgoes hapart ih =>
    rwa [adlLoop, if_neg hgoes, if_pos hapart]
  | case4 c cands attempts zp remaining s hgoes hmeet hsize ih =>
    rw [adlLoop, if_neg hgoes, if_neg hmeet]
    dsimp only
    rwa [if_pos hsize]
  | case5 c cands attempts zp remaining s hgoes hmeet hsize hword =>
    rw [adlLoop, if_neg hgoes, if_neg hmeet]
    dsimp only
    rw [if_neg hsize, EStateM.run_bind, uint64Of, EStateM.run_bind, run_require,
      if_neg fun h => hword h.2]
    rfl
  | case6 c cands attempts zp remaining s hgoes hmeet hsize hword call iherror ihok =>
    have hattempts : attempts ≠ 0 := fun h => hgoes (.inl h)
    have hsize' := not_not.mp hsize
    rw [adlLoop, if_neg hgoes, if_neg hmeet]
    dsimp only
    rw [if_neg hsize, run_bind_uint64Of ⟨hsize'.le, not_not.mp hword⟩, logged, run_bind_attempt]
    have hfill : (applyPerpsMatching (adlFill victim c.accountIndex m
        (zeroPriceMid zp c.zeroPrice (!long)) (min |c.positionSize| remaining).toNat ask)).run s
          = (applyPerpsMatching call.fill).run s := rfl
    rw [hfill]
    cases hrun : (applyPerpsMatching call.fill).run s with
    | error e t =>
      dsimp only
      cases hvalue : e.isValue with
      | true => exact (iherror t).failed hrun
      | false => exact ⟨rfl, (after_of_error hrun).symm⟩
    | ok u t =>
      dsimp only
      rw [run_bind_read]
      dsimp only
      cases hsnap : getLiquidationRiskSnapshot victim m t with
      | error e => exact .filled hattempts hrun ⟨rfl, rfl⟩
      | ok snap =>
        dsimp only
        by_cases hclosed : snap.position.baseSize = 0
        · rw [if_pos hclosed, if_pos hclosed]
          exact .filled hattempts hrun ⟨rfl, rfl⟩
        rw [if_neg hclosed, if_neg hclosed]
        by_cases hhealthy : snap.risk.healthStatus.isTerminal = false
        · rw [if_pos hhealthy, if_pos hhealthy]
          exact .filled hattempts hrun ⟨rfl, rfl⟩
        rw [if_neg hhealthy, if_neg hhealthy]
        exact .filled hattempts hrun (ihok t snap)

/-- **The run of `autoADL` is its engine calls**, one after the other, and each fill among them has
taken one from the budget. -/
theorem autoADL_paidFor (victim m candCap attempts : ℕ) (s : State) :
    PaidFor attempts s (autoADLCalls victim m candCap attempts s)
      ((autoADL victim m candCap attempts).run s) := by
  rw [autoADL, autoADLCalls]
  by_cases hattempts : attempts = 0
  · rw [if_pos hattempts, if_pos hattempts]
    exact ⟨rfl, rfl⟩
  rw [if_neg hattempts, if_neg hattempts, run_bind_read]
  dsimp only
  cases hsnap : getLiquidationRiskSnapshot victim m s with
  | error e => exact ⟨rfl, rfl⟩
  | ok snap =>
    dsimp only
    by_cases hclosed : snap.position.baseSize = 0
    · rw [if_pos hclosed, if_pos hclosed]
      exact ⟨rfl, rfl⟩
    rw [if_neg hclosed, if_neg hclosed]
    by_cases hhealthy : snap.risk.healthStatus.isTerminal = false
    · rw [if_pos hhealthy, if_pos hhealthy]
      exact ⟨rfl, rfl⟩
    rw [if_neg hhealthy, if_neg hhealthy, run_bind_read]
    exact adlLoop_paidFor _ _ _ _ _ _ s

/-! ### The queue -/

/-- A size on the long or on the short side. -/
def OnSide (long : Bool) (x : ℤ) : Prop := if long then 0 < x else x < 0

/-- The account is a user's: not the treasury, not the insurance fund's operator and not a pool. -/
def IsUser (s : State) (idx : ℕ) : Prop :=
  idx ≠ treasuryAccountIndex ∧ idx ≠ insuranceFundOperatorAccountIdx ∧
    ∀ a, s.account.accounts.get idx = some a → a.isPoolType = false

/-- The candidate is a user who holds what the queue says, on the given side. -/
structure Standing (m : ℕ) (long : Bool) (s : State) (c : ADLCandidate) : Prop where
  size : (getPosition s c.accountIndex m).baseSize = c.positionSize
  side : OnSide long c.positionSize
  user : IsUser s c.accountIndex

theorem adlCandidateOf_standing {long : Bool} {a : Account} {c : ADLCandidate}
    (ha : a ∈ accountsOf s) (h : adlCandidateOf s m long a = some c) :
    c.accountIndex = a.accountIndex ∧ Standing m long s c := by
  unfold adlCandidateOf at h
  split at h
  · cases h
  rename_i huser
  simp only [not_or] at huser
  cases hsnap : getLiquidationRiskSnapshot a.accountIndex m s with
  | error e =>
    rw [hsnap] at h
    cases h
  | ok snap =>
    rw [hsnap] at h
    dsimp only at h
    split at h
    · cases h
    rename_i hopen
    split at h
    · cases h
    rename_i hside
    split at h
    · cases h
    cases h
    refine ⟨rfl, ?_, ?_, huser.1, huser.2.1, fun b hb => ?_⟩
    · exact congrArg (·.baseSize) (getLiquidationRiskSnapshot_position hsnap).symm
    · have hlong : snap.position.isLong = long := not_not.mp hside
      subst hlong
      dsimp only [OnSide, AccountPosition.isLong]
      by_cases hneg : snap.position.baseSize < 0
      · simp [hneg]
      · simp [hneg]
        omega
    · cases (Table.mem_toList_iff.mp ha).symm.trans hb
      exact Bool.eq_false_iff.mpr huser.2.2

theorem buildADLQueue_standing {long : Bool} {limit : ℕ} {c : ADLCandidate}
    (h : c ∈ buildADLQueue m long limit s) : Standing m long s c := by
  have hmem := (List.perm_insertionSort _ _).mem_iff.mp (List.mem_of_mem_take h)
  obtain ⟨a, ha, hc⟩ := List.mem_filterMap.mp hmem
  exact (adlCandidateOf_standing ha hc).2

theorem buildADLQueue_nodup (m : ℕ) (long : Bool) (limit : ℕ) (s : State) :
    ((buildADLQueue m long limit s).map (·.accountIndex)).Nodup := by
  refine ((List.take_sublist _ _).map _).nodup ?_
  refine ((List.perm_insertionSort _ _).map _).nodup_iff.mpr ?_
  refine List.pairwise_map.mpr (List.pairwise_filterMap.mpr ?_)
  refine (List.pairwise_map.mp s.account.accounts.nodup_keys).imp_of_mem ?_
  intro a b ha hb hne c hc c' hc' heq
  rw [(adlCandidateOf_standing ha hc).1, (adlCandidateOf_standing hb hc').1] at heq
  exact hne heq

/-! ### What a fill may do -/

/-- The victim is up for deleveraging, with this zero price and this much left to close. -/
structure Distressed (victim m : ℕ) (long : Bool) (zp : ℕ) (remaining : ℤ) (s : State) : Prop where
  snapshot : ∃ snap, getLiquidationRiskSnapshot victim m s = .ok snap ∧ snap.zeroPrice = zp ∧
    snap.risk.healthStatus.isTerminal = true
  size : |(getPosition s victim m).baseSize| = remaining
  /-- Counterparties on the `long` side close a victim on the other. -/
  side : OnSide (!long) (getPosition s victim m).baseSize

/-- What a fill of automatic deleveraging is allowed to do. -/
structure Confined (victim m : ℕ) (call : EngineCall) : Prop where
  market : call.fill.marketIndex = m
  maker : call.fill.makerAccountIndex = victim
  taker : call.fill.takerAccountIndex = call.candidate.accountIndex
  /-- The victim is in full liquidation or bankrupt, and the price is between its zero price and the
  one the candidate was queued with. -/
  priced : ∃ snap, getLiquidationRiskSnapshot victim m call.before = .ok snap ∧
    (snap.risk.healthStatus = .fullLiquidation ∨ snap.risk.healthStatus = .bankruptcy) ∧
    call.fill.price ∈ Set.uIcc snap.zeroPrice call.candidate.zeroPrice
  victimReduced : Reduced (getPosition call.before victim m).baseSize
    (getPosition call.after victim m).baseSize
  candidateReduced : Reduced (getPosition call.before call.candidate.accountIndex m).baseSize
    (getPosition call.after call.candidate.accountIndex m).baseSize
  user : IsUser call.before call.candidate.accountIndex

theorem zeroPriceMid_mem_uIcc (a b : ℕ) (victimIsLong : Bool) :
    zeroPriceMid a b victimIsLong ∈ Set.uIcc a b := by
  rw [Set.mem_uIcc, zeroPriceMid]
  split
  · omega
  · omega

theorem reduced_of_onSide {long : Bool} {x y base : ℤ} (hx : OnSide (!long) x) (hy : OnSide long y)
    (hbase : 0 < base) (hlex : base ≤ |x|) (hley : base ≤ |y|) :
    Reduced x (x + if long then base else -base) ∧ Reduced y (y - if long then base else -base) := by
  cases long with
  | true =>
    simp only [OnSide, Bool.not_true, Bool.false_eq_true, if_false, if_true] at hx hy ⊢
    rw [abs_of_neg hx] at hlex
    rw [abs_of_pos hy] at hley
    exact ⟨reduced_of_nonpos (by omega) (by omega), reduced_of_nonneg (by omega) (by omega)⟩
  | false =>
    simp only [OnSide, Bool.not_false, Bool.false_eq_true, if_false, if_true] at hx hy ⊢
    rw [abs_of_pos hx] at hlex
    rw [abs_of_neg hy] at hley
    exact ⟨reduced_of_nonneg (by omega) (by omega), reduced_of_nonpos (by omega) (by omega)⟩

section Step

variable {long : Bool} {zp : ℕ} {remaining : ℤ} {c c' : ADLCandidate}

theorem Distressed.ne (hv : Distressed victim m long zp remaining s) (hc : Standing m long s c) :
    victim ≠ c.accountIndex := by
  rintro rfl
  have hvictim := hv.side
  rw [hc.size] at hvictim
  have hside := hc.side
  cases long <;> simp [OnSide] at hvictim hside <;> omega

theorem adlCall_sizes (hne : victim ≠ c.accountIndex)
    (hsize : 0 < min |c.positionSize| remaining)
    (hrun : (applyPerpsMatching (adlCall victim m long long zp remaining s c).fill).run s = .ok () t) :
    let delta := if long then min |c.positionSize| remaining else -min |c.positionSize| remaining
    (getPosition t victim m).baseSize = (getPosition s victim m).baseSize + delta ∧
    (getPosition t c.accountIndex m).baseSize = (getPosition s c.accountIndex m).baseSize - delta ∧
    (∀ a, a ≠ victim → a ≠ c.accountIndex →
      (getPosition t a m).baseSize = (getPosition s a m).baseSize) ∧
    ∀ a, IsUser s a → IsUser t a := by
  obtain ⟨d, ct, alt, cm, alm, heffect, -⟩ := apply_ok hne hrun
  set f := (adlCall victim m long long zp remaining s c).fill with hf
  have hdelta : (f.baseAmount : ℤ) * f.makerSign
      = if long then min |c.positionSize| remaining else -min |c.positionSize| remaining := by
    have hbase : (f.baseAmount : ℤ) = min |c.positionSize| remaining := Int.toNat_of_nonneg hsize.le
    rw [hbase, Fill.makerSign]
    cases long
    · exact mul_neg_one _
    · exact mul_one _
  obtain ⟨hmaker, htaker⟩ := apply_baseSize hne hrun
  rw [hdelta] at hmaker htaker
  refine ⟨hmaker, htaker, fun a hvictim hcand => ?_, fun a huser =>
    ⟨huser.1, huser.2.1, fun b hb => ?_⟩⟩
  · exact (heffect.baseSize a m).trans ((if_pos rfl).trans ((if_neg hvictim).trans (if_neg hcand)))
  · rw [heffect.account, Option.map_eq_some_iff] at hb
    obtain ⟨b', hb', rfl⟩ := hb
    exact huser.2.2 b' hb'

theorem adlCall_reduces (hv : Distressed victim m long zp remaining s) (hc : Standing m long s c)
    (hsize : 0 < min |c.positionSize| remaining)
    (hrun : (applyPerpsMatching (adlCall victim m long long zp remaining s c).fill).run s = .ok () t) :
    Reduced (getPosition s victim m).baseSize (getPosition t victim m).baseSize ∧
    Reduced (getPosition s c.accountIndex m).baseSize (getPosition t c.accountIndex m).baseSize := by
  obtain ⟨hvictim, hcand, -⟩ := adlCall_sizes (hv.ne hc) hsize hrun
  rw [hvictim, hcand, hc.size]
  exact reduced_of_onSide hv.side hc.side hsize (hv.size ▸ min_le_right _ _) (min_le_left _ _)

theorem Standing.filled (hv : Distressed victim m long zp remaining s) (hc : Standing m long s c)
    (hsize : 0 < min |c.positionSize| remaining)
    (hrun : (applyPerpsMatching (adlCall victim m long long zp remaining s c).fill).run s = .ok () t)
    (hne : c'.accountIndex ≠ c.accountIndex) (hc' : Standing m long s c') : Standing m long t c' := by
  obtain ⟨-, -, hothers, huser⟩ := adlCall_sizes (hv.ne hc) hsize hrun
  exact ⟨(hothers _ (hv.ne hc').symm hne).trans hc'.size, hc'.side, huser _ hc'.user⟩

theorem Distressed.filled {snap : LiquidationRiskSnapshot}
    (hv : Distressed victim m long zp remaining s) (hc : Standing m long s c)
    (hsize : 0 < min |c.positionSize| remaining)
    (hrun : (applyPerpsMatching (adlCall victim m long long zp remaining s c).fill).run s = .ok () t)
    (hsnap : getLiquidationRiskSnapshot victim m t = .ok snap) (hopen : snap.position.baseSize ≠ 0)
    (hterminal : snap.risk.healthStatus.isTerminal = true) :
    Distressed victim m long snap.zeroPrice |snap.position.baseSize| t := by
  have hpos := getLiquidationRiskSnapshot_position hsnap
  refine ⟨⟨snap, hsnap, rfl, hterminal⟩, by rw [hpos], ?_⟩
  rw [hpos] at hopen
  have hsame := (adlCall_reduces hv hc hsize hrun).1.2.resolve_left hopen
  have hside := hv.side
  cases long with
  | true => exact neg_of_mul_pos_right hsame (le_of_lt hside)
  | false => exact pos_of_mul_pos_right hsame (le_of_lt hside)

theorem adlCall_confined (hv : Distressed victim m long zp remaining s) (hc : Standing m long s c)
    (hsize : 0 < min |c.positionSize| remaining)
    (hcommitted : (adlCall victim m long long zp remaining s c).committed = true) :
    Confined victim m (adlCall victim m long long zp remaining s c) := by
  obtain ⟨hvictim, hcand⟩ := adlCall_reduces hv hc hsize (run_of_succeeds hcommitted)
  obtain ⟨snap, hsnap, hzp, hterminal⟩ := hv.snapshot
  refine ⟨rfl, rfl, rfl, ⟨snap, hsnap, ?_, ?_⟩, hvictim, hcand, hc.user⟩
  · simpa [Health.isTerminal] using hterminal
  · rw [hzp]
    exact zeroPriceMid_mem_uIcc zp c.zeroPrice _

end Step

/-- **The run of the walk.**  What it knows of the victim is fresh, what it knows of the candidates
ahead still holds, so all its fills are confined. -/
theorem Walk.confined {long : Bool} {cands : List ADLCandidate} {attempts zp : ℕ} {remaining : ℤ}
    {calls : List EngineCall} (h : Walk victim m long long cands attempts zp remaining s calls)
    (hv : Distressed victim m long zp remaining s) (hc : ∀ c ∈ cands, Standing m long s c)
    (hdistinct : (cands.map (·.accountIndex)).Nodup) (hclean : ∀ call ∈ calls, call.FailsCleanly) :
    ∀ call ∈ calls, call.committed = true → Confined victim m call := by
  induction h with
  | stop => exact fun call hcall => absurd hcall List.not_mem_nil
  | skip _ ih =>
    exact ih hv (fun c hmem => hc c (List.mem_cons_of_mem _ hmem)) (List.nodup_cons.mp hdistinct).2
      hclean
  | last _ hsize =>
    intro call hcall
    obtain rfl := List.mem_singleton.mp hcall
    exact adlCall_confined hv (hc _ List.mem_cons_self) hsize
  | failed _ hsize hvalue hrun _ ih =>
    obtain ⟨hhead, htail⟩ := List.forall_mem_cons.mp hclean
    obtain rfl := hhead _ _ hvalue hrun
    refine List.forall_mem_cons.mpr ⟨adlCall_confined hv (hc _ List.mem_cons_self) hsize, ?_⟩
    exact ih hv (fun c hmem => hc c (List.mem_cons_of_mem _ hmem)) (List.nodup_cons.mp hdistinct).2
      htail
  | filled _ hsize hrun hsnap hopen hterminal _ ih =>
    obtain ⟨hnot, hdistinct⟩ := List.nodup_cons.mp hdistinct
    have hstands := hc _ List.mem_cons_self
    refine List.forall_mem_cons.mpr ⟨adlCall_confined hv hstands hsize, ?_⟩
    refine ih (hv.filled hstands hsize hrun hsnap hopen hterminal) (fun c' hmem => ?_) hdistinct
      (List.forall_mem_cons.mp hclean).2
    refine .filled hv hstands hsize hrun (fun heq => hnot ?_) (hc c' (List.mem_cons_of_mem _ hmem))
    exact List.mem_map.mpr ⟨c', hmem, heq⟩

/-! ### Automatic deleveraging -/

theorem autoADLCalls_walk (victim m candCap attempts : ℕ) (s : State) :
    autoADLCalls victim m candCap attempts s = [] ∨
      ∃ zp remaining, let long := (getPosition s victim m).isShort
        Distressed victim m long zp remaining s ∧
        Walk victim m long long (buildADLQueue m long candCap s) attempts zp remaining s
          (autoADLCalls victim m candCap attempts s) := by
  rw [autoADLCalls]
  split
  · exact .inl rfl
  cases hsnap : getLiquidationRiskSnapshot victim m s with
  | error e => exact .inl rfl
  | ok snap =>
    dsimp only
    rw [getLiquidationRiskSnapshot_position hsnap]
    split
    · exact .inl rfl
    rename_i hopen
    split
    · exact .inl rfl
    rename_i hterminal
    refine .inr ⟨_, _, ⟨⟨snap, hsnap, rfl, Bool.not_eq_false _ ▸ hterminal⟩, rfl, ?_⟩,
      adlLoopCalls_walk _ _ _ _ _ _ s⟩
    unfold OnSide AccountPosition.isShort
    by_cases hneg : (getPosition s victim m).baseSize < 0
    · simp [hneg]
    · simp only [hneg, decide_false, Bool.not_false, if_true]
      omega

/-- **Automatic deleveraging is confined.**  In a run in which engine calls that fail leave the state
alone, every fill is with a candidate of the queue, at a price between the victim's zero price of that
moment and the one the candidate was queued with, while the victim is in full liquidation or bankrupt;
it reduces both sides, and its counterparty is neither the treasury nor the operator of the insurance
fund nor a pool.  No candidate is filled twice, and neither the budget nor the cap is exceeded. -/
theorem auto_deleveraging_confined (victim m candCap attempts : ℕ) (s : State)
    (hclean : ∀ call ∈ autoADLCalls victim m candCap attempts s, call.FailsCleanly) :
    let calls := autoADLCalls victim m candCap attempts s
    PaidFor attempts s calls ((autoADL victim m candCap attempts).run s) ∧
    (∀ call ∈ fillsOf calls, Confined victim m call ∧
      call.candidate ∈ buildADLQueue m (getPosition s victim m).isShort candCap s) ∧
    ((fillsOf calls).map (·.candidate.accountIndex)).Nodup ∧
    (fillsOf calls).length ≤ attempts ∧ (fillsOf calls).length ≤ candCap := by
  intro calls
  refine ⟨autoADL_paidFor victim m candCap attempts s, ?_⟩
  rcases autoADLCalls_walk victim m candCap attempts s with hnone | ⟨zp, remaining, hv, hwalk⟩
  · rw [show calls = [] from hnone]
    exact ⟨fun call hcall => absurd hcall List.not_mem_nil, List.nodup_nil, Nat.zero_le _,
      Nat.zero_le _⟩
  have hqueue := buildADLQueue_nodup m (getPosition s victim m).isShort candCap s
  have hsub : ((fillsOf calls).map (·.candidate)).Sublist
      (buildADLQueue m (getPosition s victim m).isShort candCap s) :=
    (List.filter_sublist.map _).trans hwalk.sublist
  refine ⟨fun call hcall => ?_, ?_, hwalk.fills_le, ?_⟩
  · obtain ⟨hmem, hcommitted⟩ := List.mem_filter.mp hcall
    exact ⟨hwalk.confined hv (fun c hc => buildADLQueue_standing hc) hqueue hclean call hmem hcommitted,
      hsub.subset (List.mem_map_of_mem hcall)⟩
  · have hnodup := (hsub.map (·.accountIndex)).nodup hqueue
    rwa [List.map_map] at hnodup
  · have hlength := hsub.length_le
    rw [List.length_map] at hlength
    exact hlength.trans (List.length_take_le _ _)

/-- A public pool is long at a loss it cannot cover, and accounts 2 and 3 are short against it. -/
def sunkPool : State where
  account := {
    accounts := Table.ofRows [{ accountIndex := 2 }, { accountIndex := 3 },
      { accountIndex := 4, accountType := .publicPool, publicPoolInfo := some {} }]
    accountPositions := Table.ofRows [
      { accountIndex := 2, marketIndex := 0, baseSize := -4, entryQuote := -600 },
      { accountIndex := 3, marketIndex := 0, baseSize := -6, entryQuote := -900 },
      { accountIndex := 4, marketIndex := 0, baseSize := 10, entryQuote := 1500 }] }
  market := { marketDetails := Table.ofRows [{
    marketIndex := 0
    markPrice := 100
    openInterest := 10
    defaultInitialMarginFraction := 1000
    maintenanceMarginFraction := 600
    closeOutMarginFraction := 400 }] }

theorem sunkPool_failsCleanly (call : EngineCall) (hcall : call ∈ autoADLCalls 4 0 16 5 sunkPool) :
    call.FailsCleanly := by
  intro e t _ hrun
  have hall : (autoADLCalls 4 0 16 5 sunkPool).all (·.committed) = true := by decide +kernel
  exact absurd (List.all_eq_true.mp hall call hcall) (EngineCall.committed_of_error hrun)

theorem auto_deleveraging_confined_sunkPool :
    (fillsOf (autoADLCalls 4 0 16 5 sunkPool)).map (·.candidate.accountIndex) = [3, 2] ∧
    ∀ call ∈ fillsOf (autoADLCalls 4 0 16 5 sunkPool), Confined 4 0 call :=
  ⟨by decide +kernel, fun call hcall =>
    ((auto_deleveraging_confined 4 0 16 5 sunkPool sunkPool_failsCleanly).2.1 call hcall).1⟩

/-- The victim can be a pool: here `autoADL` closes the position of one against users. -/
theorem pool_deleveraged_as_victim :
    (∀ call ∈ autoADLCalls 4 0 16 5 sunkPool, call.FailsCleanly) ∧
    ∃ call ∈ fillsOf (autoADLCalls 4 0 16 5 sunkPool),
      ¬ IsUser call.before call.fill.makerAccountIndex := by
  refine ⟨sunkPool_failsCleanly, ?_⟩
  have hany : (autoADLCalls 4 0 16 5 sunkPool).any (fun call => call.committed &&
      (call.before.account.accounts.get call.fill.makerAccountIndex).any (·.isPoolType)) = true := by
    decide +kernel
  obtain ⟨call, hcall, hpool⟩ := List.any_eq_true.mp hany
  obtain ⟨hcommitted, hpool⟩ := Bool.and_eq_true_iff.mp hpool
  refine ⟨call, List.mem_filter.mpr ⟨hcall, hcommitted⟩, fun huser => ?_⟩
  cases ha : call.before.account.accounts.get call.fill.makerAccountIndex with
  | none =>
    rw [ha] at hpool
    exact Bool.false_ne_true hpool
  | some a =>
    rw [ha] at hpool
    exact Bool.false_ne_true ((huser.2.2 a ha).symm.trans hpool)

end PerpDex
