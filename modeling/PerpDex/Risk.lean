/-
The risk keeper (`x/risk`): cross and isolated requirements, health, and the gate that compares an
account's risk before and after a change.

* `classifyChange`, `snapshotRisk`, `isValidRiskChangeFrom` — the change gate.

Main result: `computeCrossRisk_eq_ok`.

The walk over the position rows is a fold over `positionsOf`.  Sums over the whole table, restricted to
one account by the summand, are what proofs work with: they move by one term when one position moves.
-/
import PerpDex.Funding
import PerpDex.PositionMath

namespace PerpDex

variable {acc m : ℕ} {s t : State} {p : AccountPosition} {rp : RiskParameters}

structure RiskParameters where
  collateral : ℤ := 0
  collateralWithFunding : ℤ := 0
  totalAccountValue : ℤ := 0
  initialMarginRequirement : ℤ := 0
  maintenanceMarginRequirement : ℤ := 0
  closeOutMarginRequirement : ℤ := 0
deriving DecidableEq, Repr

def RiskParameters.healthStatus (p : RiskParameters) : Health :=
  if p.totalAccountValue < 0 then .bankruptcy
  else if p.totalAccountValue < p.closeOutMarginRequirement then .fullLiquidation
  else if p.totalAccountValue < p.maintenanceMarginRequirement then .partialLiquidation
  else if p.totalAccountValue < p.initialMarginRequirement then .preLiquidation
  else .healthy

/-- Prefix the text of an error. -/
def Err.wrap (e : Err) (text : String) : Err :=
  { e with detail := if e.detail = "" then text else text ++ ": " ++ e.detail }

/-! ### Aggregates -/

/-- Add one position to the cross aggregate; empty and isolated positions do not count. -/
def addCrossPosition (accountIdx : ℕ) (s : State) (rp : RiskParameters) (pos : AccountPosition) :
    Except Err RiskParameters :=
  if pos.baseSize = 0 then .ok rp
  else if pos.marginMode = .isolated then .ok rp
  else
    match getMarkPriceAndDetails pos.marketIndex s with
    | .error e => .error (e.wrap s!"account={accountIdx}")
    | .ok (markPrice, md) => .ok { rp with
        initialMarginRequirement := rp.initialMarginRequirement + pos.initialMargin markPrice md
        maintenanceMarginRequirement :=
          rp.maintenanceMarginRequirement + pos.maintenanceMargin markPrice md
        closeOutMarginRequirement :=
          rp.closeOutMarginRequirement + pos.closeOutMargin markPrice md
        totalAccountValue := rp.totalAccountValue + pos.unrealizedPnL markPrice }

def computeCrossRisk (accountIdx : ℕ) : Query RiskParameters := fun s => do
  let a ← getAccount accountIdx s
  let cross : RiskParameters := {
    collateral := a.collateral
    collateralWithFunding := a.collateral
    totalAccountValue := a.collateral }
  (positionsOf s accountIdx).foldlM (addCrossPosition accountIdx s) cross

def computeIsolatedRisk (accountIdx marketIdx : ℕ) : Query RiskParameters := fun s => do
  let pos := getPosition s accountIdx marketIdx
  if pos.marginMode ≠ .isolated then throw ⟨.positionNotIsolated, ""⟩
  else do
    let (markPrice, md) ← getMarkPriceAndDetails marketIdx s
    return {
      collateral := pos.allocatedMargin
      collateralWithFunding := pos.allocatedMargin
      totalAccountValue := pos.allocatedMargin + pos.unrealizedPnL markPrice
      initialMarginRequirement := pos.initialMargin markPrice md
      maintenanceMarginRequirement := pos.maintenanceMargin markPrice md
      closeOutMarginRequirement := pos.closeOutMargin markPrice md }

def getHealthStatus (accountIdx : ℕ) : Query Health := fun s => do
  let rp ← computeCrossRisk accountIdx s
  return rp.healthStatus

def getTotalAccountValue (accountIdx : ℕ) : Query ℤ := fun s => do
  let rp ← computeCrossRisk accountIdx s
  return rp.totalAccountValue

def getAvailableCollateral (accountIdx : ℕ) : Query ℤ := fun s => do
  let rp ← computeCrossRisk accountIdx s
  return rp.totalAccountValue - rp.initialMarginRequirement

/-- Cross headroom that may be moved into isolated margin. -/
def getAvailableUsdcCollateral (accountIdx : ℕ) : Query ℤ := fun s => do
  let rp ← computeCrossRisk accountIdx s
  let avail := rp.totalAccountValue - rp.initialMarginRequirement
  if rp.healthStatus ≠ .healthy then return 0
  else if rp.collateralWithFunding < 0 then return 0
  else if avail < 0 then return 0
  else if avail > rp.collateralWithFunding then return rp.collateralWithFunding
  else return avail

def getIsolatedHealthStatus (accountIdx marketIdx : ℕ) : Query Health := fun s => do
  let pos := getPosition s accountIdx marketIdx
  if pos.baseSize = 0 ∨ pos.marginMode ≠ .isolated then return .healthy
  else do
    let rp ← computeIsolatedRisk accountIdx marketIdx s
    return rp.healthStatus

/-! ### The change gate -/

/-- Compare the risk before and after a change; `none` stands for a missing snapshot. -/
def classifyChange (pre : Option RiskParameters) (post : RiskParameters) : Bool :=
  let postClass := post.healthStatus
  if postClass = .healthy then true
  else
    match pre with
    | none => false
    | some pre =>
      let preClass := pre.healthStatus
      if postClass.rank > preClass.rank then false
      else if preClass = .preLiquidation then
        if post.maintenanceMarginRequirement > pre.maintenanceMarginRequirement then false
        else if pre.maintenanceMarginRequirement = 0 ∨ post.maintenanceMarginRequirement = 0 then
          true
        else
          !decide (post.totalAccountValue * pre.maintenanceMarginRequirement
            < pre.totalAccountValue * post.maintenanceMarginRequirement)
      else
        if post.initialMarginRequirement = 0 ∨ pre.initialMarginRequirement = 0 then true
        else
          !decide (post.totalAccountValue * pre.initialMarginRequirement
            < pre.totalAccountValue * post.initialMarginRequirement)

/-- Risk of an account before a change: the cross aggregate and, by market, the risk of every
open isolated position. -/
structure PreRiskSnapshot where
  cross : Option RiskParameters := none
  isolated : KVStore ℕ RiskParameters := KVStore.empty

def PreRiskSnapshot.isolatedFor (snap : PreRiskSnapshot) (marketIdx : ℕ) :
    Option RiskParameters := snap.isolated.get marketIdx

/-- Record the risk of one position if it is an open isolated one. -/
def addIsolatedRisk (accountIdx : ℕ) (s : State) (m : KVStore ℕ RiskParameters)
    (pos : AccountPosition) : Except Err (KVStore ℕ RiskParameters) :=
  if pos.baseSize = 0 ∨ pos.marginMode ≠ .isolated then .ok m
  else do
    let rp ← computeIsolatedRisk accountIdx pos.marketIndex s
    return m.set pos.marketIndex rp

def snapshotRisk (accountIdx : ℕ) : Query PreRiskSnapshot := fun s => do
  let cross ← computeCrossRisk accountIdx s
  let isolated ← (positionsOf s accountIdx).foldlM (addIsolatedRisk accountIdx s) KVStore.empty
  return { cross := some cross, isolated := isolated }

/-- Whether every open isolated position in the list passes the gate. -/
def isolatedChangesValid (accountIdx : ℕ) (pre : PreRiskSnapshot) (s : State) :
    List AccountPosition → Except Err Bool
  | [] => .ok true
  | pos :: rest =>
    if pos.baseSize = 0 ∨ pos.marginMode ≠ .isolated then
      isolatedChangesValid accountIdx pre s rest
    else do
      let post ← computeIsolatedRisk accountIdx pos.marketIndex s
      if classifyChange (pre.isolatedFor pos.marketIndex) post then
        isolatedChangesValid accountIdx pre s rest
      else return false

def isValidRiskChangeFrom (accountIdx : ℕ) (pre : PreRiskSnapshot) : Query Bool := fun s => do
  let post ← computeCrossRisk accountIdx s
  if classifyChange pre.cross post then
    isolatedChangesValid accountIdx pre s (positionsOf s accountIdx)
  else return false

def requireRiskOKFrom (accountIdx : ℕ) (pre : PreRiskSnapshot) : Query Unit := fun s => do
  if ← isValidRiskChangeFrom accountIdx pre s then return ()
  else throw ⟨.riskRegression, ""⟩

/-! ### Cross risk as sums over positions -/

/-- The stored details of a market; zero details if there are none. -/
def detailsOf (s : State) (m : ℕ) : MarketDetails :=
  (s.market.marketDetails.get m).getD { marketIndex := m }

/-- An open position that counts towards the cross aggregate. -/
def AccountPosition.IsCrossOpen (p : AccountPosition) : Prop :=
  p.baseSize ≠ 0 ∧ p.marginMode ≠ .isolated

instance (p : AccountPosition) : Decidable p.IsCrossOpen := by
  unfold AccountPosition.IsCrossOpen
  infer_instance

/-- What a position contributes to an aggregate of account `acc`. -/
def crossTerm (s : State) (acc : ℕ) (f : MarketDetails → AccountPosition → ℤ)
    (p : AccountPosition) : ℤ :=
  if p.accountIndex = acc ∧ p.IsCrossOpen then f (detailsOf s p.marketIndex).static p else 0

/-- Sum of `f` over the open cross positions of an account. -/
def crossSum (s : State) (acc : ℕ) (f : MarketDetails → AccountPosition → ℤ) : ℤ :=
  s.account.accountPositions.sum (crossTerm s acc f)

def uPnLAt (d : MarketDetails) (p : AccountPosition) : ℤ := p.unrealizedPnL d.markPrice

def initialAt (d : MarketDetails) (p : AccountPosition) : ℤ := p.initialMargin d.markPrice d

def maintenanceAt (d : MarketDetails) (p : AccountPosition) : ℤ :=
  p.maintenanceMargin d.markPrice d

def closeOutAt (d : MarketDetails) (p : AccountPosition) : ℤ := p.closeOutMargin d.markPrice d

/-- The cross aggregate of an account with collateral `c`. -/
def crossRiskOf (s : State) (acc : ℕ) (c : ℤ) : RiskParameters where
  collateral := c
  collateralWithFunding := c
  totalAccountValue := c + crossSum s acc uPnLAt
  initialMarginRequirement := crossSum s acc initialAt
  maintenanceMarginRequirement := crossSum s acc maintenanceAt
  closeOutMarginRequirement := crossSum s acc closeOutAt

/-- Every market in which the account has an open cross position has a usable mark price. -/
def MarksOk (s : State) (acc : ℕ) : Prop :=
  ∀ m, (getPosition s acc m).IsCrossOpen → ∃ r, getMarkPriceAndDetails m s = .ok r

theorem getMarkPriceAndDetails_detailsOf {r : ℕ × MarketDetails}
    (h : getMarkPriceAndDetails m s = .ok r) : r = ((detailsOf s m).markPrice, detailsOf s m) := by
  obtain ⟨hd, hmark, -⟩ := getMarkPriceAndDetails_eq_ok.mp h
  have hdetails : detailsOf s m = r.2 := by
    rw [detailsOf, hd]
    rfl
  rw [hdetails, ← hmark]

/-- The aggregate with the given amounts added to value and requirements. -/
def RiskParameters.plus (rp : RiskParameters) (tav im mm cm : ℤ) : RiskParameters :=
  { rp with
    totalAccountValue := rp.totalAccountValue + tav
    initialMarginRequirement := rp.initialMarginRequirement + im
    maintenanceMarginRequirement := rp.maintenanceMarginRequirement + mm
    closeOutMarginRequirement := rp.closeOutMarginRequirement + cm }

theorem RiskParameters.plus_zero (rp : RiskParameters) : rp.plus 0 0 0 0 = rp := by
  simp [plus]

theorem RiskParameters.plus_plus (rp : RiskParameters) (tav im mm cm tav' im' mm' cm' : ℤ) :
    (rp.plus tav im mm cm).plus tav' im' mm' cm'
      = rp.plus (tav + tav') (im + im') (mm + mm') (cm + cm') := by
  simp only [plus, add_assoc]

theorem addCrossPosition_eq_ok {pos : AccountPosition}
    (hacc : pos.accountIndex = acc) (rp rp' : RiskParameters) :
    addCrossPosition acc s rp pos = .ok rp' ↔
      (pos.IsCrossOpen → ∃ r, getMarkPriceAndDetails pos.marketIndex s = .ok r) ∧
      rp' = rp.plus (crossTerm s acc uPnLAt pos) (crossTerm s acc initialAt pos)
        (crossTerm s acc maintenanceAt pos) (crossTerm s acc closeOutAt pos) := by
  by_cases hopen : pos.IsCrossOpen
  · have hterm : ∀ f, crossTerm s acc f pos = f (detailsOf s pos.marketIndex).static pos :=
      fun f => if_pos ⟨hacc, hopen⟩
    simp only [addCrossPosition, hopen.1, hopen.2, if_false, hterm, hopen, true_imp_iff]
    rcases hmark : getMarkPriceAndDetails pos.marketIndex s with e | r
    · simp
    · obtain rfl := getMarkPriceAndDetails_detailsOf hmark
      simp only [Except.ok.injEq, exists_eq', true_and]
      exact eq_comm
  · have hterm : ∀ f, crossTerm s acc f pos = 0 := fun f => if_neg fun h => hopen h.2
    have hskip : addCrossPosition acc s rp pos = .ok rp := by
      unfold addCrossPosition
      by_cases hsize : pos.baseSize = 0
      · rw [if_pos hsize]
      · have hiso : pos.marginMode = .isolated := by
          by_contra hne
          exact hopen ⟨hsize, hne⟩
        rw [if_neg hsize, if_pos hiso]
    simp only [hskip, hopen, false_imp_iff, true_and, hterm, RiskParameters.plus, add_zero,
      Except.ok.injEq]
    exact eq_comm

theorem foldlM_addCrossPosition (l : List AccountPosition)
    (hacc : ∀ p ∈ l, p.accountIndex = acc) (rp rp' : RiskParameters) :
    l.foldlM (addCrossPosition acc s) rp = .ok rp' ↔
      (∀ p ∈ l, p.IsCrossOpen → ∃ r, getMarkPriceAndDetails p.marketIndex s = .ok r) ∧
      rp' = rp.plus (l.map (crossTerm s acc uPnLAt)).sum (l.map (crossTerm s acc initialAt)).sum
        (l.map (crossTerm s acc maintenanceAt)).sum (l.map (crossTerm s acc closeOutAt)).sum := by
  induction l generalizing rp with
  | nil =>
    simp only [List.foldlM_nil, List.map_nil, List.sum_nil, List.not_mem_nil, false_imp_iff,
      forall_true_iff, true_and, RiskParameters.plus, add_zero]
    constructor
    · intro h
      exact (Except.ok.inj h).symm
    · rintro rfl
      rfl
  | cons pos rest ih =>
    have hpos := hacc pos List.mem_cons_self
    have ih := ih fun p hp => hacc p (List.mem_cons_of_mem _ hp)
    rw [List.foldlM_cons, Txn.except_bind_ok]
    simp only [addCrossPosition_eq_ok hpos, ih, List.forall_mem_cons, List.map_cons,
      List.sum_cons, and_assoc]
    constructor
    · rintro ⟨mid, hmark, rfl, hmarks, rfl⟩
      refine ⟨hmark, hmarks, ?_⟩
      simp only [RiskParameters.plus, add_assoc]
    · rintro ⟨hmark, hmarks, rfl⟩
      refine ⟨_, hmark, rfl, hmarks, ?_⟩
      simp only [RiskParameters.plus, add_assoc]

theorem mem_positionsOf :
    p ∈ positionsOf s acc ↔
      s.account.accountPositions.get p.key = some p ∧ p.accountIndex = acc := by
  rw [positionsOf, Table.mem_range]
  simp [AccountPosition.key]

theorem getPosition_of_get (h : s.account.accountPositions.get p.key = some p) :
    getPosition s p.accountIndex p.marketIndex = p := by
  show (s.account.accountPositions.get p.key).getD _ = p
  rw [h]
  rfl

theorem getPosition_mem_positionsOf
    (hsize : (getPosition s acc m).baseSize ≠ 0) : getPosition s acc m ∈ positionsOf s acc := by
  rcases hget : s.account.accountPositions.get (toLex (acc, m)) with _ | p
  · rw [getPosition, hget] at hsize
    exact absurd rfl hsize
  · have hp : getPosition s acc m = p := by
      rw [getPosition, hget]
      rfl
    have hkey : p.key = toLex (acc, m) := Table.key_of_get hget
    rw [hp, mem_positionsOf, hkey]
    exact ⟨hget, hp ▸ getPosition_accountIndex s acc m⟩

/-- **The cross aggregate** exists exactly when the account does and every market of an open cross
position has a usable mark price, and it is then given by sums over positions. -/
theorem computeCrossRisk_eq_ok :
    computeCrossRisk acc s = .ok rp ↔
      ∃ a, s.account.accounts.get acc = some a ∧ MarksOk s acc ∧
        rp = crossRiskOf s acc a.collateral := by
  have hlist : ∀ f, ((positionsOf s acc).map (crossTerm s acc f)).sum = crossSum s acc f := by
    intro f
    refine Table.sum_range_eq _ fun p hp => ?_
    have hne : p.accountIndex ≠ acc := by simpa [AccountPosition.key] using hp
    exact if_neg fun h => hne h.1
  have hmarks : (∀ p ∈ positionsOf s acc, p.IsCrossOpen →
      ∃ r, getMarkPriceAndDetails p.marketIndex s = .ok r) ↔ MarksOk s acc := by
    constructor
    · intro h m hopen
      have hmark := h _ (getPosition_mem_positionsOf hopen.1) hopen
      rwa [getPosition_marketIndex] at hmark
    · intro h p hp hopen
      obtain ⟨hrow, hacc⟩ := mem_positionsOf.mp hp
      refine h p.marketIndex ?_
      rw [← hacc, getPosition_of_get hrow]
      exact hopen
  rw [computeCrossRisk, Txn.except_bind_ok]
  simp only [foldlM_addCrossPosition _ (fun p hp => (mem_positionsOf.mp hp).2), hlist, hmarks]
  constructor
  · rintro ⟨a, ha, hok, rfl⟩
    refine ⟨a, getAccount_eq_ok.mp ha, hok, ?_⟩
    simp [RiskParameters.plus, crossRiskOf]
  · rintro ⟨a, ha, hok, rfl⟩
    refine ⟨a, getAccount_eq_ok.mpr ha, hok, ?_⟩
    simp [RiskParameters.plus, crossRiskOf]

/-- Every position of the account has a usable mark price, and the account exists. -/
structure SnapshotReadable (s : State) (acc : ℕ) : Prop where
  account : (s.account.accounts.get acc).isSome
  marks : ∀ m, (getPosition s acc m).baseSize ≠ 0 → ∃ r, getMarkPriceAndDetails m s = .ok r

theorem computeIsolatedRisk_ok_iff :
    (∃ rp, computeIsolatedRisk acc m s = .ok rp) ↔
      (getPosition s acc m).marginMode = .isolated ∧ ∃ r, getMarkPriceAndDetails m s = .ok r := by
  unfold computeIsolatedRisk
  by_cases hiso : (getPosition s acc m).marginMode = .isolated
  · simp only [hiso, ne_eq, not_true_eq_false, if_false, true_and]
    rcases hmark : getMarkPriceAndDetails m s with e | r
    · simp [bind, Except.bind]
    · simp [bind, Except.bind, pure, Except.pure]
  · simp [hiso, throw, throwThe, MonadExceptOf.throw]

theorem addIsolatedRisk_ok_iff (rps : KVStore ℕ RiskParameters)
    {pos : AccountPosition} (hpos : getPosition s acc pos.marketIndex = pos) :
    (∃ rps', addIsolatedRisk acc s rps pos = .ok rps') ↔
      (pos.baseSize ≠ 0 ∧ pos.marginMode = .isolated →
        ∃ r, getMarkPriceAndDetails pos.marketIndex s = .ok r) := by
  unfold addIsolatedRisk
  by_cases hskip : pos.baseSize = 0 ∨ pos.marginMode ≠ .isolated
  · rw [if_pos hskip]
    simp only [Except.ok.injEq, exists_eq', true_iff]
    rintro ⟨hsize, hiso⟩
    exact absurd hskip (by simp [hsize, hiso])
  · rw [if_neg hskip]
    push Not at hskip
    simp only [Txn.except_bind_ok, hskip, ne_eq, not_false_eq_true, and_self, true_imp_iff]
    have hiff := @computeIsolatedRisk_ok_iff acc pos.marketIndex s
    rw [hpos] at hiff
    constructor
    · rintro ⟨rps', rp, hrp, -⟩
      exact (hiff.mp ⟨rp, hrp⟩).2
    · intro hmark
      obtain ⟨rp, hrp⟩ := hiff.mpr ⟨hskip.2, hmark⟩
      exact ⟨_, rp, hrp, rfl⟩

theorem snapshotRisk_ok_iff :
    (∃ pre, snapshotRisk acc s = .ok pre) ↔ SnapshotReadable s acc := by
  -- stored rows are what the keeper's read returns
  have hrow : ∀ p ∈ positionsOf s acc, getPosition s acc p.marketIndex = p := by
    intro p hp
    obtain ⟨hget, hacc⟩ := mem_positionsOf.mp hp
    rw [← hacc]
    exact getPosition_of_get hget
  have hcross : (∃ rp, computeCrossRisk acc s = .ok rp) ↔
      (s.account.accounts.get acc).isSome ∧ MarksOk s acc := by
    simp only [computeCrossRisk_eq_ok, Option.isSome_iff_exists]
    tauto
  have hstep : ∀ rps, ∀ p ∈ positionsOf s acc, (∃ rps', addIsolatedRisk acc s rps p = .ok rps') ↔
      (p.baseSize ≠ 0 ∧ p.marginMode = .isolated →
        ∃ r, getMarkPriceAndDetails p.marketIndex s = .ok r) :=
    fun rps p hp => addIsolatedRisk_ok_iff rps (hrow p hp)
  have hisolated := Txn.foldlM_ok_iff (positionsOf s acc) hstep KVStore.empty
  have hsplit : (∃ pre, snapshotRisk acc s = .ok pre) ↔ (∃ rp, computeCrossRisk acc s = .ok rp) ∧
      ∃ rps, (positionsOf s acc).foldlM (addIsolatedRisk acc s) KVStore.empty = .ok rps := by
    simp only [snapshotRisk, Txn.except_bind_ok]
    constructor
    · rintro ⟨pre, rp, hrp, rps, hrps, -⟩
      exact ⟨⟨rp, hrp⟩, rps, hrps⟩
    · rintro ⟨⟨rp, hrp⟩, rps, hrps⟩
      exact ⟨_, rp, hrp, rps, hrps, rfl⟩
  rw [hsplit, hcross, hisolated]
  constructor
  · rintro ⟨⟨haccount, hmarks⟩, hiso⟩
    refine ⟨haccount, fun m hsize => ?_⟩
    by_cases hmode : (getPosition s acc m).marginMode = .isolated
    · have := hiso _ (getPosition_mem_positionsOf hsize) ⟨hsize, hmode⟩
      rwa [getPosition_marketIndex] at this
    · exact hmarks m ⟨hsize, hmode⟩
  · rintro ⟨haccount, hmarks⟩
    refine ⟨⟨haccount, fun m hopen => hmarks m hopen.1⟩, fun p hp hopen => ?_⟩
    refine hmarks p.marketIndex ?_
    rw [hrow p hp]
    exact hopen.1

/-! ### How the aggregate moves -/

theorem SameMarks.detailsOf_static (h : SameMarks s t) (m : ℕ) :
    (detailsOf t m).static = (detailsOf s m).static := by
  have hm := h.details m
  unfold detailsOf
  rcases ht : t.market.marketDetails.get m with _ | d
  · rw [ht] at hm
    rcases hs : s.market.marketDetails.get m with _ | d'
    · rfl
    · rw [hs] at hm
      simp at hm
  · rw [ht] at hm
    rcases hs : s.market.marketDetails.get m with _ | d'
    · rw [hs] at hm
      simp at hm
    · rw [hs] at hm
      simpa using hm

theorem crossTerm_congr (h : SameMarks s t) (acc : ℕ)
    (f : MarketDetails → AccountPosition → ℤ) (p : AccountPosition) :
    crossTerm t acc f p = crossTerm s acc f p := by
  simp only [crossTerm, h.detailsOf_static]

theorem crossTerm_zero (s : State) (acc : ℕ) (f : MarketDetails → AccountPosition → ℤ) (a m : ℕ) :
    crossTerm s acc f { accountIndex := a, marketIndex := m } = 0 :=
  if_neg fun h => h.2.1 rfl

/-- If an account's positions contribute the same in all markets but one, its sum moves by the
terms of that market. -/
theorem crossSum_sub_crossSum {f : MarketDetails → AccountPosition → ℤ}
    (h : ∀ m', m' ≠ m → crossTerm t acc f (getPosition t acc m')
      = crossTerm s acc f (getPosition s acc m')) :
    crossSum t acc f - crossSum s acc f
      = crossTerm t acc f (getPosition t acc m) - crossTerm s acc f (getPosition s acc m) := by
  have hs := term_accountPositions s (crossTerm_zero s acc f)
  have ht := term_accountPositions t (crossTerm_zero t acc f)
  have hoff : ∀ k ∉ ({toLex (acc, m)} : Finset (ℕ ×ₗ ℕ)),
      t.account.accountPositions.rows.term (fun _ p => crossTerm t acc f p) k
        = s.account.accountPositions.rows.term (fun _ p => crossTerm s acc f p) k := by
    intro k hk
    obtain ⟨a, m', rfl⟩ : ∃ a m', k = toLex (a, m') := ⟨(ofLex k).1, (ofLex k).2, rfl⟩
    rw [hs, ht]
    by_cases ha : a = acc
    · subst ha
      refine h m' fun hm => hk ?_
      rw [hm]
      exact Finset.mem_singleton_self _
    · -- positions of other accounts do not count
      have hzero : ∀ u : State, crossTerm u acc f (getPosition u a m') = 0 := by
        intro u
        refine if_neg fun hopen => ha ?_
        rw [← hopen.1, getPosition_accountIndex]
      rw [hzero, hzero]
  have hdiff := KVStore.sum_sub_sum _ hoff
  rw [Finset.sum_singleton, hs, ht] at hdiff
  exact hdiff

theorem crossSum_congr {f : MarketDetails → AccountPosition → ℤ}
    (h : ∀ m, crossTerm t acc f (getPosition t acc m) = crossTerm s acc f (getPosition s acc m)) :
    crossSum t acc f = crossSum s acc f := by
  have hdiff := crossSum_sub_crossSum (m := 0) fun m' _ => h m'
  rw [h 0] at hdiff
  omega

theorem MarksOk.congr (h : SameMarks s t)
    (hopen : ∀ m, (getPosition t acc m).IsCrossOpen → (getPosition s acc m).IsCrossOpen)
    (hs : MarksOk s acc) : MarksOk t acc := by
  intro m hm
  exact h.symm.exists_markPrice (hs m (hopen m hm))

theorem crossTerm_allocate (s : State) (acc : ℕ) (f : MarketDetails → AccountPosition → ℤ) {x : ℤ}
    (h : x ≠ 0 → p.marginMode = .isolated) :
    crossTerm s acc f (p.allocate x) = crossTerm s acc f p := by
  by_cases hx : x = 0
  · rw [hx, AccountPosition.allocate_zero]
  · have hiso := h hx
    have hclosed : ¬ p.IsCrossOpen := fun hopen => hopen.2 hiso
    have hclosed' : ¬ (p.allocate x).IsCrossOpen := fun hopen => hopen.2 hiso
    simp [crossTerm, hclosed, hclosed']

/-- An account that only got collateral: the aggregate's value moves by that amount and the
requirements stay. -/
theorem computeCrossRisk_credit {x : ℤ}
    (haccount : ∀ a, s.account.accounts.get acc = some a →
      ∃ a', t.account.accounts.get acc = some a' ∧ a'.collateral = a.collateral + x)
    (hmarks : MarksOk s acc → MarksOk t acc) (hsum : ∀ f, crossSum t acc f = crossSum s acc f)
    (hrp : computeCrossRisk acc s = .ok rp) :
    computeCrossRisk acc t = .ok { rp with
      collateral := rp.collateral + x
      collateralWithFunding := rp.collateralWithFunding + x
      totalAccountValue := rp.totalAccountValue + x } := by
  obtain ⟨a, ha, hok, rfl⟩ := computeCrossRisk_eq_ok.mp hrp
  obtain ⟨a', ha', hcollateral⟩ := haccount a ha
  refine computeCrossRisk_eq_ok.mpr ⟨a', ha', hmarks hok, ?_⟩
  simp only [crossRiskOf, hsum, hcollateral]
  ring_nf

/-- Moving collateral, and margin of an isolated position, moves the aggregate's value by the
collateral moved and leaves the requirements alone. -/
theorem MarginMove.computeCrossRisk_ok {c al : ℕ → ℤ} (h : MarginMove m c al s t)
    (hiso : al acc ≠ 0 → (getPosition s acc m).marginMode = .isolated)
    (hrp : computeCrossRisk acc s = .ok rp) :
    computeCrossRisk acc t = .ok { rp with
      collateral := rp.collateral + c acc
      collateralWithFunding := rp.collateralWithFunding + c acc
      totalAccountValue := rp.totalAccountValue + c acc } := by
  have hmarks : SameMarks s t := by
    rw [h.frame]
    exact ⟨rfl, rfl, fun _ => rfl⟩
  have hmove : ∀ m', (if m' = m then al acc else 0) ≠ 0 →
      (getPosition s acc m').marginMode = .isolated := by
    intro m' hne
    by_cases hm : m' = m
    · rw [if_pos hm] at hne
      rw [hm]
      exact hiso hne
    · rw [if_neg hm] at hne
      exact absurd rfl hne
  refine computeCrossRisk_credit (fun a ha => ⟨a.credit (c acc), ?_, rfl⟩) (fun hok => ?_)
    (fun f => ?_) hrp
  · rw [h.account, ha]
    rfl
  · refine hok.congr hmarks fun m' hopen => ?_
    rw [h.position] at hopen
    exact hopen
  · refine crossSum_congr fun m' => ?_
    rw [crossTerm_congr hmarks, h.position, crossTerm_allocate s acc f (hmove m')]

/-! ### Requirements are not negative -/

theorem MarketDetails.initialMargin_nonneg (d : MarketDetails) (size : ℤ) (mark : ℕ)
    (h : 0 ≤ size) : 0 ≤ d.initialMargin size mark := by
  unfold MarketDetails.initialMargin
  split
  · exact le_refl 0
  · exact Int.tdiv_nonneg (by positivity) (by positivity)

theorem crossSum_nonneg {g : MarketDetails → AccountPosition → ℤ} (hg : ∀ d p, 0 ≤ g d p)
    (s : State) (acc : ℕ) : 0 ≤ crossSum s acc g := by
  unfold crossSum Table.sum
  refine KVStore.sum_nonneg fun k p _ => ?_
  unfold crossTerm
  split
  · exact hg _ _
  · exact le_refl 0

theorem crossSum_initialAt_nonneg (s : State) (acc : ℕ) : 0 ≤ crossSum s acc initialAt :=
  crossSum_nonneg (fun _ _ => MarketDetails.initialMargin_nonneg _ _ _ (abs_nonneg _)) s acc

/-! ### What the gate lets through -/

theorem RiskParameters.healthStatus_eq_healthy {r : RiskParameters} (hvalue : 0 ≤ r.totalAccountValue) :
    r.healthStatus = .healthy ↔ r.initialMarginRequirement ≤ r.totalAccountValue ∧
      r.maintenanceMarginRequirement ≤ r.totalAccountValue ∧
      r.closeOutMarginRequirement ≤ r.totalAccountValue := by
  unfold RiskParameters.healthStatus
  rw [if_neg hvalue.not_gt]
  split_ifs <;> simp only [false_iff, true_iff] <;> omega

theorem snapshotRisk_cross {pre : PreRiskSnapshot} (h : snapshotRisk acc s = .ok pre) :
    ∃ rp, computeCrossRisk acc s = .ok rp ∧ pre.cross = some rp := by
  simp only [snapshotRisk, Txn.except_bind_ok] at h
  obtain ⟨rp, hrp, isolated, -, hsnap⟩ := h
  refine ⟨rp, hrp, ?_⟩
  rw [← Except.ok.inj hsnap]

theorem requireRiskOKFrom_cross {pre : PreRiskSnapshot} {u : Unit}
    {post : RiskParameters} (h : requireRiskOKFrom acc pre s = .ok u)
    (hpost : computeCrossRisk acc s = .ok post) : classifyChange pre.cross post = true := by
  by_contra hfail
  simp [requireRiskOKFrom, isValidRiskChangeFrom, hpost, hfail, bind, Except.bind, pure,
    Except.pure, throw, throwThe, MonadExceptOf.throw] at h

/-- A change that lowers the account value and leaves the initial requirement alone passes the gate
with a negative value exactly when the account was bankrupt without a requirement: then there is no
ratio to compare. -/
theorem classifyChange_bankrupt {pre post : RiskParameters}
    (him : post.initialMarginRequirement = pre.initialMarginRequirement)
    (hnonneg : 0 ≤ pre.initialMarginRequirement)
    (hlt : post.totalAccountValue < pre.totalAccountValue)
    (h : classifyChange (some pre) post = true) :
    0 ≤ post.totalAccountValue ↔
      ¬ (pre.totalAccountValue < 0 ∧ pre.initialMarginRequirement = 0) := by
  constructor
  · rintro hpost ⟨hpre, -⟩
    omega
  · intro hcond
    by_contra hneg
    push Not at hneg
    have hpost : post.healthStatus = .bankruptcy := if_pos hneg
    simp only [classifyChange, hpost] at h
    -- only a bankrupt account may stay bankrupt
    have hpre : pre.healthStatus = .bankruptcy := by
      rcases hclass : pre.healthStatus <;> simp_all [Health.rank]
    have htav : pre.totalAccountValue < 0 := by
      by_contra hge
      rw [RiskParameters.healthStatus, if_neg hge] at hpre
      split_ifs at hpre
    have hne : pre.initialMarginRequirement ≠ 0 := fun h0 => hcond ⟨htav, h0⟩
    have hpos : 0 < pre.initialMarginRequirement := lt_of_le_of_ne hnonneg hne.symm
    simp only [hpre, him, hne, or_self, if_false, reduceCtorEq, lt_self_iff_false,
      gt_iff_lt, Bool.not_eq_true', decide_eq_false_iff_not, not_lt] at h
    nlinarith

end PerpDex
