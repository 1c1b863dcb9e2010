/-
The account keeper (`x/account/keeper`): accounts, positions and spot balances.

Reads are functions of the state, writes are `Tx`.  A row that is absent reads as the zero row, so facts
are about what the reads return and not about which rows exist.
-/
import Mathlib.Algebra.Group.Pi.Basic
import PerpDex.Types

namespace PerpDex

/-! ### Writing rows -/

namespace State

variable (s : State)

def putAccount (a : Account) : State :=
  { s with account := { s.account with accounts := s.account.accounts.put a } }

def putPosition (p : AccountPosition) : State :=
  { s with account := { s.account with accountPositions := s.account.accountPositions.put p } }

def putAsset (a : AccountAsset) : State :=
  { s with account := { s.account with accountAssets := s.account.accountAssets.put a } }

end State

/-! ### Accounts -/

def getAccount (idx : ℕ) : Query Account := fun s =>
  match s.account.accounts.get idx with
  | some a => .ok a
  | none => .error ⟨.accountNotFound, s!"account_index={idx}"⟩

def updateAccount (a : Account) : Tx Unit := Txn.write fun s => s.putAccount a

def addCollateral (idx : ℕ) (delta : ℤ) : Tx Unit := do
  let a ← Txn.read (getAccount idx)
  updateAccount { a with collateral := a.collateral + delta }

/-- Whether `signer` may act on the account; accounts without an owner accept nobody. -/
def isAuthorized (signer : String) (idx : ℕ) : Query Bool := fun s => do
  let a ← getAccount idx s
  if a.ownerAddress = "" then return false
  else return decide (a.ownerAddress = signer)

def Account.isPoolType (a : Account) : Bool :=
  a.accountType = .publicPool || a.accountType = .insuranceFund

def rejectPoolAccount (idx : ℕ) : Query Unit := fun s => do
  let a ← getAccount idx s
  if a.isPoolType then throw ⟨.poolGenericMsg, s!"account {idx} is a pool account"⟩

def ensureNotFrozen : Option PublicPoolInfo → Except Err Unit
  | none => throw ⟨.invalidPoolAccount, ""⟩
  | some info => if info.status = .frozen then throw ⟨.poolFrozen, ""⟩ else pure ()

def ensureActive : Option PublicPoolInfo → Except Err Unit
  | none => throw ⟨.invalidPoolAccount, ""⟩
  | some info => if info.status ≠ .active then throw ⟨.poolNotActive, "status=1"⟩ else pure ()

def accountsOf (s : State) : List Account := s.account.accounts.toList

/-! ### Positions -/

/-- The position of an account in a market; the zero position if no row is stored. -/
def getPosition (s : State) (accIdx marketIdx : ℕ) : AccountPosition :=
  (s.account.accountPositions.get (toLex (accIdx, marketIdx))).getD
    { accountIndex := accIdx, marketIndex := marketIdx }

def setPosition (p : AccountPosition) : Tx Unit := Txn.write fun s => s.putPosition p

/-- Read a position, change it by `mutate` and store it; nothing is stored if that fails. -/
def updatePosition (accIdx marketIdx : ℕ)
    (mutate : AccountPosition → Except Err AccountPosition) : Tx AccountPosition := do
  let p ← Txn.read fun s =>
    mutate { getPosition s accIdx marketIdx with accountIndex := accIdx, marketIndex := marketIdx }
  setPosition p
  return p

def setPositionLeverage (accIdx marketIdx : ℕ) (marginMode : MarginMode) (imf : ℕ) : Tx Unit := do
  let _ ← updatePosition accIdx marketIdx fun p =>
    .ok { p with marginMode := marginMode, initialMarginFraction := imf }

/-- The stored positions of an account, in market order. -/
def positionsOf (s : State) (accIdx : ℕ) : List AccountPosition :=
  s.account.accountPositions.range fun k => (ofLex k).1 == accIdx

/-! ### Spot balances -/

/-- The balance row of an account and asset; the zero row if none is stored. -/
def getAccountAsset (s : State) (accIdx assetIdx : ℕ) : AccountAsset :=
  (s.account.accountAssets.get (toLex (accIdx, assetIdx))).getD
    { accountIndex := accIdx, assetIndex := assetIdx }

def setAccountAsset (a : AccountAsset) : Tx Unit := Txn.write fun s => s.putAsset a

def addAccountAssetBalance (accIdx assetIdx : ℕ) (delta : ℤ) : Tx Unit := do
  let aa ← Txn.read fun s => .ok (getAccountAsset s accIdx assetIdx)
  let available := aa.balance - aa.lockedBalance
  let debit := -delta
  Txn.require (¬ (delta < 0 ∧ available < debit))
    ⟨.insufficientFunds, s!"asset_index={assetIdx} available={available} need={debit}"⟩
  Txn.require (¬ aa.balance + delta < 0) ⟨.insufficientFunds, s!"asset_index={assetIdx}"⟩
  setAccountAsset { aa with balance := aa.balance + delta }

/-- A maker's locked part is drained first; a taker pays out of what is not locked. -/
def transferAccountAssetBalance (src dst assetIdx : ℕ) (amount : ℤ) (drainLockedFirst : Bool) :
    Tx Unit :=
  if amount = 0 then pure ()
  else if amount < 0 then throw ⟨.insufficientFunds, "transfer amount must be non-negative"⟩
  else do
    let from_ ← Txn.read fun s => .ok (getAccountAsset s src assetIdx)
    let have_ := from_.balance
    let available := from_.balance - from_.lockedBalance
    Txn.require (¬ (if drainLockedFirst then have_ else available) < amount)
      ⟨.insufficientFunds,
        if drainLockedFirst then s!"account {src} asset {assetIdx} have {have_} need {amount}"
        else s!"account {src} asset {assetIdx} available {available} need {amount}"⟩
    -- The credited row is read before the debited one is written: with `src = dst` the credit
    -- overwrites the debit.
    let to_ ← Txn.read fun s => .ok (getAccountAsset s dst assetIdx)
    let drain := if drainLockedFirst then min amount from_.lockedBalance else 0
    setAccountAsset
      { from_ with lockedBalance := from_.lockedBalance - drain, balance := from_.balance - amount }
    setAccountAsset { to_ with balance := to_.balance + amount }

/-- `balance - lockedBalance`, clamped at zero. -/
def availableBalance (accIdx assetIdx : ℕ) (s : State) : ℤ :=
  let aa := getAccountAsset s accIdx assetIdx
  let avail := aa.balance - aa.lockedBalance
  if avail < 0 then 0 else avail

def increaseLockedBalance (accIdx assetIdx : ℕ) (amount : ℤ) : Tx Unit :=
  if amount = 0 then pure ()
  else if amount < 0 then throw ⟨.insufficientFunds, "lock amount must be non-negative"⟩
  else do
    let aa ← Txn.read fun s => .ok (getAccountAsset s accIdx assetIdx)
    let available := aa.balance - aa.lockedBalance
    Txn.require (¬ available < amount)
      ⟨.insufficientFunds, s!"asset_index={assetIdx} available={available} need={amount}"⟩
    setAccountAsset { aa with lockedBalance := aa.lockedBalance + amount }

/-- Release `amount` of a lock; a release larger than the lock empties it. -/
def decreaseLockedBalance (accIdx assetIdx : ℕ) (amount : ℤ) : Tx Unit :=
  if amount = 0 then pure ()
  else if amount < 0 then throw ⟨.insufficientFunds, "release amount must be non-negative"⟩
  else do
    let aa ← Txn.read fun s => .ok (getAccountAsset s accIdx assetIdx)
    let release := min amount aa.lockedBalance
    setAccountAsset { aa with lockedBalance := aa.lockedBalance - release }

/-! ### What reads return after writes -/

theorem getAccount_eq_ok {idx : ℕ} {s : State} {a : Account} :
    getAccount idx s = .ok a ↔ s.account.accounts.get idx = some a := by
  unfold getAccount
  cases s.account.accounts.get idx with
  | none => simp
  | some a' => simp

theorem addCollateral_run (idx : ℕ) (delta : ℤ) (s : State) :
    (addCollateral idx delta).run s =
      match s.account.accounts.get idx with
      | some a => .ok () (s.putAccount { a with collateral := a.collateral + delta })
      | none => .error ⟨.accountNotFound, s!"account_index={idx}"⟩ s := by
  rw [addCollateral, Txn.run_bind_read]
  unfold getAccount
  cases s.account.accounts.get idx with
  | none => rfl
  | some a => rfl

@[simp] theorem getPosition_accountIndex (s : State) (a m : ℕ) :
    (getPosition s a m).accountIndex = a := by
  unfold getPosition
  rcases h : s.account.accountPositions.get (toLex (a, m)) with _ | p
  · rfl
  · have hkey := Table.key_of_get h
    simp only [AccountPosition.key, EmbeddingLike.apply_eq_iff_eq, Prod.mk.injEq] at hkey
    exact hkey.1

@[simp] theorem getPosition_marketIndex (s : State) (a m : ℕ) :
    (getPosition s a m).marketIndex = m := by
  unfold getPosition
  rcases h : s.account.accountPositions.get (toLex (a, m)) with _ | p
  · rfl
  · have hkey := Table.key_of_get h
    simp only [AccountPosition.key, EmbeddingLike.apply_eq_iff_eq, Prod.mk.injEq] at hkey
    exact hkey.2

theorem getPosition_putPosition (s : State) (p : AccountPosition) (a m : ℕ) :
    getPosition (s.putPosition p) a m =
      if a = p.accountIndex ∧ m = p.marketIndex then p else getPosition s a m := by
  simp only [getPosition, State.putPosition, Table.get_put, AccountPosition.key,
    EmbeddingLike.apply_eq_iff_eq, Prod.mk.injEq]
  split <;> rfl

@[simp] theorem getPosition_putAccount (s : State) (r : Account) (a m : ℕ) :
    getPosition (s.putAccount r) a m = getPosition s a m := rfl

theorem term_accountPositions (s : State) {g : AccountPosition → ℤ}
    (hg : ∀ a m, g { accountIndex := a, marketIndex := m } = 0) (a m : ℕ) :
    s.account.accountPositions.rows.term (fun _ p => g p) (toLex (a, m))
      = g (getPosition s a m) := by
  show (s.account.accountPositions.get (toLex (a, m))).elim 0 g = g (getPosition s a m)
  unfold getPosition
  cases s.account.accountPositions.get (toLex (a, m)) with
  | none => exact (hg a m).symm
  | some p => rfl

theorem updatePosition_run (a m : ℕ) (f : AccountPosition → Except Err AccountPosition)
    (s : State) :
    (updatePosition a m f).run s =
      match f (getPosition s a m) with
      | .ok p => .ok p (s.putPosition p)
      | .error e => .error e s := by
  have hself : { getPosition s a m with accountIndex := a, marketIndex := m } = getPosition s a m := by
    rw [show getPosition s a m = { getPosition s a m with
      accountIndex := (getPosition s a m).accountIndex
      marketIndex := (getPosition s a m).marketIndex } from rfl]
    simp only [getPosition_accountIndex, getPosition_marketIndex]
  rw [updatePosition, Txn.run_bind_read, hself]
  cases f (getPosition s a m) with
  | error e => rfl
  | ok p => rfl

/-! ### Moving margin

Collateral and allocated margin are the two pools an account pays from.  `MarginMove m c al`
relates states between which the collateral of every account `a` moved by `c a` and the
allocated margin of its position in market `m` by `al a`, and nothing else changed. -/

def Account.credit (r : Account) (delta : ℤ) : Account :=
  { r with collateral := r.collateral + delta }

def AccountPosition.allocate (p : AccountPosition) (delta : ℤ) : AccountPosition :=
  { p with allocatedMargin := p.allocatedMargin + delta }

@[simp] theorem Account.credit_zero (r : Account) : r.credit 0 = r := by
  simp [Account.credit]

@[simp] theorem Account.credit_credit (r : Account) (x y : ℤ) :
    (r.credit x).credit y = r.credit (x + y) := by
  simp [Account.credit, add_assoc]

@[simp] theorem AccountPosition.allocate_zero (p : AccountPosition) : p.allocate 0 = p := by
  simp [AccountPosition.allocate]

@[simp] theorem AccountPosition.allocate_allocate (p : AccountPosition) (x y : ℤ) :
    (p.allocate x).allocate y = p.allocate (x + y) := by
  simp [AccountPosition.allocate, add_assoc]

@[simp] theorem AccountPosition.allocate_accountIndex (p : AccountPosition) (x : ℤ) :
    (p.allocate x).accountIndex = p.accountIndex := rfl

@[simp] theorem AccountPosition.allocate_marketIndex (p : AccountPosition) (x : ℤ) :
    (p.allocate x).marketIndex = p.marketIndex := rfl

structure MarginMove (m : ℕ) (c al : ℕ → ℤ) (s t : State) : Prop where
  account : ∀ a, t.account.accounts.get a = (s.account.accounts.get a).map (·.credit (c a))
  /-- Collateral moves only where there is an account. -/
  exist : ∀ a, c a ≠ 0 → (s.account.accounts.get a).isSome
  position : ∀ a m', getPosition t a m' =
    (getPosition s a m').allocate (if m' = m then al a else 0)
  frame : t = { s with account := { s.account with
    accounts := t.account.accounts, accountPositions := t.account.accountPositions } }

/-- Collateral of an account, zero if there is none. -/
def collateralOf (s : State) (a : ℕ) : ℤ := (s.account.accounts.get a).elim 0 (·.collateral)

namespace MarginMove

variable {m : ℕ} {c c' al al' : ℕ → ℤ} {s t u : State}

theorem refl (m : ℕ) (s : State) : MarginMove m 0 0 s s where
  account a := by
    cases s.account.accounts.get a with
    | none => rfl
    | some r => simp
  exist a h := absurd rfl h
  position a m' := by simp
  frame := rfl

theorem trans (h : MarginMove m c al s t) (h' : MarginMove m c' al' t u) :
    MarginMove m (c + c') (al + al') s u where
  account a := by
    rw [h'.account, h.account]
    cases s.account.accounts.get a with
    | none => rfl
    | some r => simp
  exist a hne := by
    by_cases hc : c a = 0
    · have hc' : c' a ≠ 0 := by
        intro h0
        exact hne (by simp [hc, h0])
      have hsome := h'.exist a hc'
      rw [h.account] at hsome
      simpa using hsome
    · exact h.exist a hc
  position a m' := by
    rw [h'.position, h.position]
    by_cases hm : m' = m
    · simp [hm]
    · simp [hm]
  frame := by
    rw [h'.frame, h.frame]

theorem collateralOf_eq (h : MarginMove m c al s t) (a : ℕ) :
    collateralOf t a = collateralOf s a + c a := by
  unfold collateralOf
  rw [h.account]
  rcases hs : s.account.accounts.get a with _ | r
  · have hc : c a = 0 := by
      by_contra hne
      simpa [hs] using h.exist a hne
    simp [hc]
  · simp [Account.credit]

theorem allocatedMargin_eq (h : MarginMove m c al s t) (a : ℕ) :
    (getPosition t a m).allocatedMargin = (getPosition s a m).allocatedMargin + al a := by
  rw [h.position, if_pos rfl]
  rfl

theorem of_putAccount {idx : ℕ} {r : Account} (m : ℕ) (delta : ℤ)
    (hr : s.account.accounts.get idx = some r) :
    MarginMove m (Pi.single idx delta) 0 s (s.putAccount (r.credit delta)) where
  account a := by
    have hidx : (r.credit delta).accountIndex = idx := by
      show r.accountIndex = idx
      exact Table.key_of_get hr
    simp only [State.putAccount, Table.get_put, hidx]
    by_cases ha : a = idx
    · subst ha
      simp [hr]
    · rw [if_neg ha, Pi.single_eq_of_ne ha]
      cases s.account.accounts.get a with
      | none => rfl
      | some r' => simp
  exist a hne := by
    by_cases ha : a = idx
    · rw [ha, hr]
      rfl
    · rw [Pi.single_eq_of_ne ha] at hne
      exact absurd rfl hne
  position a m' := by simp
  frame := rfl

theorem of_addCollateral {idx : ℕ} {delta : ℤ} {u : Unit} (m : ℕ)
    (h : (addCollateral idx delta).run s = .ok u t) :
    MarginMove m (Pi.single idx delta) 0 s t ∧ (s.account.accounts.get idx).isSome := by
  rw [addCollateral_run] at h
  rcases hr : s.account.accounts.get idx with _ | r
  · rw [hr] at h
    simp at h
  · rw [hr] at h
    simp only [EStateM.Result.ok.injEq] at h
    rw [← h.2]
    exact ⟨of_putAccount m delta hr, rfl⟩

theorem of_putPosition (s : State) (a m : ℕ) (delta : ℤ) :
    MarginMove m 0 (Pi.single a delta) s
      (s.putPosition ((getPosition s a m).allocate delta)) where
  account b := by
    simp only [State.putPosition]
    cases s.account.accounts.get b with
    | none => rfl
    | some r => simp
  exist b h := absurd rfl h
  position b m' := by
    rw [getPosition_putPosition]
    simp only [AccountPosition.allocate_accountIndex, AccountPosition.allocate_marketIndex,
      getPosition_accountIndex, getPosition_marketIndex]
    by_cases hb : b = a ∧ m' = m
    · obtain ⟨rfl, rfl⟩ := hb
      simp
    · rw [if_neg hb]
      by_cases hm : m' = m
      · have hne : b ≠ a := fun h => hb ⟨h, hm⟩
        rw [if_pos hm, Pi.single_eq_of_ne hne]
        exact (AccountPosition.allocate_zero _).symm
      · rw [if_neg hm]
        exact (AccountPosition.allocate_zero _).symm
  frame := rfl

theorem of_updatePosition {a : ℕ} {delta : ℤ} {p : AccountPosition}
    (h : (updatePosition a m fun p => .ok (p.allocate delta)).run s = .ok p t) :
    MarginMove m 0 (Pi.single a delta) s t := by
  rw [updatePosition_run] at h
  cases h
  exact of_putPosition s a m delta

theorem baseSize (h : MarginMove m c al s t) (a m' : ℕ) :
    (getPosition t a m').baseSize = (getPosition s a m').baseSize := by
  rw [h.position]
  rfl

theorem market (h : MarginMove m c al s t) : t.market = s.market := by
  rw [h.frame]

end MarginMove

end PerpDex
