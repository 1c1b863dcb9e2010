/-
Indexes of accounts are given out once.

* `Indexed` — the counters are ahead of the accounts, and the index by owner is exact.

Main results: `ChainStep.grows`, `account_indexes_unique`, `genesis_account_overwritten`.

The counters are never compared with the accounts, so whether an index is free is a matter of the start
alone.
-/
import PerpDex.SecondaryIndex
import PerpDex.Chain

namespace PerpDex

open Txn

variable {s t : State}
variable {α : Type} {i : ℕ} {a b : Account} {authority owner : String}

/-! ### What stays the same -/

/-- The accounts are the same up to what `f` forgets, and so is what finds and numbers them. -/
structure SameAccounts {α : Type} (f : Account → α) (s t : State) : Prop where
  row : ∀ i, (t.account.accounts.get i).map f = (s.account.accounts.get i).map f
  owners : t.account.ownerToIndex = s.account.ownerToIndex
  masters : t.account.nextMasterIndex = s.account.nextMasterIndex
  subs : t.account.nextSubIndex = s.account.nextSubIndex

instance {α : Type} (f : Account → α) : IsPreorder State (SameAccounts f) where
  refl _ := ⟨fun _ => rfl, rfl, rfl, rfl⟩
  trans _ _ _ h h' := ⟨fun i => (h'.row i).trans (h.row i), h'.owners.trans h.owners,
    h'.masters.trans h.masters, h'.subs.trans h.subs⟩

def Account.sansCollateral (a : Account) : Account := { a with collateral := 0 }

/-- Nothing about the accounts differs but their collateral. -/
abbrev CollateralOnly : State → State → Prop := SameAccounts Account.sansCollateral

/-- No account is new, and each is what it was. -/
abbrev SameRegistry : State → State → Prop := SameAccounts Account.identity

namespace SameAccounts

theorem of_account {f : Account → α} (h : t.account = s.account) :
    SameAccounts f s t := by
  refine ⟨fun i => ?_, ?_, ?_, ?_⟩ <;> rw [h]

theorem mono {β : Type} {f : Account → α} {g : Account → β} (hfg : ∀ a b, f a = f b → g a = g b)
    (h : SameAccounts f s t) : SameAccounts g s t := by
  refine ⟨fun i => ?_, h.owners, h.masters, h.subs⟩
  have hrow := h.row i
  rcases ht : t.account.accounts.get i with _ | a
  · rw [ht, Option.map_none, eq_comm, Option.map_eq_none_iff] at hrow
    rw [hrow]
  · rw [ht, Option.map_some, eq_comm, Option.map_eq_some_iff] at hrow
    obtain ⟨b, hb, heq⟩ := hrow
    rw [hb, Option.map_some, Option.map_some, hfg b a heq]

theorem get {f : Account → α} (h : SameAccounts f s t)
    (ha : s.account.accounts.get i = some a) : ∃ b, t.account.accounts.get i = some b ∧ f b = f a := by
  have hrow := h.row i
  rw [ha, Option.map_some] at hrow
  exact Option.map_eq_some_iff.mp hrow

theorem of_put {f : Account → α}
    (ha : s.account.accounts.get b.accountIndex = some a) (hf : f b = f a) :
    SameAccounts f s (s.putAccount b) := by
  refine ⟨fun i => ?_, rfl, rfl, rfl⟩
  show ((s.account.accounts.put b).get i).map f = _
  rw [Table.get_put]
  split
  · rename_i hi
    rw [hi, ha, Option.map_some, Option.map_some, hf]
  · rfl

end SameAccounts

theorem CollateralOnly.registry (h : CollateralOnly s t) : SameRegistry s t := by
  refine h.mono fun a b hab => ?_
  cases a
  cases b
  simp only [Account.sansCollateral, Account.mk.injEq] at hab
  simp [Account.identity, hab]

/-! ### Frames -/

theorem addCollateral_collateralOnly (i : ℕ) (δ : ℤ) : Keeps CollateralOnly (addCollateral i δ) := by
  intro s
  rw [after, addCollateral_run]
  cases ha : s.account.accounts.get i with
  | none => exact refl_of CollateralOnly s
  | some a =>
    have hkey : a.accountIndex = i := Table.key_of_get ha
    exact SameAccounts.of_put (b := a.credit δ) (a := a) (by rw [← hkey] at ha; exact ha) rfl

theorem setPosition_collateralOnly (p : AccountPosition) : Keeps CollateralOnly (setPosition p) :=
  Keeps.write fun _ => ⟨fun _ => rfl, rfl, rfl, rfl⟩

theorem updatePosition_collateralOnly (a m : ℕ)
    (mutate : AccountPosition → Except Err AccountPosition) :
    Keeps CollateralOnly (updatePosition a m mutate) :=
  Keeps.read.bind fun _ => (setPosition_collateralOnly _).bind fun _ => Keeps.pure

theorem setAccountAsset_collateralOnly (a : AccountAsset) :
    Keeps CollateralOnly (setAccountAsset a) :=
  Keeps.write fun _ => ⟨fun _ => rfl, rfl, rfl, rfl⟩

theorem Settled.collateralOnly (h : Settled s t) : CollateralOnly s t := by
  rw [h.frame]
  exact ⟨fun _ => rfl, rfl, rfl, rfl⟩

theorem tradingRule_collateralOnly : TradingRule CollateralOnly where
  order s t h := by
    rw [h]
    exact ⟨fun _ => rfl, rfl, rfl, rfl⟩
  market s t h := by
    rw [h.frame]
    exact ⟨fun _ => rfl, rfl, rfl, rfl⟩
  fill f := by
    have hchange : ∀ a m price base sign,
        Keeps CollateralOnly (applyPositionChange a m price base sign) := fun a m price base sign =>
      Keeps.read.bind fun _ => (updatePosition_collateralOnly _ _ _).bind fun _ =>
        Keeps.require.bind fun _ => Keeps.pure
    refine ((prepareFill_keeps f).mono fun _ _ h => h.collateralOnly).bind fun pre => ?_
    refine (hchange _ _ _ _ _).mapError.bind fun mr => (hchange _ _ _ _ _).mapError.bind fun tr => ?_
    refine finishFill_rule addCollateral_collateralOnly
      (fun _ _ => updatePosition_collateralOnly _ _ _)
      (fun _ _ => updatePosition_collateralOnly _ _ _) (fun δ s => ?_) pre.1 pre.2
    rcases hrun : (updateOpenInterest f.marketIndex δ).run s with ⟨u, t⟩ | ⟨e, t⟩
    · rw [after_of_ok hrun]
      obtain ⟨d, -, -, rfl⟩ := updateOpenInterest_ok hrun
      exact ⟨fun _ => rfl, rfl, rfl, rfl⟩
    · rw [after_of_error hrun, updateOpenInterest_error hrun]
      exact refl_of CollateralOnly s

theorem transferRule_collateralOnly : TransferRule CollateralOnly where
  aside s t h := by
    rw [h]
    exact ⟨fun _ => rfl, rfl, rfl, rfl⟩
  credit := addCollateral_collateralOnly
  settle a m := (settlePositionFunding_keeps a m).mono fun _ _ h => h.collateralOnly

theorem sendCoins_account (src dst denom : String) (amount : ℕ) :
    Keeps (fun s t => t.account = s.account) (sendCoins src dst denom amount) := by
  have : IsPreorder State fun s t => t.account = s.account :=
    { refl := fun _ => rfl, trans := fun _ _ _ h h' => h'.trans h }
  exact Keeps.read.bind fun _ => Keeps.require.bind fun _ => Keeps.bind (Keeps.write fun _ => rfl)
    fun _ => Keeps.read.bind fun _ => Keeps.write fun _ => rfl

/-! ### New accounts -/

namespace State

variable (s : State)

/-- Write a new account and, if it is a master with an owner, let the owner find it. -/
def enroll (a : Account) : State :=
  { s with account := { s.account with
    accounts := s.account.accounts.put a
    ownerToIndex := if a.isOwnedMaster then s.account.ownerToIndex.set a.ownerAddress a.accountIndex
      else s.account.ownerToIndex } }

def withMasters (n : ℕ) : State := { s with account := { s.account with nextMasterIndex := n } }

def withSubs (n : ℕ) : State := { s with account := { s.account with nextSubIndex := n } }

end State

theorem createAccount_run (a : Account) (s : State) :
    (createAccount a).run s = .ok () (s.enroll a) := by
  unfold createAccount updateAccount State.enroll Account.isOwnedMaster
  rw [run_bind_write, run_when, run_write]
  by_cases h : a.ownerAddress ≠ "" ∧ a.accountType = .master
  · rw [if_pos h]
    simp [h.1, h.2, State.putAccount]
  · rw [if_neg h]
    have hnot : (decide (a.accountType = .master) && decide (a.ownerAddress ≠ "")) = false := by
      rw [Bool.and_eq_false_iff, decide_eq_false_iff_not, decide_eq_false_iff_not]
      tauto
    rw [hnot]
    rfl

/-- A master is found by its owner. -/
def ownerEntry (a : Account) : Option (String × ℕ) :=
  if a.isOwnedMaster then some (a.ownerAddress, a.accountIndex) else none

/-- The counters are ahead of the accounts in their ranges, and the owners find their masters. -/
structure Indexed (s : State) : Prop where
  masters : ∀ i a, s.account.accounts.get i = some a → firstUserMasterAccountIndex ≤ i →
    i ≤ maxMasterAccountIndex → i < s.account.nextMasterIndex
  subs : ∀ i a, s.account.accounts.get i = some a → minSubAccountIndex ≤ i →
    i ≤ maxAccountIndex → i < s.account.nextSubIndex
  owners : IsIndex s.account.accounts ownerEntry s.account.ownerToIndex

theorem ownerEntry_eq_some {o : String} :
    ownerEntry a = some (o, i) ↔
      a.isOwnedMaster = true ∧ a.ownerAddress = o ∧ a.accountIndex = i := by
  unfold ownerEntry
  split
  · rename_i h
    simp [h]
  · rename_i h
    simp [h]

theorem enroll_owners (h : IsIndex s.account.accounts ownerEntry s.account.ownerToIndex)
    (hfree : s.account.accounts.get a.accountIndex = none)
    (howner : a.isOwnedMaster = true → s.account.ownerToIndex.get a.ownerAddress = none) :
    IsIndex (s.enroll a).account.accounts ownerEntry (s.enroll a).account.ownerToIndex := by
  have hput : IsIndex (s.account.accounts.put a) ownerEntry (s.account.ownerToIndex.replace
      ((s.account.accounts.get a.accountIndex).bind ownerEntry) (ownerEntry a)) := by
    refine h.put a (fun _ _ => rfl) fun b o i j hb ha hentry => ?_
    obtain ⟨hmaster, rfl, -⟩ := ownerEntry_eq_some.mp ha
    have hlisted := h.get hb hentry
    rw [howner hmaster] at hlisted
    cases hlisted
  rw [hfree] at hput
  have hindex : (s.enroll a).account.ownerToIndex
      = s.account.ownerToIndex.replace none (ownerEntry a) := by
    unfold State.enroll ownerEntry
    cases a.isOwnedMaster with
    | true => rfl
    | false => rfl
  rw [hindex]
  exact hput

theorem Indexed.enroll (h : Indexed s) (hfree : s.account.accounts.get a.accountIndex = none)
    (howner : a.isOwnedMaster = true → s.account.ownerToIndex.get a.ownerAddress = none)
    (hmaster : firstUserMasterAccountIndex ≤ a.accountIndex →
      a.accountIndex ≤ maxMasterAccountIndex → a.accountIndex < s.account.nextMasterIndex)
    (hsub : minSubAccountIndex ≤ a.accountIndex → a.accountIndex ≤ maxAccountIndex →
      a.accountIndex < s.account.nextSubIndex) : Indexed (s.enroll a) := by
  refine ⟨fun i b hb hlow hhigh => ?_, fun i b hb hlow hhigh => ?_,
    enroll_owners h.owners hfree howner⟩
  · by_cases hi : i = a.accountIndex
    · subst hi
      exact hmaster hlow hhigh
    · exact h.masters i b ((Table.get_put_ne _ hi).symm.trans hb) hlow hhigh
  · by_cases hi : i = a.accountIndex
    · subst hi
      exact hsub hlow hhigh
    · exact h.subs i b ((Table.get_put_ne _ hi).symm.trans hb) hlow hhigh

theorem SameAccounts.get_back {f : Account → α} (h : SameAccounts f s t)
    (hb : t.account.accounts.get i = some b) :
    ∃ a, s.account.accounts.get i = some a ∧ f a = f b := by
  have hrow := h.row i
  rw [hb, Option.map_some, eq_comm] at hrow
  exact Option.map_eq_some_iff.mp hrow

theorem ownerEntry_congr (h : a.identity = b.identity)
    (hidx : a.accountIndex = b.accountIndex) : ownerEntry a = ownerEntry b := by
  cases a
  cases b
  simp only [Account.identity, Prod.mk.injEq] at h
  obtain ⟨-, rfl, rfl⟩ := h
  cases hidx
  rfl

theorem SameAccounts.owners_index (h : SameRegistry s t)
    (hs : IsIndex s.account.accounts ownerEntry s.account.ownerToIndex) :
    IsIndex t.account.accounts ownerEntry t.account.ownerToIndex := by
  refine ⟨fun o i => ?_, fun b b' o i i' hb hb' he he' => ?_⟩
  · rw [h.owners, hs.exact]
    constructor
    · rintro ⟨a, ha, he⟩
      obtain ⟨b, hb, hid⟩ := h.get ha
      have hkey : b.accountIndex = a.accountIndex := Table.key_of_get hb
      refine ⟨b, by rw [hkey]; exact hb, ?_⟩
      rw [ownerEntry_congr hid hkey, he]
    · rintro ⟨b, hb, he⟩
      obtain ⟨a, ha, hid⟩ := h.get_back hb
      have hkey : a.accountIndex = b.accountIndex := Table.key_of_get ha
      refine ⟨a, by rw [hkey]; exact ha, ?_⟩
      rw [ownerEntry_congr hid hkey, he]
  · obtain ⟨a, ha, hid⟩ := h.get_back hb
    obtain ⟨a', ha', hid'⟩ := h.get_back hb'
    have hkey : a.accountIndex = b.accountIndex := Table.key_of_get ha
    have hkey' : a'.accountIndex = b'.accountIndex := Table.key_of_get ha'
    rw [← hkey, ← hkey']
    refine hs.unique a a' o i i' (by rw [hkey]; exact ha) (by rw [hkey']; exact ha') ?_ ?_
    · rw [ownerEntry_congr hid hkey, he]
    · rw [ownerEntry_congr hid' hkey', he']

theorem SameAccounts.indexed (h : SameRegistry s t) (hs : Indexed s) : Indexed t := by
  refine ⟨fun i b hb hlow hhigh => ?_, fun i b hb hlow hhigh => ?_, h.owners_index hs.owners⟩
  · obtain ⟨a, ha, -⟩ := h.get_back hb
    rw [h.masters]
    exact hs.masters i a ha hlow hhigh
  · obtain ⟨a, ha, -⟩ := h.get_back hb
    rw [h.subs]
    exact hs.subs i a ha hlow hhigh

/-! ### Giving out indexes -/

/-- Every account is still there and is what it was. -/
def Kept (s t : State) : Prop := ∀ i a, s.account.accounts.get i = some a →
  ∃ b, t.account.accounts.get i = some b ∧ b.identity = a.identity

/-- If indexes have been given out once, they still are, and no account was overwritten. -/
def Grows (s t : State) : Prop := Indexed s → Indexed t ∧ Kept s t

instance : IsPreorder State Grows where
  refl _ h := ⟨h, fun _ a ha => ⟨a, ha, rfl⟩⟩
  trans _ _ _ h h' hs := by
    obtain ⟨ht, hkept⟩ := h hs
    obtain ⟨hu, hkept'⟩ := h' ht
    refine ⟨hu, fun i a ha => ?_⟩
    obtain ⟨b, hb, hba⟩ := hkept i a ha
    obtain ⟨c, hc, hcb⟩ := hkept' i b hb
    exact ⟨c, hc, hcb.trans hba⟩

theorem SameAccounts.grows (h : SameRegistry s t) : Grows s t :=
  fun hs => ⟨h.indexed hs, fun _ _ ha => h.get ha⟩

theorem poolRule_grows : PoolRule Grows where
  aside s t h := (transferRule_collateralOnly.aside s t h).registry.grows
  credit i δ := (transferRule_collateralOnly.credit i δ).mono fun _ _ h => h.registry.grows
  settle a m := (transferRule_collateralOnly.settle a m).mono fun _ _ h => h.registry.grows
  rewrite _ _ _ ha hid := SameAccounts.grows (.of_put ha hid)

theorem enroll_kept (hfree : s.account.accounts.get a.accountIndex = none) :
    Kept s (s.enroll a) := by
  intro i b hb
  refine ⟨b, ?_, rfl⟩
  refine (Table.get_put_ne _ ?_).trans hb
  rintro rfl
  rw [hfree] at hb
  cases hb

theorem getMasterAccountByOwner_error {e : Err} (hs : Indexed s)
    (h : getMasterAccountByOwner owner s = .error e) :
    s.account.ownerToIndex.get owner = none := by
  rw [getMasterAccountByOwner] at h
  cases hget : s.account.ownerToIndex.get owner with
  | none => rfl
  | some i =>
    -- the owner would point to an account that does not exist
    obtain ⟨a, ha, he⟩ := (hs.owners.exact owner i).mp hget
    obtain ⟨-, -, hi⟩ := ownerEntry_eq_some.mp he
    rw [hi] at ha
    rw [hget] at h
    dsimp only at h
    rw [getAccount_eq_ok.mpr ha] at h
    cases h

def firstMaster (s : State) (owner : String) : Account :=
  { accountIndex := max s.account.nextMasterIndex firstUserMasterAccountIndex, ownerAddress := owner }

theorem ensureMasterAccount_ok (h : (ensureMasterAccount owner).run s = .ok a t) :
    (getMasterAccountByOwner owner s = .ok a ∧ t = s) ∨
      ∃ e, getMasterAccountByOwner owner s = .error e ∧ a = firstMaster s owner ∧
        a.accountIndex ≤ maxMasterAccountIndex ∧ t = (s.withMasters (a.accountIndex + 1)).enroll a := by
  obtain ⟨found, hfound, h⟩ := run_bind_read_ok.mp h
  obtain rfl : getMasterAccountByOwner owner s = found := Except.ok.inj hfound
  cases hget : getMasterAccountByOwner owner s with
  | ok b =>
    rw [hget] at h
    obtain ⟨rfl, rfl⟩ := run_pure_ok.mp h
    exact Or.inl ⟨rfl, rfl⟩
  | error e =>
    rw [hget] at h
    obtain ⟨-, h⟩ := run_bind_require_ok.mp h
    obtain ⟨next, hnext, h⟩ := run_bind_read_ok.mp h
    obtain rfl : s.account.nextMasterIndex = next := Except.ok.inj hnext
    rw [run_bind_write] at h
    obtain ⟨hmax, h⟩ := run_bind_require_ok.mp h
    obtain ⟨_, u, hcreate, h⟩ := run_bind_ok.mp h
    obtain ⟨rfl, rfl⟩ := run_pure_ok.mp h
    rw [createAccount_run] at hcreate
    cases hcreate
    exact Or.inr ⟨e, rfl, rfl, not_lt.mp hmax, rfl⟩

/-- **The master of an owner is the one it has, or a new one with a free index.** -/
theorem ensureMasterAccount_grows (hs : Indexed s)
    (h : (ensureMasterAccount owner).run s = .ok a t) :
    Indexed t ∧ Kept s t ∧
      (s.account.accounts.get a.accountIndex = some a ∧ t = s ∨
        s.account.accounts.get a.accountIndex = none) := by
  rcases ensureMasterAccount_ok h with ⟨hget, rfl⟩ | ⟨e, hget, ha, hmax, rfl⟩
  · refine ⟨hs, fun _ b hb => ⟨b, hb, rfl⟩, Or.inl ⟨?_, rfl⟩⟩
    rw [getMasterAccountByOwner] at hget
    cases hidx : t.account.ownerToIndex.get owner with
    | none =>
      rw [hidx] at hget
      cases hget
    | some i =>
      rw [hidx] at hget
      have hrow := getAccount_eq_ok.mp hget
      rwa [← Table.key_of_get hrow] at hrow
  · have hlow : firstUserMasterAccountIndex ≤ a.accountIndex := by
      rw [ha]
      exact le_max_right _ _
    have hnext : s.account.nextMasterIndex ≤ a.accountIndex := by
      rw [ha]
      exact le_max_left _ _
    have hfree : s.account.accounts.get a.accountIndex = none := by
      cases hget : s.account.accounts.get a.accountIndex with
      | none => rfl
      | some b =>
        have := hs.masters _ b hget hlow hmax
        omega
    have hmoved : Indexed (s.withMasters (a.accountIndex + 1)) := by
      refine ⟨fun i b hb h1 h2 => ?_, hs.subs, hs.owners⟩
      have := hs.masters i b hb h1 h2
      show i < a.accountIndex + 1
      omega
    have howner : a.isOwnedMaster = true →
        (s.withMasters (a.accountIndex + 1)).account.ownerToIndex.get a.ownerAddress = none := by
      intro _
      rw [ha]
      show s.account.ownerToIndex.get owner = none
      exact getMasterAccountByOwner_error hs hget
    refine ⟨hmoved.enroll hfree howner (fun _ _ => Nat.lt_succ_self _) ?_, enroll_kept hfree,
      Or.inr hfree⟩
    intro hsub
    -- masters end where the other accounts begin
    unfold maxMasterAccountIndex at hmax
    unfold minSubAccountIndex at hsub
    omega

theorem allocatePoolSubAccountIndex_ok (h : allocatePoolSubAccountIndex.run s = .ok i t) :
    i = max s.account.nextSubIndex minSubAccountIndex ∧ i ≤ maxAccountIndex ∧
      t = s.withSubs (i + 1) := by
  obtain ⟨next, hnext, h⟩ := run_bind_read_ok.mp h
  obtain rfl : s.account.nextSubIndex = next := Except.ok.inj hnext
  rw [run_bind_write] at h
  obtain ⟨hmax, h⟩ := run_bind_require_ok.mp h
  obtain ⟨rfl, rfl⟩ := run_pure_ok.mp h
  exact ⟨rfl, not_lt.mp hmax, rfl⟩

theorem allocated_grows (hs : Indexed s) (hkind : a.accountType ≠ .master)
    (hidx : a.accountIndex = max s.account.nextSubIndex minSubAccountIndex)
    (hmax : a.accountIndex ≤ maxAccountIndex) :
    Indexed ((s.withSubs (a.accountIndex + 1)).enroll a) ∧
      Kept s ((s.withSubs (a.accountIndex + 1)).enroll a) ∧
      s.account.accounts.get a.accountIndex = none := by
  have hlow : minSubAccountIndex ≤ a.accountIndex := by
    rw [hidx]
    exact le_max_right _ _
  have hnext : s.account.nextSubIndex ≤ a.accountIndex := by
    rw [hidx]
    exact le_max_left _ _
  have hfree : s.account.accounts.get a.accountIndex = none := by
    cases hget : s.account.accounts.get a.accountIndex with
    | none => rfl
    | some b =>
      have := hs.subs _ b hget hlow hmax
      omega
  have hmoved : Indexed (s.withSubs (a.accountIndex + 1)) := by
    refine ⟨hs.masters, fun i b hb h1 h2 => ?_, hs.owners⟩
    have := hs.subs i b hb h1 h2
    show i < a.accountIndex + 1
    omega
  refine ⟨hmoved.enroll hfree (fun howned => ?_) ?_ fun _ _ => Nat.lt_succ_self _,
    enroll_kept hfree, hfree⟩
  · simp [Account.isOwnedMaster, hkind] at howned
  · intro _ hmaster
    unfold maxMasterAccountIndex at hmaster
    unfold minSubAccountIndex at hlow
    omega

/-- An account under a master, with nothing in it. -/
def subOf (master : Account) (i : ℕ) : Account :=
  { accountIndex := i, masterAccountIndex := master.accountIndex, ownerAddress := master.ownerAddress,
    accountType := .sub }

theorem createSubAccount_ok {master : Account} (h : (createSubAccount master).run s = .ok a t) :
    a = subOf master a.accountIndex ∧ a.accountIndex = max s.account.nextSubIndex minSubAccountIndex ∧
      a.accountIndex ≤ maxAccountIndex ∧ t = (s.withSubs (a.accountIndex + 1)).enroll a := by
  obtain ⟨-, h⟩ := run_bind_require_ok.mp h
  obtain ⟨i, s₁, halloc, h⟩ := run_bind_ok.mp h
  obtain ⟨_, s₂, hcreate, h⟩ := run_bind_ok.mp h
  obtain ⟨rfl, rfl⟩ := run_pure_ok.mp h
  rw [createAccount_run] at hcreate
  cases hcreate
  obtain ⟨hidx, hmax, rfl⟩ := allocatePoolSubAccountIndex_ok halloc
  exact ⟨rfl, hidx, hmax, rfl⟩

theorem createSubAccount_grows {master : Account} (hs : Indexed s)
    (h : (createSubAccount master).run s = .ok a t) :
    Indexed t ∧ Kept s t ∧ s.account.accounts.get a.accountIndex = none := by
  obtain ⟨hsub, hidx, hmax, rfl⟩ := createSubAccount_ok h
  refine allocated_grows hs ?_ hidx hmax
  rw [hsub]
  simp [subOf]

section Steps

variable [AddressCodec]

/-- The pool that a message makes of the collateral of its master. -/
def MsgCreatePublicPool.toAccount (msg : MsgCreatePublicPool) (i : ℕ) (master : Account) :
    Account where
  accountIndex := i
  masterAccountIndex := master.accountIndex
  ownerAddress := master.ownerAddress
  accountType := .publicPool
  collateral := msg.initialTotalShares * initialPoolShareValue * usdcToCollateralMultiplier
  publicPoolInfo := some {
    operatorFee := msg.operatorFee
    minOperatorShareRate := msg.minOperatorShareRate
    totalShares := msg.initialTotalShares
    operatorShares := msg.initialTotalShares
    strategies := List.replicate nbStrategies 0 }

theorem createPublicPool_ok {msg : MsgCreatePublicPool}
    (h : (createPublicPool msg).run s = .ok i t) :
    ∃ master s₁, msg.validateBasic = .ok () ∧
      (settleAllPositionFunding master.accountIndex).run s = .ok () s₁ ∧
      i = max s₁.account.nextSubIndex minSubAccountIndex ∧ i ≤ maxAccountIndex ∧
      CollateralOnly ((s₁.withSubs (i + 1)).enroll (msg.toAccount i master)) t := by
  obtain ⟨_, hvalid, h⟩ := run_bind_lift_ok.mp h
  obtain ⟨master, hmaster, h⟩ := run_bind_read_ok.mp h
  obtain ⟨-, h⟩ := run_bind_require_ok.mp h
  obtain ⟨-, h⟩ := run_bind_require_ok.mp h
  obtain ⟨_, s₀, hpay, hgate⟩ := run_bind_ok.mp h
  obtain ⟨-, rfl⟩ := run_require_ok.mp hpay
  obtain ⟨_, s₁, pre, hsettle, -, hmove, -⟩ := underRiskGate_ok hgate
  obtain ⟨j, s₂, halloc, hmove⟩ := run_bind_ok.mp hmove
  obtain ⟨_, s₃, hcreate, hmove⟩ := run_bind_ok.mp hmove
  obtain ⟨_, s₄, hdebit, hmove⟩ := run_bind_ok.mp hmove
  obtain ⟨rfl, rfl⟩ := run_pure_ok.mp hmove
  rw [createAccount_run] at hcreate
  cases hcreate
  obtain ⟨hidx, hmax, rfl⟩ := allocatePoolSubAccountIndex_ok halloc
  exact ⟨master, s₁, hvalid, hsettle, hidx, hmax, (addCollateral_collateralOnly _ _).ok hdebit⟩

theorem createPublicPool_grows {msg : MsgCreatePublicPool} (hs : Indexed s)
    (h : (createPublicPool msg).run s = .ok i t) :
    Indexed t ∧ Kept s t ∧ s.account.accounts.get i = none := by
  obtain ⟨master, s₁, -, hsettle, hidx, hmax, hrest⟩ := createPublicPool_ok h
  have hsettled := (transferRule_collateralOnly.settleAllPositionFunding _).ok hsettle
  obtain ⟨hs₁, hkept₁⟩ := SameAccounts.grows hsettled.registry hs
  obtain ⟨hs₂, hkept₂, hfree⟩ :=
    allocated_grows (a := msg.toAccount i master) hs₁ (by simp [MsgCreatePublicPool.toAccount])
      hidx hmax
  have htotal := trans_of Grows (SameAccounts.grows hsettled.registry)
    (trans_of Grows (fun _ => ⟨hs₂, hkept₂⟩) (SameAccounts.grows hrest.registry)) hs
  refine ⟨htotal.1, htotal.2, ?_⟩
  have hrow := hsettled.row i
  rw [show s₁.account.accounts.get i = none from hfree, Option.map_none, eq_comm,
    Option.map_eq_none_iff] at hrow
  exact hrow

theorem deposit_ok {msg : MsgDeposit} (h : (deposit msg).run s = .ok i t) :
    ∃ owner acc s₁ s₂, s₁.account = s.account ∧
      (ensureMasterAccount owner).run s₁ = .ok acc s₂ ∧ CollateralOnly s₂ t := by
  obtain ⟨_, -, h⟩ := run_bind_lift_ok.mp h
  obtain ⟨asset, -, h⟩ := run_bind_read_ok.mp h
  obtain ⟨-, h⟩ := run_bind_require_ok.mp h
  obtain ⟨params, -, h⟩ := run_bind_read_ok.mp h
  obtain ⟨_, s₁, hmin, h⟩ := run_bind_ok.mp h
  obtain rfl := (requireMinAmount_same _ _ _).ok hmin
  obtain ⟨_, s₁, hsend, h⟩ := run_bind_ok.mp h
  obtain ⟨acc, s₂, hensure, h⟩ := run_bind_ok.mp h
  refine ⟨_, acc, s₁, s₂, (sendCoins_account _ _ _ _).ok hsend, hensure, ?_⟩
  cases hroute : msg.routeType with
  | perps =>
    rw [hroute] at h
    obtain ⟨_, s₃, hcredit, h⟩ := run_bind_ok.mp h
    obtain ⟨-, rfl⟩ := run_pure_ok.mp h
    exact (addCollateral_collateralOnly _ _).ok hcredit
  | spot =>
    rw [hroute] at h
    obtain ⟨_, s₃, hcredit, h⟩ := run_bind_ok.mp h
    obtain ⟨-, rfl⟩ := run_pure_ok.mp h
    exact (transferRule_collateralOnly.addAccountAssetBalance _ _ _).ok hcredit

theorem deposit_grows {msg : MsgDeposit} (h : (deposit msg).run s = .ok i t) :
    Grows s t := by
  obtain ⟨owner, acc, s₁, s₂, hsent, hensure, hcredited⟩ := deposit_ok h
  have hensured : Grows s₁ s₂ := fun hs₁ =>
    ⟨(ensureMasterAccount_grows hs₁ hensure).1, (ensureMasterAccount_grows hs₁ hensure).2.1⟩
  exact trans_of Grows (SameAccounts.grows (.of_account hsent)) (trans_of Grows hensured
    (SameAccounts.grows hcredited.registry))

theorem updateMargin_collateralOnly (msg : MsgUpdateMargin) :
    Keeps CollateralOnly (updateMargin msg) := by
  refine Keeps.read.bind fun _ => (requireOwner_same _ _).of_eq.bind fun _ => ?_
  refine underRiskGate_keeps
    ((settlePositionFunding_keeps _ _).mono fun _ _ h => h.collateralOnly) ?_
  refine Keeps.read.bind fun pos => Keeps.require.bind fun _ => ?_
  cases msg.action with
  | addMargin =>
    exact (updatePosition_collateralOnly _ _ _).bind fun _ => addCollateral_collateralOnly _ _
  | removeMargin =>
    exact Keeps.require.bind fun _ => (updatePosition_collateralOnly _ _ _).bind fun _ =>
      addCollateral_collateralOnly _ _

theorem updateLeverage_collateralOnly (msg : MsgUpdateLeverage) :
    Keeps CollateralOnly (updateLeverage msg) := by
  refine Keeps.read.bind fun _ => (requireOwner_same _ _).of_eq.bind fun _ => ?_
  refine Keeps.read.bind fun md => Keeps.require.bind fun _ => Keeps.read.bind fun pos => ?_
  exact Keeps.require.bind fun _ => (updatePosition_collateralOnly _ _ _).bind fun _ => Keeps.pure

theorem AccountStep.grows (h : AccountStep authority s t) : Grows s t := by
  refine h.ofRule poolRule_grows (fun _ _ h => deposit_grows h) (fun _ _ h hs => ?_)
    (fun _ _ h hs => ?_) (fun msg h => ?_) fun msg h => ?_
  · exact ⟨(createSubAccount_grows hs h).1, (createSubAccount_grows hs h).2.1⟩
  · exact ⟨(createPublicPool_grows hs h).1, (createPublicPool_grows hs h).2.1⟩
  · exact SameAccounts.grows ((updateMargin_collateralOnly msg).ok h).registry
  · exact SameAccounts.grows ((updateLeverage_collateralOnly msg).ok h).registry

/-- **No step overwrites an account, as long as the counters are ahead.** -/
theorem ChainStep.grows (h : ChainStep authority s t) : Grows s t := by
  cases h with
  | trading h => exact SameAccounts.grows (h.rule tradingRule_collateralOnly).registry
  | account h => exact h.grows
  | outside h => exact SameAccounts.grows (.of_account h)

end Steps

/-! ### Genesis -/

namespace AccountGenesis

/-- The counters are ahead of every account in their range. -/
structure Ahead (gs : AccountGenesis) : Prop where
  masters : ∀ a ∈ gs.accounts, firstUserMasterAccountIndex ≤ a.accountIndex →
    a.accountIndex ≤ maxMasterAccountIndex → a.accountIndex < gs.counters.nextMasterAccountIndex
  subs : ∀ a ∈ gs.accounts, minSubAccountIndex ≤ a.accountIndex →
    a.accountIndex ≤ maxAccountIndex → a.accountIndex < gs.counters.nextSubAccountIndex

theorem createAccounts_owners {l : List Account} {seen : List ℕ} {owners : List String} {v : PUnit}
    (hvalid : validateAccounts seen owners l = .ok ())
    (hindex : IsIndex s.account.accounts ownerEntry s.account.ownerToIndex)
    (hseen : ∀ i a, s.account.accounts.get i = some a → i ∈ seen)
    (howners : ∀ o i, s.account.ownerToIndex.get o = some i → o ∈ owners)
    (hrun : (l.forM createAccount).run s = .ok v t) :
    IsIndex t.account.accounts ownerEntry t.account.ownerToIndex ∧
      ∀ i a, t.account.accounts.get i = some a → s.account.accounts.get i = some a ∨ a ∈ l := by
  induction l generalizing s seen owners with
  | nil =>
    obtain ⟨-, rfl⟩ := run_pure_ok.mp hrun
    exact ⟨hindex, fun _ _ h => Or.inl h⟩
  | cons a rest ih =>
    obtain ⟨_, s₁, hcreate, hrun⟩ := run_bind_ok.mp hrun
    rw [createAccount_run] at hcreate
    cases hcreate
    simp only [validateAccounts, except_bind_ok, ensure_ok] at hvalid
    obtain ⟨_, hnew, _, howner, _, -, hvalid⟩ := hvalid
    have hfree : s.account.accounts.get a.accountIndex = none := by
      cases hget : s.account.accounts.get a.accountIndex with
      | none => rfl
      | some b => exact absurd (hseen _ b hget) hnew
    have hunowned : a.isOwnedMaster = true → s.account.ownerToIndex.get a.ownerAddress = none := by
      intro hmaster
      cases hget : s.account.ownerToIndex.get a.ownerAddress with
      | none => rfl
      | some i => exact absurd ⟨hmaster, howners _ i hget⟩ howner
    have hseen' : ∀ i b, (s.enroll a).account.accounts.get i = some b → i ∈ a.accountIndex :: seen := by
      intro i b hb
      by_cases hi : i = a.accountIndex
      · exact hi ▸ List.mem_cons_self
      · exact List.mem_cons_of_mem _ (hseen i b ((Table.get_put_ne _ hi).symm.trans hb))
    have howners' : ∀ o i, (s.enroll a).account.ownerToIndex.get o = some i →
        o ∈ if a.isOwnedMaster then a.ownerAddress :: owners else owners := by
      intro o i hget
      unfold State.enroll at hget
      cases hmaster : a.isOwnedMaster with
      | false =>
        simp only [hmaster] at hget
        exact howners o i hget
      | true =>
        simp only [hmaster, if_true, KVStore.get_set] at hget
        split at hget
        · rename_i ho
          exact ho ▸ List.mem_cons_self
        · exact List.mem_cons_of_mem _ (howners o i hget)
    obtain ⟨ht, hrows⟩ := ih hvalid (enroll_owners hindex hfree hunowned) hseen' howners' hrun
    refine ⟨ht, fun i b hb => ?_⟩
    rcases hrows i b hb with hs₁ | hrest
    · by_cases hi : i = a.accountIndex
      · subst hi
        cases (Table.get_put_self _ _).symm.trans hs₁
        exact Or.inr List.mem_cons_self
      · exact Or.inl ((Table.get_put_ne _ hi).symm.trans hs₁)
    · exact Or.inr (List.mem_cons_of_mem _ hrest)

theorem init_indexed {gs : AccountGenesis} {v : Unit} (hvalid : gs.validate = .ok ())
    (hahead : gs.Ahead) (haccounts : s.account.accounts = Table.empty)
    (howners : s.account.ownerToIndex = KVStore.empty) (hrun : gs.init.run s = .ok v t) :
    Indexed t := by
  simp only [validate, except_bind_ok] at hvalid
  obtain ⟨_, -, _, -, _, hvalid, -⟩ := hvalid
  simp only [init, run_bind_write] at hrun
  obtain ⟨_, s₁, h₁, hrun⟩ := run_bind_ok.mp hrun
  obtain ⟨_, s₂, h₂, hrun⟩ := run_bind_ok.mp hrun
  obtain ⟨_, s₃, h₃, hrun⟩ := run_bind_ok.mp hrun
  cases hrun
  have hnone : ∀ i, s.account.accounts.get i = none := fun i => by rw [haccounts]; rfl
  obtain ⟨hindex, hrows⟩ := createAccounts_owners hvalid
    (by show IsIndex s.account.accounts ownerEntry s.account.ownerToIndex
        rw [haccounts, howners]
        exact IsIndex.empty)
    (fun i a ha => by cases (hnone i).symm.trans ha)
    (fun o i ho => by
      rw [show s.account.ownerToIndex.get o = none by rw [howners]; rfl] at ho
      cases ho) h₁
  have hassets : Keeps CollateralOnly (gs.accountAssets.forM setAccountAsset) :=
    Keeps.forM fun a _ => setAccountAsset_collateralOnly a
  have hpositions : Keeps CollateralOnly (gs.accountPositions.forM setPosition) :=
    Keeps.forM fun p _ => setPosition_collateralOnly p
  have hrest : SameRegistry s₁ s₃ :=
    CollateralOnly.registry (trans_of CollateralOnly (hassets.ok h₂) (hpositions.ok h₃))
  have hmem : ∀ i b, s₃.account.accounts.get i = some b → ∃ a ∈ gs.accounts, a.accountIndex = i := by
    intro i b hb
    have hrow := hrest.row i
    rw [hb, Option.map_some, eq_comm] at hrow
    obtain ⟨a, ha, -⟩ := Option.map_eq_some_iff.mp hrow
    rcases hrows i a ha with hs | ha'
    · cases (hnone i).symm.trans hs
    · exact ⟨a, ha', Table.key_of_get ha⟩
  -- the counters are set at the end, so only the owners are followed through the loops
  refine ⟨fun i b hb hlow hhigh => ?_, fun i b hb hlow hhigh => ?_, ?_⟩
  · obtain ⟨a, ha, rfl⟩ := hmem i b hb
    exact lt_of_lt_of_le (hahead.masters a ha hlow hhigh) (le_max_left _ _)
  · obtain ⟨a, ha, rfl⟩ := hmem i b hb
    exact lt_of_lt_of_le (hahead.subs a ha hlow hhigh) (le_max_left _ _)
  · exact hrest.owners_index hindex

end AccountGenesis

/-! ### Runs -/

/-- The index by owner is a bijection between owners and their masters. -/
structure OwnerBijection (s : State) : Prop where
  owned : ∀ o i, s.account.ownerToIndex.get o = some i →
    ∃ a, s.account.accounts.get i = some a ∧ a.accountType = .master ∧ a.ownerAddress = o
  found : ∀ i a, s.account.accounts.get i = some a → a.accountType = .master →
    a.ownerAddress ≠ "" → s.account.ownerToIndex.get a.ownerAddress = some i
  injective : ∀ o o' i, s.account.ownerToIndex.get o = some i →
    s.account.ownerToIndex.get o' = some i → o = o'

theorem Indexed.bijection (h : Indexed s) : OwnerBijection s := by
  have howned : ∀ o i, s.account.ownerToIndex.get o = some i → ∃ a,
      s.account.accounts.get i = some a ∧ a.isOwnedMaster = true ∧ a.ownerAddress = o := by
    intro o i hget
    obtain ⟨a, ha, he⟩ := (h.owners.exact o i).mp hget
    obtain ⟨hmaster, ho, hi⟩ := ownerEntry_eq_some.mp he
    exact ⟨a, hi ▸ ha, hmaster, ho⟩
  refine ⟨fun o i hget => ?_, fun i a ha hmaster howner => ?_, fun o o' i hget hget' => ?_⟩
  · obtain ⟨a, ha, hmaster, ho⟩ := howned o i hget
    simp only [Account.isOwnedMaster, Bool.and_eq_true, decide_eq_true_eq] at hmaster
    exact ⟨a, ha, hmaster.1, ho⟩
  · have hkey : a.accountIndex = i := Table.key_of_get ha
    refine h.owners.get (r := a) (by rw [hkey]; exact ha) (ownerEntry_eq_some.mpr ⟨?_, rfl, hkey⟩)
    simp [Account.isOwnedMaster, hmaster, howner]
  · obtain ⟨a, ha, -, ho⟩ := howned o i hget
    obtain ⟨a', ha', -, ho'⟩ := howned o' i hget'
    cases ha.symm.trans ha'
    exact ho.symm.trans ho'

section Runs

variable [AddressCodec]

/-- A keeper creates an account, or a step of the chain. -/
inductive RegistryStep (authority : String) (s : State) : State → Prop
  | ensureMaster {t : State} (owner : String) {a : Account}
      (h : (ensureMasterAccount owner).run s = .ok a t) : RegistryStep authority s t
  | createSub {t : State} (master : Account) {a : Account}
      (h : (createSubAccount master).run s = .ok a t) : RegistryStep authority s t
  | step {t : State} (h : ChainStep authority s t) : RegistryStep authority s t

theorem RegistryStep.grows (h : RegistryStep authority s t) : Grows s t := by
  intro hs
  cases h with
  | ensureMaster owner h =>
    obtain ⟨ht, hkept, -⟩ := ensureMasterAccount_grows hs h
    exact ⟨ht, hkept⟩
  | createSub master h =>
    obtain ⟨ht, hkept, -⟩ := createSubAccount_grows hs h
    exact ⟨ht, hkept⟩
  | step h => exact h.grows hs

/-- **Indexes of accounts are never reused.**  From an accepted genesis whose counters are ahead of its
accounts, in every state that is reached the index by owner is a bijection, no step overwrites an
account, and a new account gets an index that no account has. -/
theorem account_indexes_unique {authority : String} {gs : AccountGenesis} {s s₀ t : State}
    (hvalid : gs.validate = .ok ()) (hahead : gs.Ahead)
    (haccounts : s.account.accounts = Table.empty)
    (howners : s.account.ownerToIndex = KVStore.empty) (hinit : gs.init.run s = .ok () s₀)
    (hrun : Relation.ReflTransGen (RegistryStep authority) s₀ t) :
    OwnerBijection t ∧ (∀ u, RegistryStep authority t u → Kept t u) ∧
      (∀ owner a u, (ensureMasterAccount owner).run t = .ok a u →
        t.account.accounts.get a.accountIndex = some a ∧ u = t ∨
          t.account.accounts.get a.accountIndex = none) ∧
      (∀ master a u, (createSubAccount master).run t = .ok a u →
        t.account.accounts.get a.accountIndex = none) ∧
      ∀ msg i u, (createPublicPool msg).run t = .ok i u → t.account.accounts.get i = none := by
  have ht : Indexed t := by
    have hs₀ := gs.init_indexed hvalid hahead haccounts howners hinit
    induction hrun with
    | refl => exact hs₀
    | tail _ hstep ih => exact (hstep.grows ih).1
  exact ⟨ht.bijection, fun u hstep => (hstep.grows ht).2,
    fun owner a u h => (ensureMasterAccount_grows ht h).2.2,
    fun master a u h => (createSubAccount_grows ht h).2.2,
    fun msg i u h => (createPublicPool_grows ht h).2.2⟩

end Runs

/-- One master, and a counter that has passed it. -/
def alicesGenesis : AccountGenesis where
  counters := { nextMasterAccountIndex := 3 }
  accounts := [{ accountIndex := 2, ownerAddress := "alice" }]

/-- A second owner gets the next index. -/
theorem account_indexes_unique_second_owner :
    let _ := AddressCodec.acceptAll
    let s₀ := after alicesGenesis.init {}
    alicesGenesis.validate = .ok () ∧
      ∀ a u, (ensureMasterAccount "bob").run s₀ = .ok a u →
        s₀.account.accounts.get a.accountIndex = some a ∧ u = s₀ ∨
          s₀.account.accounts.get a.accountIndex = none := by
  intro _ s₀
  have hahead : alicesGenesis.Ahead := by
    constructor
    · decide
    · decide
  have hinit : alicesGenesis.init.run {} = .ok () s₀ := run_of_succeeds (by decide +kernel)
  exact ⟨rfl, (@account_indexes_unique _ "gov" _ _ _ _ rfl hahead rfl rfl hinit .refl).2.2.1 "bob"⟩

/-- The same master, with the counter where a chain without masters would start. -/
def staleGenesis : AccountGenesis where
  accounts := [{ accountIndex := 2, ownerAddress := "alice" }]

/-- **An account of genesis is overwritten.**  The next owner gets the index of the account that is
there, and both owners then find the same account. -/
theorem genesis_account_overwritten :
    let s₀ := after staleGenesis.init {}
    let bob : Account := { accountIndex := 2, ownerAddress := "bob" }
    staleGenesis.validate = .ok () ∧ Txn.succeeds staleGenesis.init {} = true ∧
      Txn.value (ensureMasterAccount "bob") s₀ = some bob ∧
      s₀.account.accounts.get 2 = some { accountIndex := 2, ownerAddress := "alice" } ∧
      (after (ensureMasterAccount "bob") s₀).account.accounts.get 2 = some bob ∧
      (after (ensureMasterAccount "bob") s₀).account.ownerToIndex.get "alice" = some 2 ∧
      (after (ensureMasterAccount "bob") s₀).account.ownerToIndex.get "bob" = some 2 := by
  refine ⟨rfl, ?_⟩
  decide +kernel

end PerpDex
