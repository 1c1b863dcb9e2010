/-
Spot balances are covered and backed.

* `initAssets_registry` — no two assets share a denomination;
* `Covered`, `Backed`, `SpotSolvent` — no lock exceeds its balance, and the balances of an asset are worth
  the coins the module account holds of it.

Main results: `spot_solvency`, `Move.spotRun`.

The module account signs no message and receives no withdrawal, and the treasury is no party to a fill.
The margin asset is not backed coin by coin, because a deposit of it may become collateral.
-/
import PerpDex.Chain
import PerpDex.DeskBook
import PerpDex.Solvency
import PerpDex.SpotLedger

namespace PerpDex

open Txn

variable {s t u : State}

/-! ### The registry of assets -/

structure AssetStore where
  assets : Table Asset.assetIndex := Table.empty
  denomToIndex : KVStore String ℕ := KVStore.empty

/-- Register an asset whose index and denomination are new. -/
def createAsset (a : Asset) : Txn Err AssetStore Unit := do
  let idx := a.assetIndex
  let denom := a.denom
  Txn.require (a.assetIndex ≠ nilAssetIndex) ⟨.invalidAssetParams, "asset_index must not be nil"⟩
  let taken ← Txn.read fun g => .ok (g.assets.get a.assetIndex).isSome
  Txn.require (taken = false) ⟨.assetExists, s!"asset_index={idx}"⟩
  let taken ← Txn.read fun g => .ok (g.denomToIndex.has a.denom)
  Txn.require (taken = false) ⟨.assetExists, s!"denom={denom}"⟩
  Txn.write fun g => { g with assets := g.assets.put a }
  Txn.write fun g => { g with denomToIndex := g.denomToIndex.set a.denom a.assetIndex }

def initAssets (genesis : List Asset) : Txn Err AssetStore Unit := genesis.forM createAsset

/-- The index by denomination is exact; in particular no denomination is used twice. -/
def AssetStore.Registered (g : AssetStore) : Prop :=
  IsIndex g.assets (fun a => some (a.denom, a.assetIndex)) g.denomToIndex

theorem createAsset_registered {a : Asset} {g g' : AssetStore} {r : Unit}
    (hg : g.Registered) (h : (createAsset a).run g = .ok r g') : g'.Registered := by
  obtain ⟨-, h⟩ := run_bind_require_ok.mp h
  obtain ⟨taken, htaken, h⟩ := run_bind_read_ok.mp h
  obtain ⟨hfree, h⟩ := run_bind_require_ok.mp h
  obtain ⟨taken', htaken', h⟩ := run_bind_read_ok.mp h
  obtain ⟨hnew, h⟩ := run_bind_require_ok.mp h
  cases run_write.symm.trans h
  have hnone : g.assets.get a.assetIndex = none := by
    rw [Except.ok.inj htaken.symm] at hfree
    simpa using hfree
  have hdenom : g.denomToIndex.get a.denom = none := by
    rw [← Except.ok.inj htaken', KVStore.has] at hnew
    simpa using hnew
  have hunused : ∀ (b : Asset) d w w', g.assets.get b.assetIndex = some b →
      some (a.denom, a.assetIndex) = some (d, w) → some (b.denom, b.assetIndex) = some (d, w') →
      b.assetIndex = a.assetIndex := by
    intro b d w w' hb ha hsame
    obtain ⟨hd, -⟩ := Prod.mk.inj (Option.some.inj ha)
    have hlisted := hg.get hb hsame
    rw [← hd, hdenom] at hlisted
    exact absurd hlisted (by simp)
  have hput : IsIndex (g.assets.put a) (fun a => some (a.denom, a.assetIndex)) _ :=
    hg.put a (fun _ _ => rfl) hunused
  rw [hnone] at hput
  exact hput

theorem initAssets_registered {genesis : List Asset} {g g' : AssetStore} {r : Unit}
    (hg : g.Registered) (h : (initAssets genesis).run g = .ok r g') : g'.Registered :=
  forM_rule (P := fun _ g => g.Registered)
    (fun _ _ _ _ _ hu _ hrun => createAsset_registered hu hrun) h hg

/-! ### Solvency -/

/-- No lock is negative, and none exceeds its balance. -/
def Covered (s : State) : Prop := ∀ a i, 0 ≤ lockedOf s a i ∧ lockedOf s a i ≤ balanceOf s a i

/-- The balances of an asset that is no margin are worth the coins deposited of it. -/
def Backed (s : State) : Prop := ∀ i asset, s.assets.get i = some asset →
  asset.marginEnabled = false →
  spotSum s i = asset.extensionMultiplier * bankBalance s accountModuleName asset.denom

structure SpotSolvent (s : State) : Prop where
  covered : Covered s
  backed : Backed s

/-- The ledger is solvent after a step, and the registry is the same. -/
structure StaysSolvent (s t : State) : Prop where
  solvent : SpotSolvent t
  assets : t.assets = s.assets

/-! ### Moves between accounts -/

/-- The locks are covered, and no asset, no sum of balances and no coin differs. -/
structure Redistributed (s t : State) : Prop where
  covered : Covered t
  sum : ∀ i, spotSum t i = spotSum s i
  assets : t.assets = s.assets
  bank : t.bank = s.bank

/-- From covered locks, balances are redistributed. -/
def Redistributes (s t : State) : Prop := Covered s → Redistributed s t

instance : IsPreorder State Redistributes where
  refl _ hs := ⟨hs, fun _ => rfl, rfl, rfl⟩
  trans _ _ _ h h' hs := by
    have ht := h hs
    have hu := h' ht.covered
    exact ⟨hu.covered, fun i => (hu.sum i).trans (ht.sum i), hu.assets.trans ht.assets,
      hu.bank.trans ht.bank⟩

theorem SameSpot.covered (h : SameSpot s t) (hs : Covered s) : Covered t := fun a i => by
  rw [h.locked, h.balance]
  exact hs a i

theorem SameSpot.redistributes (h : SameSpot s t) : Redistributes s t := fun hs =>
  ⟨h.covered hs, h.sum, h.assets, h.bank⟩

theorem SpotMove.redistributed {i : ℕ} {b l : ℕ → ℤ} (h : SpotMove i b l s t) (F : Finset ℕ)
    (hb : ∀ a ∉ F, b a = 0) (hsum : ∑ a ∈ F, b a = 0) (hs : Covered s)
    (hcover : ∀ a, 0 ≤ lockedOf s a i + l a ∧ lockedOf s a i + l a ≤ balanceOf s a i + b a) :
    Redistributed s t where
  covered a j := by
    rw [h.locked, h.balance]
    by_cases hj : j = i
    · subst hj
      simpa using hcover a
    · simpa [hj] using hs a j
  sum j := by rw [h.spotSum_eq F hb, hsum, ite_self, add_zero]
  assets := by rw [h.frame]
  bank := by rw [h.frame]

theorem transfer_redistributes {src dst : ℕ} (hne : src ≠ dst) (i : ℕ) (x : ℤ) (drain : Bool) :
    Keeps Redistributes (transferAccountAssetBalance src dst i x drain) := by
  refine transferAccountAssetBalance_failsFirst.keeps fun s _ t h hs => ?_
  obtain ⟨hlow, hhigh⟩ := hs src i
  obtain ⟨hmove, hx, hhave⟩ := SpotMove.of_transfer hne hlow h
  refine hmove.redistributed {src, dst} (fun a ha => ?_) ?_ hs fun a => ?_
  · simp only [Finset.mem_insert, Finset.mem_singleton, not_or] at ha
    simp [ha.1, ha.2]
  · rw [Finset.sum_pair hne]
    simp [hne, hne.symm]
  · obtain ⟨hlow', hhigh'⟩ := hs a i
    by_cases hsrc : a = src
    · subst hsrc
      simp only [Pi.add_apply, Pi.single_eq_same, Pi.single_eq_of_ne hne]
      unfold drained
      unfold payable at hhave
      cases drain <;> simp only [if_true, Bool.false_eq_true, if_false] at hhave ⊢ <;> omega
    · by_cases hdst : a = dst
      · subst hdst
        simp only [Pi.add_apply, Pi.single_eq_same, Pi.single_eq_of_ne hsrc]
        omega
      · simp only [Pi.add_apply, Pi.single_eq_of_ne hsrc, Pi.single_eq_of_ne hdst]
        omega

theorem lockRule_redistributes : LockRule Redistributes where
  book _ _ h := (SameSpot.of_bookOnly h).redistributes
  lock acc i x := by
    refine increaseLockedBalance_failsFirst.keeps fun s _ t h hs => ?_
    obtain ⟨hmove, hx, havail⟩ := SpotMove.of_increase h
    refine hmove.redistributed ∅ (fun _ _ => rfl) rfl hs fun a => ?_
    obtain ⟨hlow, hhigh⟩ := hs a i
    by_cases ha : a = acc
    · subst ha
      simp only [Pi.single_eq_same, Pi.zero_apply]
      omega
    · simp only [Pi.single_eq_of_ne ha, Pi.zero_apply]
      omega
  release acc i x := by
    refine decreaseLockedBalance_failsFirst.keeps fun s _ t h hs => ?_
    obtain ⟨hmove, hx⟩ := SpotMove.of_decrease (hs acc i).1 h
    refine hmove.redistributed ∅ (fun _ _ => rfl) rfl hs fun a => ?_
    obtain ⟨hlow, hhigh⟩ := hs a i
    by_cases ha : a = acc
    · subst ha
      simp only [Pi.single_eq_same, Pi.zero_apply]
      omega
    · simp only [Pi.single_eq_of_ne ha, Pi.zero_apply]
      omega

theorem spotFill_redistributes {f : SpotFill} (hne : f.makerAccountIndex ≠ f.takerAccountIndex)
    (hmaker : f.makerAccountIndex ≠ treasuryAccountIndex)
    (htaker : f.takerAccountIndex ≠ treasuryAccountIndex) (base quote : ℕ) :
    Keeps Redistributes (applySpotMatching f base quote) := by
  have hdebit : ∀ {src dst : ℕ} (shortfall drain i x), src ≠ dst →
      Keeps Redistributes (spotDebit shortfall drain src dst i x) := fun _ drain i x h =>
    Keeps.ite (fun _ => Keeps.throw) fun _ => (transfer_redistributes h i x drain).mapError
  refine Keeps.bind ?_ fun _ => Keeps.when fun _ =>
    (Keeps.when fun _ => hdebit _ _ _ _ htaker).bind fun _ =>
      Keeps.when fun _ => hdebit _ _ _ _ hmaker
  exact Keeps.ite (fun _ => (hdebit _ _ _ _ hne).bind fun _ => hdebit _ _ _ _ hne.symm)
    fun _ => (hdebit _ _ _ _ hne).bind fun _ => hdebit _ _ _ _ hne.symm

/-! ### Coins -/

theorem sendCoins_balances {src dst denom : String} {amount : ℕ} {r : Unit} (hne : src ≠ dst)
    (h : (sendCoins src dst denom amount).run s = .ok r t) :
    t = { s with bank := t.bank } ∧ ∀ d,
      (bankBalance t src d : ℤ) = bankBalance s src d - (if d = denom then amount else 0 : ℤ) ∧
      (bankBalance t dst d : ℤ) = bankBalance s dst d + (if d = denom then amount else 0 : ℤ) := by
  obtain ⟨have_, hhave, h⟩ := run_bind_read_ok.mp h
  cases hhave
  obtain ⟨hle, h⟩ := run_bind_require_ok.mp h
  rw [setBankBalance, run_bind_write] at h
  obtain ⟨held, hheld, h⟩ := run_bind_read_ok.mp h
  cases run_write.symm.trans h
  have hkey : ∀ {p q d e : String},
      (toLex (p, d) : String ×ₗ String) = toLex (q, e) ↔ p = q ∧ d = e :=
    fun {p q d e} => by rw [EmbeddingLike.apply_eq_iff_eq, Prod.mk.injEq]
  have hheld' : held = bankBalance s dst denom := by
    rw [← Except.ok.inj hheld, bankBalance,
      KVStore.get_set_ne _ _ fun heq => hne (hkey.mp heq).1.symm, bankBalance]
  refine ⟨rfl, fun d => ⟨?_, ?_⟩⟩
  · simp only [bankBalance, KVStore.get_set, hkey, hne, false_and, if_false, true_and]
    split_ifs with hd
    · subst hd
      rw [Option.getD_some]
      exact Nat.cast_sub hle
    · rw [sub_zero]
  · simp only [bankBalance, KVStore.get_set, hkey, hne.symm, false_and, if_false, true_and]
    split_ifs with hd
    · subst hd
      rw [Option.getD_some, hheld', bankBalance]
      exact Nat.cast_add _ _
    · rw [add_zero]

/-! ### Deposits, withdrawals and transfers -/

/-- No two assets share a denomination. -/
def DenomsDiffer (s : State) : Prop := ∀ i j a b, s.assets.get i = some a → s.assets.get j = some b →
  a.denom = b.denom → i = j

theorem AssetStore.Registered.denomsDiffer {g : AssetStore} (h : g.Registered)
    (hs : s.assets = g.assets) : DenomsDiffer s := by
  intro i j a b ha hb hd
  rw [hs] at ha hb
  have hi := Table.key_of_get ha
  have hj := Table.key_of_get hb
  rw [← hi, ← hj]
  exact h.unique a b a.denom a.assetIndex b.assetIndex (hi ▸ ha) (hj ▸ hb) rfl (by rw [hd])

theorem SpotSolvent.of_flow {i : ℕ} {asset : Asset} {n x : ℤ} (hs : SpotSolvent s)
    (hdenoms : DenomsDiffer s) (hasset : s.assets.get i = some asset)
    (hassets : t.assets = s.assets) (hcovered : Covered t)
    (hcoins : ∀ d, (bankBalance t accountModuleName d : ℤ)
      = bankBalance s accountModuleName d + if d = asset.denom then n else 0)
    (hsum : ∀ j, spotSum t j = spotSum s j + if j = i then x else 0)
    (hx : asset.marginEnabled = false → x = n * asset.extensionMultiplier) : StaysSolvent s t := by
  refine ⟨⟨hcovered, fun j other hother hmargin => ?_⟩, hassets⟩
  rw [hassets] at hother
  rw [hsum, hcoins, hs.backed j other hother hmargin]
  by_cases hj : j = i
  · subst hj
    cases hother.symm.trans hasset
    rw [if_pos rfl, if_pos rfl, hx hmargin]
    ring
  · rw [if_neg hj, if_neg fun hd => hj (hdenoms j i other asset hother hasset hd)]
    ring

theorem Redistributed.solvent (h : Redistributed s t) (hs : SpotSolvent s) : StaysSolvent s t := by
  refine ⟨⟨h.covered, fun i asset hasset hmargin => ?_⟩, h.assets⟩
  rw [h.assets] at hasset
  rw [h.sum, bankBalance, h.bank]
  exact hs.backed i asset hasset hmargin

/-- A credit, or a debit of what is not locked. -/
structure Credited (i : ℕ) (x : ℤ) (s t : State) : Prop where
  covered : Covered t
  sum : ∀ j, spotSum t j = spotSum s j + if j = i then x else 0
  assets : t.assets = s.assets
  bank : t.bank = s.bank

theorem Credited.of_add {a i : ℕ} {x : ℤ} {r : Unit} (hs : Covered s)
    (h : (addAccountAssetBalance a i x).run s = .ok r t) : Credited i x s t := by
  obtain ⟨hmove, -, hfree⟩ := SpotMove.of_add h
  refine ⟨fun c j => ?_, fun j => ?_, by rw [hmove.frame], by rw [hmove.frame]⟩
  · obtain ⟨hlow, hhigh⟩ := hs c j
    rw [hmove.locked, hmove.balance]
    simp only [Pi.zero_apply, ite_self, add_zero]
    refine ⟨hlow, ?_⟩
    split_ifs with hj
    · subst hj
      by_cases hc : c = a
      · subst hc
        rw [Pi.single_eq_same]
        omega
      · rw [Pi.single_eq_of_ne hc]
        omega
    · omega
  · have hout : ∀ c ∉ ({a} : Finset ℕ), (Pi.single a x : ℕ → ℤ) c = 0 := fun c hc =>
      Pi.single_eq_of_ne (M := fun _ => ℤ) (fun heq => hc (Finset.mem_singleton.mpr heq)) x
    rw [hmove.spotSum_eq {a} hout, Finset.sum_singleton, Pi.single_eq_same]

theorem Credited.of_sameSpot {i : ℕ} (hs : Covered s) (h : SameSpot s t) : Credited i 0 s t :=
  ⟨h.covered hs, fun j => by rw [h.sum, ite_self, add_zero], h.assets, h.bank⟩

theorem ensureMasterAccount_sameSpot (owner : String) :
    Keeps SameSpot (ensureMasterAccount owner) := by
  refine Keeps.read.bind fun found => ?_
  cases found with
  | ok a => exact Keeps.pure
  | error e =>
    refine Keeps.require.bind fun _ => Keeps.read.bind fun _ =>
      Keeps.bind (Keeps.write fun _ => ⟨rfl, rfl, rfl⟩) fun _ => Keeps.require.bind fun _ => ?_
    exact Keeps.bind (Keeps.bind (Keeps.write fun _ => ⟨rfl, rfl, rfl⟩) fun _ =>
      Keeps.when fun _ => Keeps.write fun _ => ⟨rfl, rfl, rfl⟩) fun _ => Keeps.pure

section Messages

variable [AddressCodec]

theorem deposit_solvent {msg : MsgDeposit} {idx : ℕ} (hsender : msg.sender ≠ accountModuleName)
    (hs : SpotSolvent s) (hdenoms : DenomsDiffer s) (h : (deposit msg).run s = .ok idx t) :
    StaysSolvent s t := by
  obtain ⟨_, -, h⟩ := run_bind_lift_ok.mp h
  obtain ⟨asset, hasset, h⟩ := run_bind_read_ok.mp h
  obtain ⟨hroute, h⟩ := run_bind_require_ok.mp h
  obtain ⟨params, -, h⟩ := run_bind_read_ok.mp h
  obtain ⟨_, s₁, hmin, h⟩ := run_bind_ok.mp h
  obtain rfl := (requireMinAmount_same _ _ _).ok hmin
  obtain ⟨_, s₁, hsend, h⟩ := run_bind_ok.mp h
  obtain ⟨acc, s₂, hensure, h⟩ := run_bind_ok.mp h
  obtain ⟨hframe, hcoins⟩ := sendCoins_balances hsender hsend
  have hensured := (ensureMasterAccount_sameSpot _).ok hensure
  have hs₂ : Covered s₂ := hensured.covered fun a i => by
    rw [hframe]
    exact hs.covered a i
  -- the perps route credits collateral, the spot route the ledger
  obtain ⟨x, hcredited, hx⟩ : ∃ x, Credited msg.assetIndex x s₂ t ∧
      (asset.marginEnabled = false → x = msg.amount * asset.extensionMultiplier) := by
    cases hkind : msg.routeType with
    | perps =>
      rw [hkind] at h
      obtain ⟨_, s₃, hcredit, h⟩ := run_bind_ok.mp h
      obtain ⟨-, rfl⟩ := run_pure_ok.mp h
      exact ⟨0, .of_sameSpot hs₂ ((addCollateral_sameSpot _ _).ok hcredit),
        fun hmargin => absurd ⟨hkind, hmargin⟩ hroute⟩
    | spot =>
      rw [hkind] at h
      obtain ⟨_, s₃, hcredit, h⟩ := run_bind_ok.mp h
      obtain ⟨-, rfl⟩ := run_pure_ok.mp h
      exact ⟨_, .of_add hs₂ hcredit, fun _ => rfl⟩
  refine hs.of_flow hdenoms (enabledAsset_ok hasset) ?_ hcredited.covered (fun d => ?_) (fun j => ?_)
    hx
  · rw [hcredited.assets, hensured.assets, hframe]
  · rw [bankBalance, hcredited.bank, hensured.bank]
    exact (hcoins d).2
  · rw [hcredited.sum, hensured.sum, hframe]
    rfl

/-- Where the coins of a withdrawal go. -/
def MsgWithdraw.recipient (msg : MsgWithdraw) : String :=
  if msg.destinationAddress = "" then msg.sender else msg.destinationAddress

theorem withdraw_solvent {msg : MsgWithdraw} {r : Unit} (hdest : msg.recipient ≠ accountModuleName)
    (hs : SpotSolvent s) (hdenoms : DenomsDiffer s) (h : (withdraw msg).run s = .ok r t) :
    StaysSolvent s t := by
  obtain ⟨_, -, h⟩ := run_bind_lift_ok.mp h
  obtain ⟨_, s₁, howner, hrest⟩ := run_bind_ok.mp h
  obtain rfl := requireOwner_ok howner
  obtain ⟨asset, hasset, hrest⟩ := run_bind_read_ok.mp hrest
  obtain ⟨params, -, hrest⟩ := run_bind_read_ok.mp hrest
  obtain ⟨_, s₂, hmin, hmove⟩ := run_bind_ok.mp hrest
  obtain rfl := (requireMinAmount_same _ _ _).ok hmin
  obtain ⟨x, s₂, hcredited, hx, hsend⟩ : ∃ x s₂, Credited msg.assetIndex x s₁ s₂ ∧
      (asset.marginEnabled = false → x = -(msg.amount * asset.extensionMultiplier)) ∧
      (sendCoins accountModuleName msg.recipient asset.denom msg.amount).run s₂ = .ok r t := by
    cases hkind : msg.routeType with
    | perps =>
      rw [hkind] at hmove
      obtain ⟨hmargin, hmove⟩ := run_bind_require_ok.mp hmove
      obtain ⟨_, s₂, hdebit, hsend⟩ := run_bind_ok.mp hmove
      have hsame : SameSpot s₁ s₂ := (underRiskGate_keeps
        ((settleAllPositionFunding_keeps _).mono fun _ _ => SameSpot.of_settled)
        (addCollateral_sameSpot _ _)).ok hdebit
      exact ⟨0, s₂, .of_sameSpot hs.covered hsame, fun hoff => absurd (hmargin.symm.trans hoff)
        (by decide), hsend⟩
    | spot =>
      rw [hkind] at hmove
      obtain ⟨_, s₂, hdebit, hsend⟩ := run_bind_ok.mp hmove
      exact ⟨_, s₂, .of_add hs.covered hdebit, fun _ => rfl, hsend⟩
  obtain ⟨hframe, hcoins⟩ := sendCoins_balances hdest.symm hsend
  refine hs.of_flow (n := -msg.amount) hdenoms (enabledAsset_ok hasset) ?_ (fun a i => ?_)
    (fun d => ?_) (fun j => ?_) fun hmargin => (hx hmargin).trans (neg_mul _ _).symm
  · rw [hframe, hcredited.assets]
  · rw [hframe]
    exact hcredited.covered a i
  · rw [(hcoins d).1, bankBalance, hcredited.bank]
    split_ifs
    · rfl
    · rfl
  · rw [hframe]
    exact hcredited.sum j

theorem transfer_solvent {msg : MsgTransfer} {r : Unit} (hs : SpotSolvent s)
    (h : (transfer msg).run s = .ok r t) : StaysSolvent s t := by
  obtain ⟨_, -, h⟩ := run_bind_lift_ok.mp h
  obtain ⟨_, s₁, howner, hrest⟩ := run_bind_ok.mp h
  obtain rfl := requireOwner_ok howner
  obtain ⟨_, -, hrest⟩ := run_bind_read_ok.mp hrest
  obtain ⟨asset, hasset, hrest⟩ := run_bind_read_ok.mp hrest
  obtain ⟨params, -, hrest⟩ := run_bind_read_ok.mp hrest
  obtain ⟨_, s₂, hmin, hmove⟩ := run_bind_ok.mp hrest
  obtain rfl := (requireMinAmount_same _ _ _).ok hmin
  dsimp only at hmove
  split at hmove
  · have hsame : SameSpot s₁ t := (underRiskGate_keeps
      ((settleAllPositionFunding_keeps _).mono fun _ _ => SameSpot.of_settled)
      ((addCollateral_sameSpot _ _).bind fun _ => addCollateral_sameSpot _ _)).ok hmove
    exact (hsame.redistributes hs.covered).solvent hs
  · obtain ⟨_, s₂, hdebit, hcredit⟩ := run_bind_ok.mp hmove
    have hout := Credited.of_add hs.covered hdebit
    have hin := Credited.of_add hout.covered hcredit
    refine Redistributed.solvent ⟨hin.covered, fun j => ?_, hin.assets.trans hout.assets,
      hin.bank.trans hout.bank⟩ hs
    rw [hin.sum, hout.sum]
    split_ifs
    · ring
    · ring

end Messages

/-! ### Runs -/

/-- The ledger and the registry are the same, and the module account has neither received nor paid
coins. -/
structure LeavesSpot (s t : State) : Prop where
  rows : t.account.accountAssets = s.account.accountAssets
  assets : t.assets = s.assets
  coins : ∀ d, bankBalance t accountModuleName d = bankBalance s accountModuleName d

theorem SameSpot.leavesSpot (h : SameSpot s t) : LeavesSpot s t :=
  ⟨h.rows, h.assets, fun d => by rw [bankBalance, h.bank, bankBalance]⟩

theorem LeavesSpot.solvent (h : LeavesSpot s t) (hs : SpotSolvent s) : StaysSolvent s t := by
  refine ⟨⟨fun a i => ?_, fun i asset hasset hmargin => ?_⟩, h.assets⟩
  · rw [lockedOf, balanceOf, getAccountAsset, h.rows]
    exact hs.covered a i
  · rw [h.assets] at hasset
    rw [spotSum, h.rows, h.coins]
    exact hs.backed i asset hasset hmargin

section Runs

variable [AddressCodec]

/-- A message that moves balances, an operation on an order, a fill, or something that has nothing to
do with the ledger.  The coins of a deposit come from a user and those of a withdrawal go to one; a
fill is between two accounts other than the treasury. -/
inductive SpotStep (s : State) : State → Prop
  | deposit {t : State} (msg : MsgDeposit) {idx : ℕ} (hsender : msg.sender ≠ accountModuleName)
      (h : (deposit msg).run s = .ok idx t) : SpotStep s t
  | withdraw {t : State} (msg : MsgWithdraw) (hdest : msg.recipient ≠ accountModuleName)
      (h : (withdraw msg).run s = .ok () t) : SpotStep s t
  | transfer {t : State} (msg : MsgTransfer) (h : (transfer msg).run s = .ok () t) : SpotStep s t
  | place (o : Order) : SpotStep s (after (openOrder o) s)
  | cancel (i : ℕ) : SpotStep s (after (cancelOrder i) s)
  | evict (i : ℕ) (st : OrderStatus) : SpotStep s (after (evictMakerOrder i st) s)
  | fill {t : State} (f : SpotFill) (base quote : ℕ)
      (hne : f.makerAccountIndex ≠ f.takerAccountIndex)
      (hmaker : f.makerAccountIndex ≠ treasuryAccountIndex)
      (htaker : f.takerAccountIndex ≠ treasuryAccountIndex)
      (h : (applySpotMatching f base quote).run s = .ok () t) : SpotStep s t
  | aside {t : State} (h : LeavesSpot s t) : SpotStep s t

abbrev SpotRun : State → State → Prop := Relation.ReflTransGen SpotStep

theorem SpotStep.solvent (h : SpotStep s t) (hdenoms : DenomsDiffer s) (hs : SpotSolvent s) :
    StaysSolvent s t := by
  cases h with
  | deposit msg hsender h => exact deposit_solvent hsender hs hdenoms h
  | withdraw msg hdest h => exact withdraw_solvent hdest hs hdenoms h
  | transfer msg h => exact transfer_solvent hs h
  | place o => exact (lockRule_redistributes.openOrder o s hs.covered).solvent hs
  | cancel i => exact (lockRule_redistributes.cancelOrder i s hs.covered).solvent hs
  | evict i st => exact (lockRule_redistributes.evictMakerOrder i st s hs.covered).solvent hs
  | fill f base quote hne hmaker htaker h =>
    exact ((spotFill_redistributes hne hmaker htaker base quote).ok h hs.covered).solvent hs
  | aside h => exact h.solvent hs

theorem prepareOrder_sameSpot (msg : MsgCreateOrder) : Keeps SameSpot (prepareOrder msg) :=
  prepareOrder_keeps (fun _ _ => ⟨rfl, rfl, rfl⟩)
    (allocateNonce_keeps fun _ _ _ _ _ => ⟨rfl, rfl, rfl⟩) msg

theorem SameSpot.run (h : SameSpot s t) : SpotRun s t := .single (.aside h.leavesSpot)

/-- The treasury is no party to the fill of the move, if the move is one. -/
def TreasuryAside (d d' : Desk) : Prop := ∀ k o maker base, d.hand = some (k, o) →
  Trades d.state k o maker base d'.state →
    o.ownerAccountIndex ≠ treasuryAccountIndex ∧ maker.ownerAccountIndex ≠ treasuryAccountIndex

theorem Trades.spotRun {k : Task} {o : Order} {maker : OrderBookEntry} {base : ℕ}
    (h : Trades s k o maker base t) (htaker : o.ownerAccountIndex ≠ treasuryAccountIndex)
    (hmaker : maker.ownerAccountIndex ≠ treasuryAccountIndex) : SpotRun s t := by
  obtain ⟨hfound, -, hkind, htrade, hfill⟩ := h
  refine Relation.ReflTransGen.trans ?_
    (SameSpot.of_bookOnly ((fillMakerOrder_bookOnly _ _).ok hfill)).run
  cases hkind with
  | liquidation => exact (SameSpot.of_traded ((apply_keeps _).ok htrade)).run
  | user _ hmarket =>
    unfold userTrade at htrade
    split at htrade
    · exact (SameSpot.of_traded ((apply_keeps _).ok htrade)).run
    · exact .single (.fill _ _ _ hfound.other hmaker htaker htrade)

/-- **The moves of the exchange are steps of the ledger**, as long as the treasury does not trade,
apart from what comes from other modules. -/
theorem Move.spotRun {d d' : Desk} (h : Move d d') (haside : TreasuryAside d d') :
    SpotRun d.state d'.state ∨ Outside d.state d'.state := by
  cases h with
  | cancel i => exact .inl (.single (.cancel i))
  | accept h => exact .inl ((prepareOrder_sameSpot _).ok h).run
  | park h _ hpark =>
    exact .inl (((prepareOrder_sameSpot _).ok h).run.trans
      (SameSpot.of_bookOnly ((openTriggerOrder_bookOnly _).ok hpark)).run)
  | activate _ _ _ h => exact .inl (SameSpot.of_bookOnly ((activateTrigger_bookOnly _).ok h)).run
  | seize => exact .inl .refl
  | evict => exact .inl (.single (.evict _ _))
  | fill h =>
    obtain ⟨htaker, hmaker⟩ := haside _ _ _ _ rfl h
    exact .inl (h.spotRun htaker hmaker)
  | store _ _ h =>
    exact .inl (.single (after_of_ok h ▸ .place _))
  | abandon h =>
    rcases h with rfl | ⟨st, e, -, h⟩
    · exact .inl (.single (.cancel _))
    · exact .inl ((Relation.ReflTransGen.single (after_of_error h ▸ .place _)).tail (.cancel _))
  | release => exact .inl .refl
  | forced h => exact .inl (SameSpot.of_forced h.forced).run
  | outside h => exact .inr h

/-- **Spot balances are covered and backed.**  From a genesis whose balances are, in every state that
deposits, withdrawals, transfers, orders and fills lead to, no lock exceeds its balance, and the
balances of every asset but the margin asset are worth the coins the module account holds. -/
theorem spot_solvency {genesis : List Asset} {g : AssetStore} {s₀ : State}
    (hgenesis : (initAssets genesis).run {} = .ok () g) (hassets : s₀.assets = g.assets)
    (hs₀ : SpotSolvent s₀) (hrun : SpotRun s₀ s) :
    (∀ a i, 0 ≤ lockedOf s a i ∧ lockedOf s a i ≤ balanceOf s a i) ∧
      ∀ i asset, s.assets.get i = some asset → asset.marginEnabled = false →
        spotSum s i = asset.extensionMultiplier * bankBalance s accountModuleName asset.denom := by
  have hempty : AssetStore.Registered {} := IsIndex.empty
  have hregistered := initAssets_registered hempty hgenesis
  have hkept : StaysSolvent s₀ s := by
    induction hrun with
    | refl => exact ⟨hs₀, rfl⟩
    | tail _ hstep ih =>
      have hnext := hstep.solvent (hregistered.denomsDiffer (ih.assets.trans hassets)) ih.solvent
      exact ⟨hnext.solvent, hnext.assets.trans ih.assets⟩
  exact ⟨hkept.solvent.covered, hkept.solvent.backed⟩

end Runs

/-- Two assets and a market in which one is traded for the other. -/
def spotAssets : List Asset :=
  [{ assetIndex := 4, denom := "uatom", extensionMultiplier := 10
     extensionMultiplier_pos := by decide },
    { assetIndex := 5, denom := "ueur", extensionMultiplier := 1
      extensionMultiplier_pos := by decide }]

def beforeDeposits : State where
  account := { params := { minPartialTransferAmount := 1, minPartialWithdrawAmount := 1 } }
  assets := Table.ofRows spotAssets
  bank := KVStore.ofList [(toLex ("alice", "uatom"), 5), (toLex ("bob", "ueur"), 600)]
  market := {
    markets := Table.ofRows
      [{ marketIndex := 0, marketType := .spot, baseAssetId := 4, quoteAssetId := 5 }] }

theorem beforeDeposits_solvent : SpotSolvent beforeDeposits where
  covered _ _ := ⟨le_rfl, le_rfl⟩
  backed i asset hasset _ := by
    have hcoins : bankBalance beforeDeposits accountModuleName asset.denom = 0 := by
      simp [bankBalance, beforeDeposits, KVStore.ofList, KVStore.get_set, accountModuleName]
    rw [hcoins]
    exact (mul_zero _).symm

def aliceDepositsAtoms : MsgDeposit where
  sender := "alice"
  assetIndex := 4
  amount := 5
  routeType := .spot

def bobDepositsEuros : MsgDeposit where
  sender := "bob"
  assetIndex := 5
  amount := 600
  routeType := .spot

def bobBuysAtoms : SpotFill where
  makerAccountIndex := 2
  takerAccountIndex := 3
  marketIndex := 0
  price := 50
  baseAmount := 10
  isTakerAsk := false
  takerFee := 5000
  makerFee := 2000

def bobWithdrawsAtoms : MsgWithdraw where
  sender := "bob"
  accountIndex := 3
  assetIndex := 4
  amount := 1
  routeType := .spot

/-- Both deposit, Alice offers 10, Bob buys it and withdraws it. -/
theorem spot_solvency_one_trade :
    let _ := AddressCodec.acceptAll
    let s₁ := after (deposit bobDepositsEuros) (after (deposit aliceDepositsAtoms) beforeDeposits)
    let s₂ := after (applySpotMatching bobBuysAtoms 4 5)
      (after (openOrder { restingAsk with price := 50 }) s₁)
    let s₃ := after (withdraw bobWithdrawsAtoms) s₂
    spotSum s₁ 4 = 50 ∧ spotSum s₃ 4 = 40 ∧
      bankBalance s₃ accountModuleName "uatom" = 4 ∧ SpotRun beforeDeposits s₃ ∧
      SpotSolvent s₃ := by
  intro _ s₁ s₂ s₃
  have halice : (deposit aliceDepositsAtoms).run beforeDeposits
      = .ok 2 (after (deposit aliceDepositsAtoms) beforeDeposits) := run_of_value (by decide +kernel)
  have hbob : (deposit bobDepositsEuros).run (after (deposit aliceDepositsAtoms) beforeDeposits)
      = .ok 3 s₁ := run_of_value (by decide +kernel)
  have hfill : (applySpotMatching bobBuysAtoms 4 5).run
      (after (openOrder { restingAsk with price := 50 }) s₁) = .ok () s₂ :=
    run_of_succeeds (by decide +kernel)
  have hout : (withdraw bobWithdrawsAtoms).run s₂ = .ok () s₃ := run_of_succeeds (by decide +kernel)
  have hrun : SpotRun beforeDeposits s₃ :=
    ((((Relation.ReflTransGen.single (.deposit _ (by decide) halice)).tail
      (.deposit _ (by decide) hbob)).tail (.place _)).tail
        (.fill _ 4 5 (by decide) (by decide) (by decide) hfill)).tail (.withdraw _ (by decide) hout)
  have hgenesis : (initAssets spotAssets).run {} = .ok () (after (initAssets spotAssets) {}) :=
    run_of_succeeds (by decide +kernel)
  obtain ⟨hcovered, hbacked⟩ := spot_solvency hgenesis rfl beforeDeposits_solvent hrun
  exact ⟨by decide +kernel, by decide +kernel, by decide +kernel, hrun, hcovered, hbacked⟩

end PerpDex
