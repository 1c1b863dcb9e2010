/-
Shares of pools are never lost or made, and operators keep their part.

Main results: `share_supply_kept`, `shares_lost_with_account`, `operator_floor_kept`,
`operator_floor_missed`.

Both invariants follow from `PoolMove` alone.  The check of the operator's part is left out when the
operator itself mints: what it adds then is enough because the rate is at most the whole.
-/
import PerpDex.PoolShares

namespace PerpDex

open Txn

variable {s t : State}

/-! ### The supply of shares -/

/-- **The shares of a pool** are its operator's or are held in an entry, and the entries of every
account are as they should be. -/
structure ShareSupply (s : State) : Prop where
  supply : ∀ i info, infoAt s i = some info →
    info.totalShares = info.operatorShares + heldShares s i
  operator : ∀ i info, infoAt s i = some info → 0 ≤ info.operatorShares
  entries : ∀ j, EntriesOk (sharesAt s j)

/-- A new account gets no index that an entry in a pool is held under, or that it is for. -/
def SharesUnclaimed (s t : State) : Prop := ∀ i, NewIndex s t i →
  ∀ j, ∀ e ∈ sharesAt s j, (infoAt t e.publicPoolIndex).isSome → j ≠ i ∧ e.publicPoolIndex ≠ i

theorem sharesIn_eq_zero {l : List PublicPoolShare} {k : ℕ} (h : ∀ e ∈ l, e.publicPoolIndex ≠ k) :
    sharesIn l k = 0 := by
  induction l with
  | nil => rfl
  | cons e l ih =>
    rw [sharesIn_cons, if_neg (h e List.mem_cons_self), zero_add]
    exact ih fun x hx => h x (List.mem_cons_of_mem _ hx)

theorem heldShares_eq_zero {pool : ℕ} (h : ∀ j, sharesIn (sharesAt s j) pool = 0) :
    heldShares s pool = 0 := by
  rw [heldShares, Table.sum, KVStore.sum_eq_sum_keys _ _ (Finset.Subset.refl _)]
  refine Finset.sum_eq_zero fun j _ => ?_
  rw [← sharesIn_sharesAt]
  exact h j

theorem PoolMove.shareSupply (h : PoolMove s t) (hunclaimed : SharesUnclaimed s t)
    (hs : ShareSupply s) : ShareSupply t := by
  cases h with
  | rest h =>
    refine ⟨fun i info hi => ?_, fun i info hi => ?_, fun j => ?_⟩
    · rw [h.info] at hi
      rw [heldShares_congr h.shares]
      exact hs.supply i info hi
    · rw [h.info] at hi
      exact hs.operator i info hi
    · rw [h.shares]
      exact hs.entries j
  | enroll i hnew hfresh hempty hinfo hshares =>
    have hclaim := hunclaimed i hnew
    refine ⟨fun k info hk => ?_, fun k info hk => ?_, fun j => ?_⟩
    · have hdiff := heldShares_sub hshares k
      rw [hempty, sharesIn_nil] at hdiff
      have hsome : (infoAt t k).isSome := by rw [hk, Option.isSome_some]
      by_cases hki : k = i
      · -- nobody has an entry in the new pool
        subst hki
        have hnone : ∀ j, sharesIn (sharesAt s j) k = 0 := fun j => sharesIn_eq_zero fun e he hek =>
          (hclaim j e he (hek ▸ hsome)).2 hek
        rw [hnone, heldShares_eq_zero hnone] at hdiff
        rw [(hfresh info hk).total]
        omega
      · -- the new account takes the place of one without entries in the pool
        have hnone : sharesIn (sharesAt s i) k = 0 := sharesIn_eq_zero fun e he hek =>
          (hclaim i e he (hek ▸ hsome)).1 rfl
        rw [hinfo k hki] at hk
        rw [hs.supply k info hk]
        omega
    · by_cases hki : k = i
      · exact (hfresh info (hki ▸ hk)).operator
      · rw [hinfo k hki] at hk
        exact hs.operator k info hk
    · by_cases hji : j = i
      · rw [hji, hempty]
        exact ⟨List.nodup_nil, fun e he => absurd he List.not_mem_nil, Nat.zero_le _⟩
      · rw [hshares j hji]
        exact hs.entries j
  | move i j δ info info' hi hi' hmove hentries hinfo hshares =>
    refine ⟨fun k info₀ hk => ?_, fun k info₀ hk => ?_, fun k => ?_⟩
    · have hdiff := heldShares_sub hshares k
      rw [hentries.moved k] at hdiff
      by_cases hki : k = i
      · subst hki
        cases hi'.symm.trans hk
        have hsupply := hmove.supply
        have hold := hs.supply k info hi
        rw [if_pos rfl] at hdiff
        omega
      · rw [hinfo k hki] at hk
        rw [if_neg hki] at hdiff
        rw [hs.supply k info₀ hk]
        omega
    · by_cases hki : k = i
      · subst hki
        cases hi'.symm.trans hk
        exact hmove.operator (hs.operator k info hi)
      · rw [hinfo k hki] at hk
        exact hs.operator k info₀ hk
    · by_cases hkj : k = j
      · rw [hkj]
        exact hentries.ok (hs.entries j)
      · rw [hshares k hkj]
        exact hs.entries k

/-- **The supply of shares is kept.**  In every state of a run from one in which it is right, if no
new account gets an index that entries in pools are held under or are for. -/
theorem share_supply_kept [AddressCodec] {authority : String} (hs : ShareSupply s)
    (hrun : Relation.ReflTransGen (fun s t => ChainStep authority s t ∧ SharesUnclaimed s t) s t) :
    ShareSupply t := by
  induction hrun with
  | refl => exact hs
  | tail _ hstep ih => exact hstep.1.poolMove.shareSupply hstep.2 ih

/-- The insurance fund, a hundred shares, of which alice holds sixty. -/
def fund : Account where
  accountIndex := 1
  accountType := .insuranceFund
  publicPoolInfo := some {
    totalShares := 100, operatorShares := 40, strategies := List.replicate nbStrategies 0 }

def holder : Account where
  accountIndex := 2
  ownerAddress := "alice"
  publicPoolShares := [
    { publicPoolIndex := 1, shareAmount := 60, principalAmount := 60000, entryTimestamp := 0 }]

def fundGenesis (counter : ℕ) : AccountGenesis where
  counters := { nextMasterAccountIndex := counter }
  accounts := [fund, holder]

theorem usdcMultiplier_pos : 0 < 1000000 := by decide

/-- The chain starts, with coins of bob outside of the exchange. -/
def fundStarted (counter : ℕ) : State := after (fundGenesis counter).init {
  assets := Table.ofRows [{
    assetIndex := 0, denom := "usdc", extensionMultiplier := 1000000, marginEnabled := true,
    extensionMultiplier_pos := usdcMultiplier_pos }]
  bank := KVStore.empty.set (toLex ("bob", "usdc")) 20000000 }

def bobDeposits : MsgDeposit where
  sender := "bob"
  assetIndex := 0
  amount := 20000000
  routeType := .perps

theorem fundStarted_get (counter k : ℕ) : (fundStarted counter).account.accounts.get k =
    if k = 2 then some holder else if k = 1 then some fund else none := by
  have haccounts : (fundStarted counter).account.accounts = (Table.empty.put fund).put holder := rfl
  rw [haccounts, Table.get_put, Table.get_put, Table.get_empty]
  rfl

theorem fundStarted_info (counter k : ℕ) :
    infoAt (fundStarted counter) k = if k = 1 then fund.publicPoolInfo else none := by
  rw [infoAt, fundStarted_get]
  by_cases h₂ : k = 2
  · subst h₂
    rfl
  · by_cases h₁ : k = 1
    · subst h₁
      rfl
    · simp [h₁, h₂]

theorem fundStarted_shares (counter k : ℕ) :
    sharesAt (fundStarted counter) k = if k = 2 then holder.publicPoolShares else [] := by
  rw [sharesAt, fundStarted_get]
  by_cases h₂ : k = 2
  · subst h₂
    rfl
  · by_cases h₁ : k = 1
    · subst h₁
      rfl
    · simp [h₁, h₂]

theorem fundStarted_supply {counter : ℕ} (h : heldShares (fundStarted counter) 1 = 60) :
    ShareSupply (fundStarted counter) := by
  have hinfo : ∀ i info, infoAt (fundStarted counter) i = some info →
      i = 1 ∧ fund.publicPoolInfo = some info := by
    intro i info hi
    rw [fundStarted_info] at hi
    split at hi
    · rename_i h₁
      exact ⟨h₁, hi⟩
    · cases hi
  refine ⟨fun i info hi => ?_, fun i info hi => ?_, fun j => ?_⟩
  · obtain ⟨rfl, hfund⟩ := hinfo i info hi
    rw [h, ← Option.some.inj hfund]
    decide
  · obtain ⟨-, hfund⟩ := hinfo i info hi
    rw [← Option.some.inj hfund]
    decide
  · rw [fundStarted_shares]
    split
    · exact ⟨by decide, by decide, by decide⟩
    · exact ⟨by decide, by decide, by decide⟩

/-- The third master gets the third index, and alice keeps her shares. -/
theorem share_supply_kept_third_master :
    let _ := AddressCodec.acceptAll
    let t := after (deposit bobDeposits) (fundStarted 3)
    (fundGenesis 3).validate = .ok () ∧ (t.account.accounts.get 3).isSome = true ∧
      ShareSupply t := by
  intro _ t
  have hrun : (deposit bobDeposits).run (fundStarted 3) = .ok 3 t :=
    run_of_value (by decide +kernel)
  have hunclaimed : SharesUnclaimed (fundStarted 3) t := by
    rintro i hnew j e he -
    have hi : i = 3 := by
      rcases hnew with ⟨hi, -⟩ | ⟨hi, hsubs⟩
      · exact hi.trans (by decide +kernel)
      · have hsame : t.account.nextSubIndex = minSubAccountIndex := by decide +kernel
        have hnext : max (fundStarted 3).account.nextSubIndex minSubAccountIndex
            = minSubAccountIndex := by decide +kernel
        omega
    rw [fundStarted_shares] at he
    split at he
    · rename_i hj
      rw [hi, hj, List.mem_singleton.mp he]
      decide
    · cases he
  refine ⟨by decide +kernel, by decide +kernel, ?_⟩
  exact @share_supply_kept (fundStarted 3) t _ "gov" (fundStarted_supply (by decide +kernel))
    (.single ⟨.account (.deposit _ hrun), hunclaimed⟩)

/-- **Shares are lost.**  The counter of the genesis is not ahead of alice's account.  The next owner
is written over it, and the sixty shares are nobody's. -/
theorem shares_lost_with_account :
    let _ := AddressCodec.acceptAll
    let s := fundStarted 2
    let t := after (deposit bobDeposits) s
    (fundGenesis 2).validate = .ok () ∧ ShareSupply s ∧ ChainRun "gov" s t ∧
      (infoAt t 1).map (fun info => (info.totalShares, info.operatorShares)) = some (100, 40) ∧
      heldShares t 1 = 0 ∧ ¬ ShareSupply t := by
  intro _ s t
  have hrun : (deposit bobDeposits).run s = .ok 2 t := run_of_value (by decide +kernel)
  have hinfo : infoAt t 1 = fund.publicPoolInfo := by decide +kernel
  have hheld : heldShares t 1 = 0 := by decide +kernel
  refine ⟨by decide +kernel, fundStarted_supply (by decide +kernel),
    .single (.account (.deposit _ hrun)), by decide +kernel, hheld, fun h => ?_⟩
  have hsupply := h.supply 1 _ hinfo
  rw [hheld] at hsupply
  exact absurd hsupply (by decide)

/-! ### The part of the operator -/

/-- **Every active pool is partly its operator's.** -/
def FloorMet (s : State) : Prop := ∀ i info, infoAt s i = some info → info.status = .active →
  info.totalShares * info.minOperatorShareRate ≤ info.operatorShares * shareTick

/-- The same, with a rate that can be met, and no debts of operators. -/
def Floored (s : State) : Prop := ∀ i info, infoAt s i = some info →
  0 ≤ info.operatorShares ∧ info.Floored

theorem PoolMove.floored (h : PoolMove s t) (hs : Floored s) : Floored t := by
  intro k info₀ hk
  cases h with
  | rest h =>
    rw [h.info] at hk
    exact hs k info₀ hk
  | enroll i hnew hfresh hempty hinfo hshares =>
    by_cases hki : k = i
    · have hnew := hfresh info₀ (hki ▸ hk)
      exact ⟨hnew.operator, hnew.floored⟩
    · rw [hinfo k hki] at hk
      exact hs k info₀ hk
  | move i j δ info info' hi hi' hmove hentries hinfo hshares =>
    by_cases hki : k = i
    · subst hki
      cases hi'.symm.trans hk
      obtain ⟨hop, hfloor⟩ := hs k info hi
      exact ⟨hmove.operator hop, hmove.floored hop hfloor⟩
    · rw [hinfo k hki] at hk
      exact hs k info₀ hk

theorem ShareSupply.operator_le (hs : ShareSupply s) {i : ℕ} {info : PublicPoolInfo}
    (hi : infoAt s i = some info) : info.operatorShares ≤ info.totalShares := by
  have hheld : 0 ≤ heldShares s i := by
    rw [heldShares, Table.sum]
    refine KVStore.sum_nonneg fun j a ha => List.sum_nonneg fun x hx => ?_
    obtain ⟨e, he, rfl⟩ := List.mem_map.mp hx
    have hentries := hs.entries j
    rw [sharesAt_of_get ha] at hentries
    have := hentries.positive e he
    split
    · omega
    · exact le_refl 0
  have := hs.supply i info hi
  omega

/-- **The operator's part is kept**, from a state with the right supply of shares in which every active
pool is partly its operator's, if no active pool without shares asks its operator for more than all of
them. -/
theorem operator_floor_kept [AddressCodec] {authority : String} (hsupply : ShareSupply s)
    (hfloor : FloorMet s)
    (hrate : ∀ i info, infoAt s i = some info → info.status = .active → info.totalShares = 0 →
      (info.minOperatorShareRate : ℤ) ≤ shareTick)
    (hrun : ChainRun authority s t) : FloorMet t := by
  have hs : Floored s := by
    intro i info hi
    refine ⟨hsupply.operator i info hi, fun hactive => ⟨?_, hfloor i info hi hactive⟩⟩
    by_cases hzero : info.totalShares = 0
    · exact hrate i info hi hactive hzero
    · have hop := hsupply.operator i info hi
      have hle := hsupply.operator_le hi
      have hpart := hfloor i info hi hactive
      have htotal : 0 < info.totalShares := by omega
      have hall := mul_le_mul_of_nonneg_right hle (show 0 ≤ shareTick by decide)
      exact le_of_mul_le_mul_left (hpart.trans hall) htotal
  have ht : Floored t := hrun.invariant (fun _ _ hs hstep => hstep.poolMove.floored hs) hs
  intro i info hi hactive
  exact ((ht i info hi).2 hactive).2

/-- A pool of alice that has no shares yet. -/
def emptyPool (rate : ℕ) : Account where
  accountIndex := minSubAccountIndex
  masterAccountIndex := 2
  ownerAddress := "alice"
  accountType := .publicPool
  publicPoolInfo := some {
    minOperatorShareRate := rate, strategies := List.replicate nbStrategies 0 }

def founder : Account where
  accountIndex := 2
  ownerAddress := "alice"
  collateral := 9000000000

def poolGenesis (rate : ℕ) : AccountGenesis where
  counters := { nextMasterAccountIndex := 3, nextSubAccountIndex := minSubAccountIndex + 1 }
  accounts := [founder, emptyPool rate]

def poolStarted (rate : ℕ) : State := after (poolGenesis rate).init {}

def operatorMints : MsgMintShares := ⟨"alice", minSubAccountIndex, 5000⟩

theorem poolStarted_get (rate k : ℕ) : (poolStarted rate).account.accounts.get k =
    if k = minSubAccountIndex then some (emptyPool rate) else if k = 2 then some founder else none := by
  have haccounts : (poolStarted rate).account.accounts
      = (Table.empty.put founder).put (emptyPool rate) := rfl
  rw [haccounts, Table.get_put, Table.get_put, Table.get_empty]
  rfl

theorem poolStarted_info (rate k : ℕ) : infoAt (poolStarted rate) k =
    if k = minSubAccountIndex then (emptyPool rate).publicPoolInfo else none := by
  rw [infoAt, poolStarted_get]
  split
  · rfl
  · split
    · rfl
    · rfl

theorem poolStarted_shares (rate k : ℕ) : sharesAt (poolStarted rate) k = [] := by
  rw [sharesAt, poolStarted_get]
  split
  · rfl
  · split
    · rfl
    · rfl

theorem poolStarted_ok (rate : ℕ) : ShareSupply (poolStarted rate) ∧ FloorMet (poolStarted rate) := by
  have hinfo : ∀ i info, infoAt (poolStarted rate) i = some info →
      info.totalShares = 0 ∧ info.operatorShares = 0 := by
    intro i info hi
    rw [poolStarted_info] at hi
    split at hi
    · rw [← Option.some.inj hi]
      exact ⟨rfl, rfl⟩
    · cases hi
  refine ⟨⟨fun i info hi => ?_, fun i info hi => ?_, fun j => ?_⟩, fun i info hi _ => ?_⟩
  · rw [(hinfo i info hi).1, (hinfo i info hi).2, heldShares_eq_zero fun j => ?_, add_zero]
    rw [poolStarted_shares, sharesIn_nil]
  · rw [(hinfo i info hi).2]
  · rw [poolStarted_shares]
    exact ⟨by decide, by decide, by decide⟩
  · rw [(hinfo i info hi).1, (hinfo i info hi).2, zero_mul, zero_mul]

/-- A pool that only its operator can hold. -/
theorem operator_floor_kept_own_pool :
    let _ := AddressCodec.acceptAll
    let t := after (mintShares "gov" operatorMints) (poolStarted 10000)
    (poolGenesis 10000).validate = .ok () ∧
      (infoAt t minSubAccountIndex).map PublicPoolInfo.totalShares = some 5 ∧ FloorMet t := by
  intro _ t
  have hrun : (mintShares "gov" operatorMints).run (poolStarted 10000) = .ok 5 t :=
    run_of_value (by decide +kernel)
  refine ⟨by decide +kernel, by decide +kernel, ?_⟩
  refine @operator_floor_kept (poolStarted 10000) t _ "gov" (poolStarted_ok _).1 (poolStarted_ok _).2
    (fun i info hi _ _ => ?_) (.single (.account (.mintShares _ hrun)))
  rw [poolStarted_info] at hi
  split at hi
  · rw [← Option.some.inj hi]
    decide
  · cases hi

/-- **An operator cannot have its part.**  The pool of the genesis asks its operator for twice the
shares.  The operator mints, unchecked, and has all shares but not its part. -/
theorem operator_floor_missed :
    let _ := AddressCodec.acceptAll
    let s := poolStarted 20000
    let t := after (mintShares "gov" operatorMints) s
    (poolGenesis 20000).validate = .ok () ∧ ShareSupply s ∧ FloorMet s ∧ ChainRun "gov" s t ∧
      (infoAt t minSubAccountIndex).map (fun info => (info.totalShares, info.operatorShares))
        = some (5, 5) ∧ ¬ FloorMet t := by
  intro _ s t
  have hrun : (mintShares "gov" operatorMints).run s = .ok 5 t := run_of_value (by decide +kernel)
  refine ⟨by decide +kernel, (poolStarted_ok _).1, (poolStarted_ok _).2,
    .single (.account (.mintShares _ hrun)), by decide +kernel, fun h => ?_⟩
  have hinfo : infoAt t minSubAccountIndex = some {
      minOperatorShareRate := 20000, totalShares := 5, operatorShares := 5,
      strategies := List.replicate nbStrategies 0 } := by decide +kernel
  exact absurd (h _ _ hinfo rfl) (by decide)

end PerpDex
