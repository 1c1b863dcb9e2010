/-
Who holds the shares of a pool.

* `infoAt`, `sharesAt`, `heldShares` — what a pool knows about itself, the share entries of an account,
  and the shares that all accounts hold in a pool;
* `PoolMove` — what any step does to pools and entries, and **`ChainStep.poolMove`** that it does.

The total of a pool is in its own account, the entries are in the accounts of the holders.  `PoolMove`
joins the writes of one message, so that the invariants never see a state between them.
-/
import PerpDex.AccountIndexes

namespace PerpDex

open Txn

variable {s t : State}
variable {a : Account} {i j pool : ℕ} {shares δ : ℤ} {info info' : PublicPoolInfo}
  {isOperator : Bool} {u : Unit} {authority : String}

/-! ### Entries -/

/-- The shares of a pool in a list of entries. -/
def sharesIn (l : List PublicPoolShare) (pool : ℕ) : ℤ :=
  (l.map fun e => if e.publicPoolIndex = pool then e.shareAmount else 0).sum

/-- At most one entry for each pool, all of them positive, and not too many. -/
structure EntriesOk (l : List PublicPoolShare) : Prop where
  pools : (l.map PublicPoolShare.publicPoolIndex).Nodup
  positive : ∀ e ∈ l, 0 < e.shareAmount
  size : l.length ≤ sharesListSize

/-- The second list has `δ` more shares of the pool, and is as it should be if the first one is. -/
structure EntryMove (pool : ℕ) (δ : ℤ) (l l' : List PublicPoolShare) : Prop where
  moved : ∀ k, sharesIn l' k = sharesIn l k + if k = pool then δ else 0
  ok : EntriesOk l → EntriesOk l'

theorem EntryMove.refl (pool : ℕ) (l : List PublicPoolShare) : EntryMove pool 0 l l :=
  ⟨fun k => by simp, fun h => h⟩

theorem findShareEntry_some {entry : PublicPoolShare}
    (h : findShareEntry a pool = some (entry, i)) : entry.publicPoolIndex = pool ∧
      ∃ l₁ l₂, a.publicPoolShares = l₁ ++ entry :: l₂ ∧ l₁.length = i := by
  have hpool : entry.publicPoolIndex = pool := by simpa using List.find?_some h
  have hmem := List.mem_of_find?_eq_some h
  obtain ⟨hi, hget⟩ := List.mem_zipIdx' hmem
  refine ⟨hpool, a.publicPoolShares.take i, a.publicPoolShares.drop (i + 1), ?_, ?_⟩
  · rw [hget, List.getElem_cons_drop, List.take_append_drop]
  · exact List.length_take_of_le hi.le

theorem findShareEntry_none (h : findShareEntry a pool = none) :
    ∀ e ∈ a.publicPoolShares, e.publicPoolIndex ≠ pool := by
  intro e he hpool
  obtain ⟨i, hi, rfl⟩ := List.getElem_of_mem he
  have hmem : (a.publicPoolShares[i], i) ∈ a.publicPoolShares.zipIdx := by
    rw [List.mem_zipIdx_iff_getElem?]
    exact List.getElem?_eq_getElem hi
  have hno := List.find?_eq_none.mp h _ hmem
  simp [hpool] at hno

theorem sharesIn_nil (k : ℕ) : sharesIn [] k = 0 := rfl

theorem sharesIn_append (l₁ l₂ : List PublicPoolShare) (k : ℕ) :
    sharesIn (l₁ ++ l₂) k = sharesIn l₁ k + sharesIn l₂ k := by
  simp [sharesIn]

theorem sharesIn_cons (e : PublicPoolShare) (l : List PublicPoolShare) (k : ℕ) :
    sharesIn (e :: l) k = (if e.publicPoolIndex = k then e.shareAmount else 0) + sharesIn l k := by
  simp [sharesIn]

theorem EntryMove.replace {l₁ l₂ : List PublicPoolShare} {e e' : PublicPoolShare}
    (hpool : e'.publicPoolIndex = e.publicPoolIndex) (hshares : e'.shareAmount = e.shareAmount + δ)
    (hpos : 0 < e.shareAmount → 0 < e.shareAmount + δ) :
    EntryMove e.publicPoolIndex δ (l₁ ++ e :: l₂) (l₁ ++ e' :: l₂) := by
  refine ⟨fun k => ?_, fun h => ⟨?_, fun x hx => ?_, ?_⟩⟩
  · simp only [sharesIn_append, sharesIn_cons, hpool, eq_comm (a := k)]
    split <;> omega
  · have := h.pools
    rwa [List.map_append, List.map_cons, hpool, ← List.map_cons, ← List.map_append]
  · rcases List.mem_append.mp hx with hx | hx
    · exact h.positive x (List.mem_append_left _ hx)
    · rcases List.mem_cons.mp hx with rfl | hx
      · rw [hshares]
        exact hpos (h.positive e (by simp))
      · exact h.positive x (by simp [hx])
  · have := h.size
    simpa using this

theorem EntryMove.drop {l₁ l₂ : List PublicPoolShare} {e : PublicPoolShare} :
    EntryMove e.publicPoolIndex (-e.shareAmount) (l₁ ++ e :: l₂) (l₁ ++ l₂) := by
  have hsub : (l₁ ++ l₂).Sublist (l₁ ++ e :: l₂) := (List.sublist_cons_self e l₂).append_left l₁
  refine ⟨fun k => ?_, fun h => ⟨h.pools.sublist (hsub.map _), fun x hx => ?_, ?_⟩⟩
  · simp only [sharesIn_append, sharesIn_cons, eq_comm (a := k)]
    split <;> omega
  · exact h.positive x (hsub.subset hx)
  · exact hsub.length_le.trans h.size

theorem EntryMove.add {l : List PublicPoolShare} {e : PublicPoolShare}
    (hpool : e.publicPoolIndex = pool) (hshares : e.shareAmount = δ)
    (hnew : ∀ x ∈ l, x.publicPoolIndex ≠ pool) (hpos : 0 < δ)
    (hroom : l.length < sharesListSize) : EntryMove pool δ l (l ++ [e]) := by
  subst hpool hshares
  refine ⟨fun k => ?_, fun h => ⟨?_, fun x hx => ?_, ?_⟩⟩
  · rw [sharesIn_append, sharesIn_cons, sharesIn_nil, add_zero]
    simp only [eq_comm (a := k)]
  · rw [List.map_append, List.map_singleton, List.nodup_append]
    refine ⟨h.pools, List.nodup_singleton _, fun a ha b hb => ?_⟩
    obtain ⟨x, hx, rfl⟩ := List.mem_map.mp ha
    rw [List.mem_singleton.mp hb]
    exact hnew x hx
  · rcases List.mem_append.mp hx with hx | hx
    · exact h.positive x hx
    · rw [List.mem_singleton.mp hx]
      exact hpos
  · rw [List.length_append, List.length_singleton]
    exact hroom

/-! ### Pools and holders -/

/-- What the pool of an index knows about itself. -/
def infoAt (s : State) (i : ℕ) : Option PublicPoolInfo :=
  (s.account.accounts.get i).bind Account.publicPoolInfo

def sharesAt (s : State) (j : ℕ) : List PublicPoolShare :=
  (s.account.accounts.get j).elim [] Account.publicPoolShares

def heldShares (s : State) (pool : ℕ) : ℤ :=
  s.account.accounts.sum fun a => sharesIn a.publicPoolShares pool

theorem sharesIn_sharesAt (s : State) (pool j : ℕ) : sharesIn (sharesAt s j) pool =
    s.account.accounts.rows.term (fun _ a => sharesIn a.publicPoolShares pool) j := by
  rw [sharesAt, KVStore.term, Table.get]
  rcases s.account.accounts.rows.get j with _ | a
  · rfl
  · rfl

theorem heldShares_sub (h : ∀ k, k ≠ j → sharesAt t k = sharesAt s k) (pool : ℕ) :
    heldShares t pool - heldShares s pool
      = sharesIn (sharesAt t j) pool - sharesIn (sharesAt s j) pool := by
  have hoff : ∀ k ∉ ({j} : Finset ℕ),
      t.account.accounts.rows.term (fun _ a => sharesIn a.publicPoolShares pool) k =
        s.account.accounts.rows.term (fun _ a => sharesIn a.publicPoolShares pool) k := by
    intro k hk
    rw [← sharesIn_sharesAt, ← sharesIn_sharesAt, h k (by simpa using hk)]
  rw [heldShares, heldShares, Table.sum, Table.sum, KVStore.sum_sub_sum {j} hoff,
    Finset.sum_singleton, ← sharesIn_sharesAt, ← sharesIn_sharesAt]

theorem heldShares_congr (h : ∀ k, sharesAt t k = sharesAt s k) (pool : ℕ) :
    heldShares t pool = heldShares s pool := by
  have hdiff := heldShares_sub (j := 0) (fun k _ => h k) pool
  rw [h 0] at hdiff
  omega

theorem infoAt_putAccount (s : State) (a : Account) (i : ℕ) :
    infoAt (s.putAccount a) i = if i = a.accountIndex then a.publicPoolInfo else infoAt s i := by
  rw [infoAt, State.putAccount, Table.get_put]
  split
  · rfl
  · rfl

theorem sharesAt_putAccount (s : State) (a : Account) (j : ℕ) :
    sharesAt (s.putAccount a) j = if j = a.accountIndex then a.publicPoolShares else sharesAt s j := by
  rw [sharesAt, State.putAccount, Table.get_put]
  split
  · rfl
  · rfl

theorem infoAt_of_get (h : s.account.accounts.get i = some a) :
    infoAt s i = a.publicPoolInfo := by
  rw [infoAt, h, Option.bind_some]

theorem sharesAt_of_get (h : s.account.accounts.get j = some a) :
    sharesAt s j = a.publicPoolShares := by
  rw [sharesAt, h]
  rfl

structure SamePools (s t : State) : Prop where
  info : ∀ i, infoAt t i = infoAt s i
  shares : ∀ j, sharesAt t j = sharesAt s j

theorem CollateralOnly.samePools (h : CollateralOnly s t) : SamePools s t := by
  have hinfo : Account.publicPoolInfo = Account.publicPoolInfo ∘ Account.sansCollateral := rfl
  have hshares : Account.publicPoolShares = Account.publicPoolShares ∘ Account.sansCollateral := rfl
  refine ⟨fun i => ?_, fun j => ?_⟩
  · have hrow := congrArg (Option.bind · Account.publicPoolInfo) (h.row i)
    simp only [Option.bind_map, ← hinfo] at hrow
    exact hrow
  · have hrow := congrArg (Option.elim · [] Account.publicPoolShares) (h.row j)
    simp only [Option.elim_map, ← hshares] at hrow
    exact hrow

/-! ### What a pool knows about itself -/

/-- The operator of an active pool has its part of the shares, and could not be asked for more than
all of them. -/
def PublicPoolInfo.Floored (info : PublicPoolInfo) : Prop := info.status = .active →
  (info.minOperatorShareRate : ℤ) ≤ shareTick ∧
    info.totalShares * info.minOperatorShareRate ≤ info.operatorShares * shareTick

/-- `δ` shares go to entries, and the operator keeps its part. -/
structure InfoMove (δ : ℤ) (info info' : PublicPoolInfo) : Prop where
  supply : info'.totalShares - info'.operatorShares = info.totalShares - info.operatorShares + δ
  operator : 0 ≤ info.operatorShares → 0 ≤ info'.operatorShares
  floored : 0 ≤ info.operatorShares → info.Floored → info'.Floored

theorem checkMinOperatorShareRate_le
    (h : checkMinOperatorShareRate info = true) (hoperator : 0 ≤ info.operatorShares) :
    info.totalShares * info.minOperatorShareRate ≤ info.operatorShares * shareTick := by
  rw [checkMinOperatorShareRate, Bool.or_eq_true, decide_eq_true_eq, decide_eq_true_eq] at h
  rcases h with hzero | hle
  · rw [hzero, zero_mul]
    exact mul_nonneg hoperator (by decide)
  · exact hle

theorem mintInfo_move (hpos : 0 < shares) (h : mintInfo isOperator shares info = .ok info') :
    InfoMove (if isOperator then 0 else shares) info info' := by
  rw [mintInfo] at h
  dsimp only at h
  cases isOperator with
  | true =>
    cases h
    refine ⟨by simp, fun hop => by dsimp only; omega, fun _ hfloor hactive => ?_⟩
    obtain ⟨hrate, hle⟩ := hfloor hactive
    refine ⟨hrate, ?_⟩
    dsimp only
    have hnew := mul_le_mul_of_nonneg_left hrate hpos.le
    linarith
  | false =>
    rw [if_neg Bool.false_ne_true] at h
    split at h
    · rename_i hcheck
      cases h
      refine ⟨by simp; ring, fun hop => hop, fun hop hfloor hactive => ?_⟩
      exact ⟨(hfloor hactive).1, checkMinOperatorShareRate_le hcheck hop⟩
    · cases h

theorem burnInfo_move {frozen : Bool} {burned fee : ℤ}
    (hfrozen : frozen = decide (info.status = .frozen)) (hburned : burned = shares - fee)
    (hfee : 0 ≤ fee) (hown : isOperator = true → fee = 0 ∧ shares ≤ info.operatorShares)
    (h : burnInfo isOperator frozen shares burned fee info = .ok info') :
    InfoMove (if isOperator then 0 else -shares) info info' := by
  rw [burnInfo] at h
  generalize hop : (if isOperator = true then info.operatorShares - shares
    else info.operatorShares + fee) = op at h
  have hkeep : info.totalShares - burned - op
      = info.totalShares - info.operatorShares + (if isOperator then 0 else -shares) := by
    rw [← hop]
    split
    · rename_i hyes
      have := (hown hyes).1
      omega
    · omega
  have hnonneg : 0 ≤ info.operatorShares → 0 ≤ op := by
    intro h₀
    rw [← hop]
    split
    · rename_i hyes
      have := (hown hyes).2
      omega
    · omega
  split at h
  · cases h
  · rename_i hcheck
    cases h
    refine ⟨hkeep, hnonneg, fun h₀ hfloor hactive => ⟨(hfloor hactive).1, ?_⟩⟩
    refine checkMinOperatorShareRate_le ?_ (hnonneg h₀)
    by_contra hno
    have hstatus : info.status = .active := hactive
    have hnot : frozen = false := by
      rw [hfrozen, hstatus]
      rfl
    exact hcheck ⟨hnot, Bool.eq_false_iff.mpr hno⟩

/-! ### Writes -/

theorem updatePublicPoolInfo_pools {mutate : PublicPoolInfo → Except Err PublicPoolInfo}
    (h : (updatePublicPoolInfo i mutate).run s = .ok u t) :
    ∃ info info', infoAt s i = some info ∧ mutate info = .ok info' ∧ infoAt t i = some info' ∧
      (∀ k, k ≠ i → infoAt t k = infoAt s k) ∧ ∀ j, sharesAt t j = sharesAt s j := by
  obtain ⟨a, info, info', ha, hinfo, hmutate, rfl⟩ := updatePublicPoolInfo_ok h
  obtain rfl : a.accountIndex = i := Table.key_of_get ha
  refine ⟨info, info', (infoAt_of_get ha).trans hinfo, hmutate, ?_, fun k hk => ?_, fun j => ?_⟩
  · rw [infoAt_putAccount, if_pos rfl]
  · rw [infoAt_putAccount, if_neg hk]
  · rw [sharesAt_putAccount]
    split
    · rename_i hj
      rw [hj, sharesAt_of_get ha]
    · rfl

/-- One account has new entries. -/
structure EntryWrite (pool j : ℕ) (δ : ℤ) (s t : State) : Prop where
  move : EntryMove pool δ (sharesAt s j) (sharesAt t j)
  shares : ∀ k, k ≠ j → sharesAt t k = sharesAt s k
  info : ∀ k, infoAt t k = infoAt s k

theorem EntryWrite.of_put {l : List PublicPoolShare}
    (ha : s.account.accounts.get a.accountIndex = some a) (h : EntryMove pool δ a.publicPoolShares l) :
    EntryWrite pool a.accountIndex δ s (s.putAccount { a with publicPoolShares := l }) := by
  refine ⟨?_, fun k hk => ?_, fun k => ?_⟩
  · rw [sharesAt_putAccount, if_pos rfl, sharesAt_of_get ha]
    exact h
  · rw [sharesAt_putAccount, if_neg hk]
  · rw [infoAt_putAccount]
    split
    · rename_i hk
      rw [hk, infoAt_of_get ha]
    · rfl

theorem upsertPublicPoolShare_write {principal now : ℤ} (hpos : 0 < shares)
    (h : (upsertPublicPoolShare j pool shares principal now).run s = .ok u t) :
    EntryWrite pool j shares s t := by
  obtain ⟨a, hread, hwrite⟩ := run_bind_read_ok.mp h
  have ha := getAccount_eq_ok.mp hread
  obtain rfl : a.accountIndex = j := Table.key_of_get ha
  cases hfind : findShareEntry a pool with
  | some found =>
    obtain ⟨entry, i⟩ := found
    rw [hfind] at hwrite
    cases hwrite
    obtain ⟨rfl, l₁, l₂, hlist, rfl⟩ := findShareEntry_some hfind
    refine EntryWrite.of_put ha ?_
    rw [hlist, List.set_append_right _ _ (le_refl _), Nat.sub_self, List.set_cons_zero]
    exact EntryMove.replace rfl rfl fun hold => by omega
  | none =>
    rw [hfind] at hwrite
    obtain ⟨hroom, hwrite⟩ := run_bind_require_ok.mp hwrite
    cases hwrite
    exact EntryWrite.of_put ha (EntryMove.add rfl rfl (findShareEntry_none hfind) hpos hroom)

theorem requireShares_ok {entry : PublicPoolShare}
    (h : requireShares a pool shares = .ok (entry, i)) :
    findShareEntry a pool = some (entry, i) ∧ shares ≤ entry.shareAmount := by
  rw [requireShares] at h
  split at h
  · cases h
  · rename_i entry' i' hfind
    dsimp only at h
    split at h
    · cases h
    · rename_i henough
      cases h
      exact ⟨hfind, not_lt.mp henough⟩

theorem reducePublicPoolShare_write (h : (reducePublicPoolShare j pool shares).run s = .ok u t) :
    EntryWrite pool j (-shares) s t := by
  obtain ⟨a, hread, hwrite⟩ := run_bind_read_ok.mp h
  have ha := getAccount_eq_ok.mp hread
  obtain rfl : a.accountIndex = j := Table.key_of_get ha
  obtain ⟨⟨entry, i⟩, hheld, hwrite⟩ := run_bind_lift_ok.mp hwrite
  cases hwrite
  obtain ⟨hfind, henough⟩ := requireShares_ok hheld
  obtain ⟨rfl, l₁, l₂, hlist, rfl⟩ := findShareEntry_some hfind
  refine EntryWrite.of_put ha ?_
  by_cases hrest : entry.shareAmount - shares = 0
  · rw [if_pos hrest, hlist, List.eraseIdx_append_of_length_le (le_refl _), Nat.sub_self,
      List.eraseIdx_cons_zero, ← sub_eq_zero.mp hrest]
    exact EntryMove.drop
  · rw [if_neg hrest, hlist, List.set_append_right _ _ (le_refl _), Nat.sub_self, List.set_cons_zero]
    exact EntryMove.replace rfl (sub_eq_add_neg _ _) fun hold => by omega

/-! ### Steps -/

def NewIndex (s t : State) (i : ℕ) : Prop :=
  i = max s.account.nextMasterIndex firstUserMasterAccountIndex ∧
      t.account.nextMasterIndex = i + 1 ∨
    i = max s.account.nextSubIndex minSubAccountIndex ∧ t.account.nextSubIndex = i + 1

/-- A pool all of whose shares are its operator's. -/
structure PublicPoolInfo.Fresh (info : PublicPoolInfo) : Prop where
  total : info.totalShares = info.operatorShares
  operator : 0 ≤ info.operatorShares
  floored : info.Floored

/-- What a step does to pools and entries: nothing; it writes a new account without entries; or it
moves shares between the pool, its operator and one holder. -/
inductive PoolMove (s t : State) : Prop
  | rest (h : SamePools s t)
  | enroll (i : ℕ) (hnew : NewIndex s t i) (hfresh : ∀ info, infoAt t i = some info → info.Fresh)
      (hempty : sharesAt t i = []) (hinfo : ∀ k, k ≠ i → infoAt t k = infoAt s k)
      (hshares : ∀ k, k ≠ i → sharesAt t k = sharesAt s k)
  | move (i j : ℕ) (δ : ℤ) (info info' : PublicPoolInfo) (hi : infoAt s i = some info)
      (hi' : infoAt t i = some info') (hmove : InfoMove δ info info')
      (hentries : EntryMove i δ (sharesAt s j) (sharesAt t j))
      (hinfo : ∀ k, k ≠ i → infoAt t k = infoAt s k)
      (hshares : ∀ k, k ≠ j → sharesAt t k = sharesAt s k)

namespace PoolMove

theorem of_collateralOnly (h : CollateralOnly s t) : PoolMove s t := .rest h.samePools

theorem after_collateral {u : State} (h : CollateralOnly s t) (hmove : PoolMove t u) :
    PoolMove s u := by
  have hsame := h.samePools
  cases hmove with
  | rest hrest =>
    exact .rest ⟨fun i => (hrest.info i).trans (hsame.info i),
      fun j => (hrest.shares j).trans (hsame.shares j)⟩
  | enroll i hnew hfresh hempty hinfo hshares =>
    rw [NewIndex, h.masters, h.subs] at hnew
    exact .enroll i hnew hfresh hempty (fun k hk => (hinfo k hk).trans (hsame.info k))
      fun k hk => (hshares k hk).trans (hsame.shares k)
  | move i j δ info info' hi hi' hmove hentries hinfo hshares =>
    rw [hsame.shares] at hentries
    exact .move i j δ info info' (hsame.info i ▸ hi) hi' hmove hentries
      (fun k hk => (hinfo k hk).trans (hsame.info k)) fun k hk => (hshares k hk).trans (hsame.shares k)

theorem before_collateral {u : State} (hmove : PoolMove s t) (h : CollateralOnly t u) :
    PoolMove s u := by
  have hsame := h.samePools
  cases hmove with
  | rest hrest =>
    exact .rest ⟨fun i => (hsame.info i).trans (hrest.info i),
      fun j => (hsame.shares j).trans (hrest.shares j)⟩
  | enroll i hnew hfresh hempty hinfo hshares =>
    rw [NewIndex, ← h.masters, ← h.subs] at hnew
    refine .enroll i hnew (fun info hi => hfresh info ?_) ((hsame.shares i).trans hempty)
      (fun k hk => (hsame.info k).trans (hinfo k hk)) fun k hk => (hsame.shares k).trans (hshares k hk)
    rw [← hsame.info i]
    exact hi
  | move i j δ info info' hi hi' hmove hentries hinfo hshares =>
    rw [← hsame.shares] at hentries
    exact .move i j δ info info' hi ((hsame.info i).trans hi') hmove hentries
      (fun k hk => (hsame.info k).trans (hinfo k hk)) fun k hk => (hsame.shares k).trans (hshares k hk)

theorem of_enroll {u : State} (haccount : u.account.accounts = s.account.accounts)
    (hnew : NewIndex s (u.enroll a) a.accountIndex)
    (hfresh : ∀ info, a.publicPoolInfo = some info → info.Fresh) (hempty : a.publicPoolShares = []) :
    PoolMove s (u.enroll a) := by
  have hrow : ∀ k, (u.enroll a).account.accounts.get k =
      if k = a.accountIndex then some a else s.account.accounts.get k := by
    intro k
    rw [← haccount]
    exact Table.get_put _ _ _
  refine .enroll a.accountIndex hnew (fun info hi => hfresh info ?_) ?_ (fun k hk => ?_) fun k hk => ?_
  · rw [← hi, infoAt, hrow, if_pos rfl, Option.bind_some]
  · rw [sharesAt, hrow, if_pos rfl]
    exact hempty
  · rw [infoAt, hrow, if_neg hk, infoAt]
  · rw [sharesAt, hrow, if_neg hk, sharesAt]

theorem of_updateInfo {mutate : PublicPoolInfo → Except Err PublicPoolInfo}
    (hmutate : ∀ info info', infoAt s i = some info → mutate info = .ok info' → InfoMove 0 info info')
    (h : (updatePublicPoolInfo i mutate).run s = .ok u t) : PoolMove s t := by
  obtain ⟨info, info', hi, hm, hi', hinfo, hshares⟩ := updatePublicPoolInfo_pools h
  refine .move i i 0 info info' hi hi' (hmutate info info' hi hm) ?_ hinfo fun k _ => hshares k
  rw [hshares]
  exact EntryMove.refl _ _

theorem of_write {u : State} (hi : infoAt s i = some info) (hi' : infoAt t i = some info')
    (hinfo : ∀ k, k ≠ i → infoAt t k = infoAt s k) (hshares : ∀ j, sharesAt t j = sharesAt s j)
    (hmove : InfoMove δ info info') (hwrite : EntryWrite i j δ t u) : PoolMove s u := by
  refine .move i j δ info info' hi ((hwrite.info i).trans hi') hmove ?_
    (fun k hk => (hwrite.info k).trans (hinfo k hk))
    fun k hk => (hwrite.shares k hk).trans (hshares k)
  rw [← hshares]
  exact hwrite.move

end PoolMove

theorem ensureMasterAccount_poolMove {owner : String}
    (h : (ensureMasterAccount owner).run s = .ok a t) : PoolMove s t := by
  rcases ensureMasterAccount_ok h with ⟨-, rfl⟩ | ⟨e, -, rfl, -, rfl⟩
  · exact .rest ⟨fun _ => rfl, fun _ => rfl⟩
  · exact .of_enroll rfl (Or.inl ⟨rfl, rfl⟩) (fun info hinfo => by cases hinfo) rfl

theorem createSubAccount_poolMove {master : Account}
    (h : (createSubAccount master).run s = .ok a t) : PoolMove s t := by
  obtain ⟨hsub, hidx, -, rfl⟩ := createSubAccount_ok h
  refine .of_enroll rfl (Or.inr ⟨hidx, rfl⟩) (fun info hinfo => ?_) ?_
  · rw [hsub] at hinfo
    cases hinfo
  · rw [hsub]
    rfl

theorem getPoolAccount_ok {pool : Account} (h : getPoolAccount i s = .ok pool) :
    ∃ info, pool.publicPoolInfo = some info ∧ infoAt s pool.accountIndex = some info := by
  obtain ⟨a, ha, h⟩ := except_bind_ok.mp h
  split at h
  · rename_i hpool
    obtain rfl := Except.ok.inj h
    have hget := getAccount_eq_ok.mp ha
    obtain ⟨info, hinfo⟩ := Option.isSome_iff_exists.mp (Bool.and_eq_true_iff.mp hpool).1
    have hidx : a.accountIndex = i := Table.key_of_get hget
    rw [← hidx] at hget
    exact ⟨info, hinfo, (infoAt_of_get hget).trans hinfo⟩
  · cases h

theorem moveStrategy_move {src dst : ℕ} {amount : ℤ}
    (h : moveStrategy src dst amount info = .ok info') : InfoMove 0 info info' := by
  rw [moveStrategy] at h
  split at h
  · cases h
  · cases h
    exact ⟨by simp, fun h₀ => h₀, fun _ hfloor => hfloor⟩

theorem moveMint_poolMove {usdc r : ℤ} (hpos : 0 < shares)
    (h : (moveMint isOperator j pool usdc shares).run s = .ok r t) : PoolMove s t := by
  obtain ⟨_, s₁, hdebit, h⟩ := run_bind_ok.mp h
  obtain ⟨_, s₂, hcredit, h⟩ := run_bind_ok.mp h
  obtain ⟨_, s₃, hinfo, h⟩ := run_bind_ok.mp h
  obtain ⟨_, s₄, hupsert, h⟩ := run_bind_ok.mp h
  obtain ⟨-, rfl⟩ := run_pure_ok.mp h
  have hmoved : CollateralOnly s s₂ := trans_of CollateralOnly
    ((addCollateral_collateralOnly _ _).ok hdebit) ((addCollateral_collateralOnly _ _).ok hcredit)
  refine .after_collateral hmoved ?_
  cases isOperator with
  | true =>
    cases hupsert
    exact .of_updateInfo (fun _ _ _ hm => (mintInfo_move hpos hm : InfoMove (if true then 0 else shares) _ _)) hinfo
  | false =>
    obtain ⟨now, -, hupsert⟩ := run_bind_read_ok.mp hupsert
    obtain ⟨info, info', hi, hm, hi', hother, hshares⟩ := updatePublicPoolInfo_pools hinfo
    exact .of_write hi hi' hother hshares (mintInfo_move hpos hm)
      (upsertPublicPoolShare_write hpos hupsert)

theorem availableSharesToBurn_pos {available : ℤ}
    (hi : infoAt s i = some info) (h : availableSharesToBurn i s = .ok available)
    (hpos : 0 < available) : 0 ≤ info.totalShares := by
  obtain ⟨info₀, hinfo₀, h⟩ := except_bind_ok.mp h
  obtain ⟨a, ha, hsome⟩ := getPoolInfo_eq_ok.mp hinfo₀
  obtain rfl : info₀ = info := Option.some.inj (((infoAt_of_get ha).trans hsome).symm.trans hi)
  by_contra hneg
  have hneg := not_le.mp hneg
  rw [if_neg hneg.ne] at h
  obtain ⟨tav, -, h⟩ := except_bind_ok.mp h
  split at h
  · cases h
    exact lt_irrefl 0 hpos
  · rename_i htav
    obtain ⟨avail, -, h⟩ := except_bind_ok.mp h
    split at h
    · cases h
      exact lt_irrefl 0 hpos
    · rename_i havail
      cases h
      have hprod : avail * info₀.totalShares ≤ 0 :=
        mul_nonpos_of_nonneg_of_nonpos (not_not.mp havail).le hneg.le
      have hquot := Int.tdiv_nonneg (neg_nonneg.mpr hprod) (not_not.mp htav).le
      rw [Int.neg_tdiv] at hquot
      omega

theorem burnedEntry_fee {depositor : Account}
    {value fee : ℤ} {entry : Option PublicPoolShare} (hpos : 0 < shares)
    (htotal : 0 ≤ info.totalShares) (h : burnedEntry info i depositor isOperator shares = .ok entry)
    (hfee : (match entry with
      | some entry => operatorFeeSharesOf i info entry shares value s
      | none => .ok 0) = .ok fee) :
    0 ≤ fee ∧ (isOperator = true → fee = 0 ∧ shares ≤ info.operatorShares) := by
  rw [burnedEntry] at h
  split at h
  · split at h
    · cases h
    · rename_i henough
      cases h
      cases hfee
      exact ⟨le_refl 0, fun _ => ⟨rfl, not_lt.mp henough⟩⟩
  · rename_i hno
    obtain ⟨found, -, h⟩ := except_bind_ok.mp h
    cases h
    exact ⟨(operatorFeeSharesOf_mem hpos.le htotal hfee).1, fun hyes => absurd hyes hno⟩

theorem burnSharesCore_poolMove {pool depositor : Account} {skipCooldown : Bool} {paid : ℕ}
    (hpool : getPoolAccount i s = .ok pool) (hpos : 0 < shares)
    (h : (burnSharesCore pool depositor isOperator shares skipCooldown).run s = .ok paid t) :
    PoolMove s t := by
  obtain ⟨info, hsome, hi⟩ := getPoolAccount_ok hpool
  obtain ⟨-, h⟩ := run_bind_require_ok.mp h
  obtain ⟨available, havailable, h⟩ := run_bind_read_ok.mp h
  obtain ⟨henough, h⟩ := run_bind_require_ok.mp h
  obtain ⟨entry, hentry, h⟩ := run_bind_lift_ok.mp h
  obtain ⟨_, -, h⟩ := run_bind_read_ok.mp h
  obtain ⟨value, -, h⟩ := run_bind_read_ok.mp h
  obtain ⟨-, h⟩ := run_bind_require_ok.mp h
  obtain ⟨fee, hfee, h⟩ := run_bind_read_ok.mp h
  obtain ⟨_, s₁, hinfo, h⟩ := run_bind_ok.mp h
  obtain ⟨_, s₂, hdebit, h⟩ := run_bind_ok.mp h
  obtain ⟨_, s₃, hcredit, h⟩ := run_bind_ok.mp h
  obtain ⟨_, s₄, hreduce, h⟩ := run_bind_ok.mp h
  rw [hsome, Option.getD_some] at hentry hfee hinfo
  have htotal := availableSharesToBurn_pos hi havailable (by omega)
  obtain ⟨hfee₀, hown⟩ := burnedEntry_fee hpos htotal hentry hfee
  have hmoved : CollateralOnly s₁ s₃ := trans_of CollateralOnly
    ((addCollateral_collateralOnly _ _).ok hdebit) ((addCollateral_collateralOnly _ _).ok hcredit)
  have hword : Keeps Eq (uint64Of ((value * (shares - fee)).tdiv shares)) :=
    Keeps.require.bind fun _ => Keeps.pure
  obtain rfl := hword.ok h
  have hmove : ∀ info₀ info', infoAt s pool.accountIndex = some info₀ →
      burnInfo isOperator (decide (info.status = .frozen)) shares (shares - fee) fee info₀ = .ok info' →
      InfoMove (if isOperator then 0 else -shares) info₀ info' := by
    intro info₀ info' hi₀ hm
    cases hi.symm.trans hi₀
    exact burnInfo_move rfl rfl hfee₀ hown hm
  cases isOperator with
  | true =>
    cases hreduce
    exact (PoolMove.of_updateInfo hmove hinfo).before_collateral hmoved
  | false =>
    obtain ⟨info₀, info', hi₀, hm, hi', hother, hshares⟩ := updatePublicPoolInfo_pools hinfo
    have hsame := hmoved.samePools
    exact .of_write hi₀ ((hsame.info _).trans hi') (fun k hk => (hsame.info k).trans (hother k hk))
      (fun j => (hsame.shares j).trans (hshares j)) (hmove info₀ info' hi₀ hm)
      (reducePublicPoolShare_write hreduce)

section Messages

variable [AddressCodec]

theorem deposit_poolMove {msg : MsgDeposit} (h : (deposit msg).run s = .ok i t) :
    PoolMove s t := by
  obtain ⟨owner, acc, s₁, s₂, hsent, hensure, hcredited⟩ := deposit_ok h
  exact .after_collateral (.of_account hsent)
    ((ensureMasterAccount_poolMove hensure).before_collateral hcredited)

theorem MsgCreatePublicPool.rate_le {msg : MsgCreatePublicPool} (h : msg.validateBasic = .ok ()) :
    (msg.minOperatorShareRate : ℤ) ≤ shareTick := by
  obtain ⟨_, -, h⟩ := except_bind_ok.mp h
  by_contra hrate
  rw [if_pos (not_le.mp hrate)] at h
  split at h
  · cases h
  · split at h
    · cases h
    · split at h
      · cases h
      · cases h

theorem createPublicPool_poolMove {msg : MsgCreatePublicPool}
    (h : (createPublicPool msg).run s = .ok i t) : PoolMove s t := by
  obtain ⟨master, s₁, hvalid, hsettle, hidx, -, hrest⟩ := createPublicPool_ok h
  have hopen : PoolMove s₁ ((s₁.withSubs (i + 1)).enroll (msg.toAccount i master)) := by
    refine .of_enroll rfl (Or.inr ⟨hidx, rfl⟩) (fun info hinfo => ?_) rfl
    cases hinfo
    refine ⟨rfl, Int.natCast_nonneg _, fun _ => ⟨MsgCreatePublicPool.rate_le hvalid, ?_⟩⟩
    exact mul_le_mul_of_nonneg_left (MsgCreatePublicPool.rate_le hvalid) (Int.natCast_nonneg _)
  exact .after_collateral ((transferRule_collateralOnly.settleAllPositionFunding _).ok hsettle)
    (hopen.before_collateral hrest)

theorem updatePublicPool_poolMove {msg : MsgUpdatePublicPool}
    (h : (updatePublicPool authority msg).run s = .ok u t) : PoolMove s t := by
  obtain ⟨_, hvalid, h⟩ := run_bind_lift_ok.mp h
  obtain ⟨pool, hpool, h⟩ := run_bind_read_ok.mp h
  obtain ⟨_, -, h⟩ := run_bind_lift_ok.mp h
  obtain ⟨_, -, h⟩ := run_bind_read_ok.mp h
  obtain ⟨-, h⟩ := run_bind_require_ok.mp h
  obtain ⟨hcheck, h⟩ := run_bind_require_ok.mp h
  obtain ⟨_, s₁, hempty, h⟩ := run_bind_ok.mp h
  have hsame : Keeps Eq (Txn.when (msg.newStatus = .frozen) (Txn.read (assertPoolEmpty pool))) :=
    Keeps.when fun _ => Keeps.read
  obtain rfl := hsame.ok hempty
  obtain ⟨_, s₂, hinfo, hclear⟩ := run_bind_ok.mp h
  obtain ⟨info, hsome, hi⟩ := getPoolAccount_ok hpool
  rw [hsome] at hcheck
  obtain ⟨_, -, hvalid⟩ := except_bind_ok.mp hvalid
  have hrate : (msg.newMinOperatorShareRate : ℤ) ≤ shareTick := not_lt.mp (ensure_ok.mp hvalid)
  refine .before_collateral (.of_updateInfo (fun info₀ info' hi₀ hm => ?_) hinfo) ?_
  · cases hi.symm.trans hi₀
    cases hm
    refine ⟨by simp [MsgUpdatePublicPool.overlay], fun h₀ => h₀, fun h₀ _ _ => ⟨hrate, ?_⟩⟩
    exact checkMinOperatorShareRate_le hcheck h₀
  · exact (Keeps.when fun _ => transferRule_collateralOnly.clearLiquidityPool _).ok hclear

theorem strategyTransfer_poolMove {msg : MsgStrategyTransfer}
    (h : (strategyTransfer authority msg).run s = .ok u t) : PoolMove s t := by
  obtain ⟨_, -, h⟩ := run_bind_lift_ok.mp h
  obtain ⟨pool, -, h⟩ := run_bind_read_ok.mp h
  obtain ⟨-, h⟩ := run_bind_require_ok.mp h
  obtain ⟨_, -, h⟩ := run_bind_read_ok.mp h
  obtain ⟨_, -, h⟩ := run_bind_lift_ok.mp h
  exact .of_updateInfo (fun _ _ _ hm => moveStrategy_move hm) h

theorem mintShares_poolMove {msg : MsgMintShares}
    (h : (mintShares authority msg).run s = .ok shares t) : PoolMove s t := by
  obtain ⟨_, -, h⟩ := run_bind_lift_ok.mp h
  obtain ⟨pool, -, h⟩ := run_bind_read_ok.mp h
  obtain ⟨_, -, h⟩ := run_bind_lift_ok.mp h
  obtain ⟨master, -, h⟩ := run_bind_read_ok.mp h
  obtain ⟨isOperator, -, h⟩ := run_bind_read_ok.mp h
  obtain ⟨_, s₀, hpay, hrest⟩ := run_bind_ok.mp h
  obtain ⟨-, rfl⟩ := run_require_ok.mp hpay
  obtain ⟨amount, -, hrest⟩ := run_bind_read_ok.mp hrest
  obtain ⟨hpos, hgate⟩ := run_bind_require_ok.mp hrest
  obtain ⟨_, s₁, _, hsettle, -, hmove, -⟩ := underRiskGate_ok hgate
  exact .after_collateral ((transferRule_collateralOnly.settleAllPositionFunding _).ok hsettle)
    (moveMint_poolMove hpos hmove)

theorem validateBurn_pos {signer : String} (h : validateBurn signer shares = .ok ()) :
    0 < shares := by
  obtain ⟨_, -, h⟩ := except_bind_ok.mp h
  by_contra hno
  rw [if_pos hno] at h
  cases h

theorem burnShares_poolMove {msg : MsgBurnShares} {paid : ℕ}
    (h : (burnShares authority msg).run s = .ok paid t) : PoolMove s t := by
  obtain ⟨_, hvalid, h⟩ := run_bind_lift_ok.mp h
  obtain ⟨pool, hpool, h⟩ := run_bind_read_ok.mp h
  obtain ⟨depositor, -, h⟩ := run_bind_read_ok.mp h
  obtain ⟨isOperator, -, h⟩ := run_bind_read_ok.mp h
  exact burnSharesCore_poolMove hpool (validateBurn_pos hvalid) h

theorem forceBurnShares_poolMove {msg : MsgForceBurnShares} {paid : ℕ}
    (h : (forceBurnShares authority msg).run s = .ok paid t) : PoolMove s t := by
  obtain ⟨_, hvalid, h⟩ := run_bind_lift_ok.mp h
  obtain ⟨-, h⟩ := run_bind_require_ok.mp h
  obtain ⟨pool, hpool, h⟩ := run_bind_read_ok.mp h
  obtain ⟨-, h⟩ := run_bind_require_ok.mp h
  obtain ⟨params, -, h⟩ := run_bind_read_ok.mp h
  obtain ⟨-, h⟩ := run_bind_require_ok.mp h
  obtain ⟨depositor, -, h⟩ := run_bind_read_ok.mp h
  exact burnSharesCore_poolMove hpool (validateBurn_pos hvalid) h

theorem ChainStep.poolMove (h : ChainStep authority s t) : PoolMove s t := by
  cases h with
  | trading h => exact .of_collateralOnly (h.rule tradingRule_collateralOnly)
  | outside h => exact .of_collateralOnly (.of_account h)
  | account h =>
    cases h with
    | deposit msg h => exact deposit_poolMove h
    | withdraw msg h => exact .of_collateralOnly ((transferRule_collateralOnly.withdraw msg).ok h)
    | transfer msg h => exact .of_collateralOnly ((transferRule_collateralOnly.transfer msg).ok h)
    | updateMargin msg h => exact .of_collateralOnly ((updateMargin_collateralOnly msg).ok h)
    | updateLeverage msg h => exact .of_collateralOnly ((updateLeverage_collateralOnly msg).ok h)
    | createSubAccount msg h =>
      obtain ⟨_, -, h⟩ := run_bind_lift_ok.mp h
      obtain ⟨master, -, h⟩ := run_bind_read_ok.mp h
      obtain ⟨-, h⟩ := run_bind_require_ok.mp h
      obtain ⟨-, h⟩ := run_bind_require_ok.mp h
      obtain ⟨sub, s₁, hcreate, h⟩ := run_bind_ok.mp h
      obtain ⟨-, rfl⟩ := run_pure_ok.mp h
      exact createSubAccount_poolMove hcreate
    | createPublicPool msg h => exact createPublicPool_poolMove h
    | updatePublicPool msg h => exact updatePublicPool_poolMove h
    | mintShares msg h => exact mintShares_poolMove h
    | burnShares msg h => exact burnShares_poolMove h
    | forceBurnShares msg h => exact forceBurnShares_poolMove h
    | strategyTransfer msg h => exact strategyTransfer_poolMove h
    | updateParams msg h =>
      exact .of_collateralOnly ((transferRule_collateralOnly.updateParams authority msg).ok h)

end Messages

end PerpDex
