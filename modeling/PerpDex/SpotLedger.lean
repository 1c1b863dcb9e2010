/-
The ledger of spot balances: what accounts hold of an asset, and how much of it is locked.

* `SpotMove` — what a sequence of debits, credits, locks and releases of one asset amounts to;
* `SameSpot` — the ledger, the registry of assets and the bank are the same.

Main result: `transfer_conserves_iff`.

A transfer between an account and itself overwrites its debit by its credit; the lemma about transfers is
therefore about two accounts.
-/
import Mathlib.Algebra.BigOperators.Pi
import PerpDex.BookFrame

namespace PerpDex

open Txn

variable {s t u : State}

/-! ### Balances, locks and sums -/

def balanceOf (s : State) (a i : ℕ) : ℤ := (getAccountAsset s a i).balance

def lockedOf (s : State) (a i : ℕ) : ℤ := (getAccountAsset s a i).lockedBalance

/-- What a row counts towards the sum of an asset. -/
def AccountAsset.share (i : ℕ) (r : AccountAsset) : ℤ := if r.assetIndex = i then r.balance else 0

def spotSum (s : State) (i : ℕ) : ℤ := s.account.accountAssets.sum (AccountAsset.share i)

theorem getAccountAsset_index (s : State) (a i : ℕ) :
    (getAccountAsset s a i).accountIndex = a ∧ (getAccountAsset s a i).assetIndex = i := by
  unfold getAccountAsset
  rcases h : s.account.accountAssets.get (toLex (a, i)) with _ | r
  · exact ⟨rfl, rfl⟩
  · have hkey := Table.key_of_get h
    simp only [AccountAsset.key, EmbeddingLike.apply_eq_iff_eq, Prod.mk.injEq] at hkey
    exact hkey

theorem getAccountAsset_putAsset (s : State) (r : AccountAsset) (a i : ℕ) :
    getAccountAsset (s.putAsset r) a i =
      if a = r.accountIndex ∧ i = r.assetIndex then r else getAccountAsset s a i := by
  simp only [getAccountAsset, State.putAsset, Table.get_put, AccountAsset.key,
    EmbeddingLike.apply_eq_iff_eq, Prod.mk.injEq]
  split <;> rfl

theorem term_accountAssets (s : State) (a i j : ℕ) :
    s.account.accountAssets.rows.term (fun _ r => r.share j) (toLex (a, i))
      = if i = j then balanceOf s a i else 0 := by
  show (s.account.accountAssets.get (toLex (a, i))).elim 0 (AccountAsset.share j) = _
  have hindex := (getAccountAsset_index s a i).2
  unfold balanceOf getAccountAsset at *
  cases hrow : s.account.accountAssets.get (toLex (a, i)) with
  | none => simp
  | some r =>
    rw [hrow] at hindex
    have hi : r.assetIndex = i := hindex
    simp [AccountAsset.share, hi]

theorem spotSum_sub {i : ℕ} (F : Finset ℕ) (h : ∀ a ∉ F, balanceOf t a i = balanceOf s a i) :
    spotSum t i - spotSum s i = ∑ a ∈ F, (balanceOf t a i - balanceOf s a i) := by
  have hinj : Set.InjOn (fun a : ℕ => (toLex (a, i) : ℕ ×ₗ ℕ)) F := by
    intro a _ b _ hab
    exact (Prod.mk.inj (toLex.injective hab)).1
  have hout : ∀ k ∉ F.image fun a => (toLex (a, i) : ℕ ×ₗ ℕ),
      t.account.accountAssets.rows.term (fun _ r => r.share i) k
        = s.account.accountAssets.rows.term (fun _ r => r.share i) k := by
    intro k hk
    obtain ⟨⟨a, j⟩, rfl⟩ := toLex.surjective k
    rw [term_accountAssets, term_accountAssets]
    by_cases hj : j = i
    · subst hj
      rw [if_pos rfl, if_pos rfl, h a fun ha => hk (Finset.mem_image_of_mem _ ha)]
    · rw [if_neg hj, if_neg hj]
  have hsub := KVStore.sum_sub_sum _ hout
  rw [Finset.sum_image hinj] at hsub
  simp only [term_accountAssets, if_true] at hsub
  exact hsub

/-! ### Moves -/

/-- Balances and locks of asset `i` moved by `b` and `l`, and nothing else changed. -/
structure SpotMove (i : ℕ) (b l : ℕ → ℤ) (s t : State) : Prop where
  balance : ∀ a j, balanceOf t a j = balanceOf s a j + if j = i then b a else 0
  locked : ∀ a j, lockedOf t a j = lockedOf s a j + if j = i then l a else 0
  frame : t = { s with account := { s.account with accountAssets := t.account.accountAssets } }

namespace SpotMove

variable {i : ℕ} {b b' l l' : ℕ → ℤ}

theorem refl (i : ℕ) (s : State) : SpotMove i 0 0 s s where
  balance a j := by simp
  locked a j := by simp
  frame := rfl

theorem trans (h : SpotMove i b l s t) (h' : SpotMove i b' l' t u) :
    SpotMove i (b + b') (l + l') s u where
  balance a j := by
    rw [h'.balance, h.balance]
    split <;> simp [add_assoc]
  locked a j := by
    rw [h'.locked, h.locked]
    split <;> simp [add_assoc]
  frame := by rw [h'.frame, h.frame]

theorem of_putAsset {a : ℕ} {x y : ℤ} {r : AccountAsset} (hr : r = { getAccountAsset s a i with
      balance := balanceOf s a i + x, lockedBalance := lockedOf s a i + y }) :
    SpotMove i (Pi.single a x) (Pi.single a y) s (s.putAsset r) := by
  obtain ⟨ha, hi⟩ := getAccountAsset_index s a i
  have hat : ∀ (z : ℤ) c j, (if j = i then (Pi.single a z : ℕ → ℤ) c else 0)
      = if c = a ∧ j = i then z else 0 := by
    intro z c j
    by_cases hj : j = i <;> simp [hj, Pi.single_apply]
  have hrow : ∀ c j, getAccountAsset (s.putAsset r) c j
      = if c = a ∧ j = i then r else getAccountAsset s c j := by
    intro c j
    rw [getAccountAsset_putAsset, hr, ha, hi]
  refine ⟨fun c j => ?_, fun c j => ?_, rfl⟩
  · rw [hat, balanceOf, hrow]
    split_ifs with hboth
    · rw [hboth.1, hboth.2, hr]
    · rw [add_zero, balanceOf]
  · rw [hat, lockedOf, hrow]
    split_ifs with hboth
    · rw [hboth.1, hboth.2, hr]
    · rw [add_zero, lockedOf]

theorem spotSum_eq (h : SpotMove i b l s t) (F : Finset ℕ) (hb : ∀ a ∉ F, b a = 0) (j : ℕ) :
    spotSum t j = spotSum s j + if j = i then ∑ a ∈ F, b a else 0 := by
  have hsub := spotSum_sub (s := s) (t := t) (i := j) F fun a ha => by
    rw [h.balance, hb a ha, ite_self, add_zero]
  simp only [h.balance, add_sub_cancel_left] at hsub
  split_ifs with hj
  · simp only [if_pos hj] at hsub
    omega
  · simp only [if_neg hj, Finset.sum_const_zero] at hsub
    omega

end SpotMove

/-! ### The operations of the account keeper -/

section Operations

variable {a src dst i : ℕ} {x : ℤ} {drain : Bool} {r : Unit} {e : Err}

theorem SpotMove.of_add (h : (addAccountAssetBalance a i x).run s = .ok r t) :
    SpotMove i (Pi.single a x) 0 s t ∧ 0 ≤ balanceOf s a i + x ∧
      (x < 0 → -x ≤ balanceOf s a i - lockedOf s a i) := by
  obtain ⟨_, hrow, h⟩ := run_bind_read_ok.mp h
  cases hrow
  obtain ⟨havail, h⟩ := run_bind_require_ok.mp h
  obtain ⟨hpos, h⟩ := run_bind_require_ok.mp h
  cases run_write.symm.trans h
  have hmove := SpotMove.of_putAsset (s := s) (a := a) (i := i) (x := x) (y := 0)
    (r := { getAccountAsset s a i with balance := balanceOf s a i + x }) (by rw [add_zero, lockedOf])
  rw [Pi.single_zero] at hmove
  exact ⟨hmove, not_lt.mp hpos, fun hx => not_lt.mp fun hlt => havail ⟨hx, hlt⟩⟩

/-- What a transfer takes out of the lock of the account that pays. -/
def drained (s : State) (src i : ℕ) (x : ℤ) (drain : Bool) : ℤ :=
  if drain then min x (lockedOf s src i) else 0

/-- The two rows a transfer writes, both read before the first one is written. -/
def transferred (s : State) (src dst i : ℕ) (x : ℤ) (drain : Bool) : State :=
  (s.putAsset { getAccountAsset s src i with
      lockedBalance := lockedOf s src i - drained s src i x drain
      balance := balanceOf s src i - x }).putAsset
    { getAccountAsset s dst i with balance := balanceOf s dst i + x }

/-- What the account that pays can pay with. -/
def payable (s : State) (src i : ℕ) (drain : Bool) : ℤ :=
  if drain then balanceOf s src i else balanceOf s src i - lockedOf s src i

theorem transferAccountAssetBalance_of_pos (hx : 0 < x) :
    (transferAccountAssetBalance src dst i x drain).run s = .ok r t ↔
      x ≤ payable s src i drain ∧ t = transferred s src dst i x drain := by
  unfold transferAccountAssetBalance
  rw [if_neg hx.ne', if_neg hx.not_gt, run_bind_read_ok]
  constructor
  · rintro ⟨_, hrow, h⟩
    cases hrow
    obtain ⟨hhave, h⟩ := run_bind_require_ok.mp h
    obtain ⟨_, hrow, h⟩ := run_bind_read_ok.mp h
    cases hrow
    cases run_write.symm.trans h
    exact ⟨not_lt.mp hhave, rfl⟩
  · rintro ⟨hhave, rfl⟩
    exact ⟨_, rfl, run_bind_require_ok.mpr ⟨not_lt.mpr hhave, run_bind_read_ok.mpr ⟨_, rfl, rfl⟩⟩⟩

theorem transferAccountAssetBalance_ok
    (h : (transferAccountAssetBalance src dst i x drain).run s = .ok r t) :
    (x = 0 ∧ t = s) ∨ (0 < x ∧ x ≤ payable s src i drain ∧
      t = transferred s src dst i x drain) := by
  rcases lt_trichotomy 0 x with hx | rfl | hx
  · exact .inr ⟨hx, (transferAccountAssetBalance_of_pos hx).mp h⟩
  · rw [transferAccountAssetBalance, if_pos rfl] at h
    exact .inl ⟨rfl, (run_pure_ok.mp h).2⟩
  · simp [transferAccountAssetBalance, if_neg hx.ne, if_pos hx, run_throw] at h

theorem drained_zero (hlock : 0 ≤ lockedOf s src i) : drained s src i 0 drain = 0 := by
  rw [drained, min_eq_left hlock, ite_self]

theorem SpotMove.of_transferred (hne : src ≠ dst) :
    SpotMove i (Pi.single src (-x) + Pi.single dst x) (Pi.single src (-drained s src i x drain)) s
      (transferred s src dst i x drain) := by
  have hdebit := SpotMove.of_putAsset (s := s) (a := src) (i := i) (x := -x)
    (y := -drained s src i x drain) (r := { getAccountAsset s src i with
      lockedBalance := lockedOf s src i - drained s src i x drain
      balance := balanceOf s src i - x }) (by simp only [sub_eq_add_neg])
  -- the debit leaves the row of the other account as it was read
  have hcredit : ∀ u, getAccountAsset u dst i = getAccountAsset s dst i →
      SpotMove i (Pi.single dst x) (Pi.single dst 0) u
        (u.putAsset { getAccountAsset s dst i with balance := balanceOf s dst i + x }) := by
    intro u hu
    exact .of_putAsset (by simp only [balanceOf, lockedOf, hu, add_zero])
  have hmove := hdebit.trans (hcredit _ (by
    rw [getAccountAsset_putAsset, (getAccountAsset_index s src i).1, if_neg fun h => hne h.1.symm]))
  rw [Pi.single_zero, add_zero] at hmove
  exact hmove

theorem getAccountAsset_transferred (a j : ℕ) :
    getAccountAsset (transferred s src dst i x drain) a j =
      if a = dst ∧ j = i then { getAccountAsset s dst i with balance := balanceOf s dst i + x }
      else if a = src ∧ j = i then { getAccountAsset s src i with
        lockedBalance := lockedOf s src i - drained s src i x drain
        balance := balanceOf s src i - x }
      else getAccountAsset s a j := by
  obtain ⟨ha, hi⟩ := getAccountAsset_index s src i
  obtain ⟨ha', hi'⟩ := getAccountAsset_index s dst i
  rw [transferred, getAccountAsset_putAsset, getAccountAsset_putAsset, ha, hi, ha', hi']

theorem SpotMove.of_transferred_self :
    SpotMove i (Pi.single src x) 0 s (transferred s src src i x drain) where
  balance a j := by
    rw [balanceOf, getAccountAsset_transferred]
    by_cases ha : a = src
    · by_cases hj : j = i
      · simp [ha, hj]
      · simp [hj, balanceOf]
    · simp [ha, balanceOf]
  locked a j := by
    rw [lockedOf, getAccountAsset_transferred]
    by_cases hboth : a = src ∧ j = i
    · simp [hboth, lockedOf]
    · simp [hboth, lockedOf]
  frame := rfl

/-- A transfer between two accounts: a maker pays out of its lock first, a taker out of what is not
locked. -/
theorem SpotMove.of_transfer (hne : src ≠ dst) (hlock : 0 ≤ lockedOf s src i)
    (h : (transferAccountAssetBalance src dst i x drain).run s = .ok r t) :
    SpotMove i (Pi.single src (-x) + Pi.single dst x)
        (Pi.single src (-drained s src i x drain)) s t ∧
      0 ≤ x ∧ (0 < x → x ≤ payable s src i drain) := by
  rcases transferAccountAssetBalance_ok h with ⟨rfl, rfl⟩ | ⟨hx, hhave, rfl⟩
  · rw [drained_zero hlock, neg_zero, Pi.single_zero, Pi.single_zero, add_zero]
    exact ⟨SpotMove.refl i t, le_rfl, fun h => absurd h (lt_irrefl 0)⟩
  · exact ⟨SpotMove.of_transferred hne, hx.le, fun _ => hhave⟩

/-- What a transfer does to the locks, also if it is one of an account to itself: the credit then
overwrites what was drained. -/
theorem transfer_locked (hlock : 0 ≤ lockedOf s src i)
    (h : (transferAccountAssetBalance src dst i x drain).run s = .ok r t) (c j : ℕ) :
    lockedOf t c j = lockedOf s c j -
      if src ≠ dst ∧ c = src ∧ j = i then drained s src i x drain else 0 := by
  by_cases hne : src = dst
  · rw [if_neg fun hall => hall.1 hne, sub_zero]
    subst hne
    rcases transferAccountAssetBalance_ok h with ⟨-, rfl⟩ | ⟨-, -, rfl⟩
    · rfl
    · rw [SpotMove.of_transferred_self.locked, Pi.zero_apply, ite_self, add_zero]
  · obtain ⟨hmove, -, -⟩ := SpotMove.of_transfer hne hlock h
    rw [hmove.locked, sub_eq_add_neg]
    congr 1
    by_cases hj : j = i
    · by_cases hc : c = src
      · subst hc
        simp [hj, hne]
      · simp [hj, hc]
    · simp [hj]

theorem SpotMove.of_increase (h : (increaseLockedBalance a i x).run s = .ok r t) :
    SpotMove i 0 (Pi.single a x) s t ∧ 0 ≤ x ∧
      (0 < x → x ≤ balanceOf s a i - lockedOf s a i) := by
  unfold increaseLockedBalance at h
  split_ifs at h with hzero hneg
  · obtain ⟨-, rfl⟩ := run_pure_ok.mp h
    subst hzero
    rw [Pi.single_zero]
    exact ⟨SpotMove.refl i t, le_rfl, fun h => absurd h (lt_irrefl 0)⟩
  · simp [run_throw] at h
  · obtain ⟨_, hrow, h⟩ := run_bind_read_ok.mp h
    cases hrow
    obtain ⟨havail, h⟩ := run_bind_require_ok.mp h
    cases run_write.symm.trans h
    have hmove := SpotMove.of_putAsset (s := s) (a := a) (i := i) (x := 0) (y := x)
      (r := { getAccountAsset s a i with lockedBalance := lockedOf s a i + x })
      (by rw [add_zero, balanceOf])
    rw [Pi.single_zero] at hmove
    exact ⟨hmove, not_lt.mp hneg, fun _ => not_lt.mp havail⟩

theorem SpotMove.of_decrease (hlock : 0 ≤ lockedOf s a i)
    (h : (decreaseLockedBalance a i x).run s = .ok r t) :
    SpotMove i 0 (Pi.single a (-min x (lockedOf s a i))) s t ∧ 0 ≤ x := by
  unfold decreaseLockedBalance at h
  split_ifs at h with hzero hneg
  · obtain ⟨-, rfl⟩ := run_pure_ok.mp h
    subst hzero
    rw [min_eq_left hlock, neg_zero, Pi.single_zero]
    exact ⟨SpotMove.refl i t, le_rfl⟩
  · simp [run_throw] at h
  · obtain ⟨_, hrow, h⟩ := run_bind_read_ok.mp h
    cases hrow
    cases run_write.symm.trans h
    have hmove := SpotMove.of_putAsset (s := s) (a := a) (i := i) (x := 0)
      (y := -min x (lockedOf s a i)) (r := { getAccountAsset s a i with
        lockedBalance := lockedOf s a i - min x (lockedOf s a i) })
      (by rw [add_zero, balanceOf, sub_eq_add_neg])
    rw [Pi.single_zero] at hmove
    exact ⟨hmove, not_lt.mp hneg⟩

theorem transferAccountAssetBalance_failsFirst :
    FailsFirst (transferAccountAssetBalance src dst i x drain) :=
  .ite (.of_total fun _ => ⟨_, _, rfl⟩) <| .ite .throw <| .read_bind fun _ => .require_bind <|
    .read_bind fun _ => .of_total fun _ => ⟨_, _, rfl⟩

theorem increaseLockedBalance_failsFirst : FailsFirst (increaseLockedBalance a i x) :=
  .ite (.of_total fun _ => ⟨_, _, rfl⟩) <| .ite .throw <| .read_bind fun _ => .require_bind <|
    .of_total fun _ => ⟨_, _, rfl⟩

theorem decreaseLockedBalance_failsFirst : FailsFirst (decreaseLockedBalance a i x) :=
  .ite (.of_total fun _ => ⟨_, _, rfl⟩) <| .ite .throw <| .read_bind fun _ =>
    .of_total fun _ => ⟨_, _, rfl⟩

/-- The balances of all accounts sum up to what they did, the lock of the account that pays shrank by
at most the amount, and nothing but the two rows changed. -/
structure Transferred (src dst i : ℕ) (x : ℤ) (s t : State) : Prop where
  sum : spotSum t i = spotSum s i
  lock : lockedOf s src i - x ≤ lockedOf t src i
  rows : ∀ a j, ¬ ((a = src ∨ a = dst) ∧ j = i) → getAccountAsset t a j = getAccountAsset s a j
  frame : t = { s with account := { s.account with accountAssets := t.account.accountAssets } }

theorem drained_le (hx : 0 ≤ x) : drained s src i x drain ≤ x := by
  unfold drained
  split_ifs
  · exact min_le_left _ _
  · exact hx

theorem Transferred.of_ne (hne : src ≠ dst) (hx : 0 ≤ x) :
    Transferred src dst i x s (transferred s src dst i x drain) where
  sum := by
    have hmove : SpotMove i _ _ s (transferred s src dst i x drain) := .of_transferred hne
    rw [hmove.spotSum_eq {src, dst} fun a ha => ?_, if_pos rfl, Finset.sum_pair hne]
    · simp [hne, hne.symm]
    · simp only [Finset.mem_insert, Finset.mem_singleton, not_or] at ha
      simp [ha.1, ha.2]
  lock := by
    have hle : drained s src i x drain ≤ x := drained_le hx
    rw [(SpotMove.of_transferred hne).locked, if_pos rfl, Pi.single_eq_same]
    omega
  rows a j hother := by
    rw [getAccountAsset_transferred, if_neg fun h => hother ⟨.inr h.1, h.2⟩,
      if_neg fun h => hother ⟨.inl h.1, h.2⟩]
  frame := rfl

/-- Transfers conserve an asset if and only if they are not made by an account to itself, or are
refused: read before the debit is written, the row is credited as if nothing had been taken out of
it. -/
theorem transfer_conserves_iff (s : State) (src dst i : ℕ) (x : ℤ) (drain : Bool) (hx : 0 < x) :
    ((∀ r t, (transferAccountAssetBalance src dst i x drain).run s = .ok r t →
        Transferred src dst i x s t) ∧
      ∀ e t, (transferAccountAssetBalance src dst i x drain).run s = .error e t → t = s) ↔
      src ≠ dst ∨ payable s src i drain < x := by
  constructor
  · rintro ⟨hok, -⟩
    by_contra! hcon
    obtain ⟨rfl, hhave⟩ := hcon
    have hsum := (hok () _ ((transferAccountAssetBalance_of_pos hx).mpr ⟨hhave, rfl⟩)).sum
    rw [SpotMove.of_transferred_self.spotSum_eq {src} fun a ha => by
      simp [Finset.notMem_singleton.mp ha], if_pos rfl, Finset.sum_singleton,
      Pi.single_eq_same] at hsum
    omega
  · intro hcase
    refine ⟨fun r t h => ?_, transferAccountAssetBalance_failsFirst s⟩
    obtain ⟨hhave, rfl⟩ := (transferAccountAssetBalance_of_pos hx).mp h
    exact .of_ne (hcase.resolve_right hhave.not_gt) hx.le

/-- An account pays 5 of its 7 to itself, and holds 12. -/
theorem transfer_to_self_mints :
    let s := ({} : State).putAsset { accountIndex := 3, assetIndex := 1, balance := 7 }
    ∃ t, (transferAccountAssetBalance 3 3 1 5 false).run s = .ok () t ∧
      spotSum s 1 = 7 ∧ spotSum t 1 = 12 := by
  refine ⟨_, rfl, ?_, ?_⟩ <;> decide +kernel

/-- The same account pays 5 to another one. -/
theorem transfer_conserves_iff_two_accounts :
    let s := ({} : State).putAsset { accountIndex := 3, assetIndex := 1, balance := 7 }
    (0 : ℤ) < 5 ∧ ∀ r t, (transferAccountAssetBalance 3 4 1 5 false).run s = .ok r t →
      Transferred 3 4 1 5 s t :=
  ⟨by decide, ((transfer_conserves_iff _ 3 4 1 5 false (by decide)).mpr (.inl (by decide))).1⟩

end Operations

/-! ### What does not touch the ledger -/

/-- The rows of the ledger, the registry of assets and the bank are the same. -/
structure SameSpot (s t : State) : Prop where
  rows : t.account.accountAssets = s.account.accountAssets
  assets : t.assets = s.assets
  bank : t.bank = s.bank

instance : IsPreorder State SameSpot where
  refl _ := ⟨rfl, rfl, rfl⟩
  trans _ _ _ h h' := ⟨h'.rows.trans h.rows, h'.assets.trans h.assets, h'.bank.trans h.bank⟩

namespace SameSpot

theorem of_bookOnly (h : BookOnly s t) : SameSpot s t := by
  rw [h]
  exact ⟨rfl, rfl, rfl⟩

theorem of_traded (h : Traded s t) : SameSpot s t := by
  rw [h.frame]
  exact ⟨rfl, rfl, rfl⟩

theorem of_settled (h : Settled s t) : SameSpot s t := by
  rw [h.frame]
  exact ⟨rfl, rfl, rfl⟩

theorem of_forced (h : Forced s t) : SameSpot s t := by
  rw [h.frame]
  exact ⟨rfl, rfl, rfl⟩

theorem row (h : SameSpot s t) (a i : ℕ) : getAccountAsset t a i = getAccountAsset s a i := by
  rw [getAccountAsset, h.rows, getAccountAsset]

theorem balance (h : SameSpot s t) (a i : ℕ) : balanceOf t a i = balanceOf s a i := by
  rw [balanceOf, h.row, balanceOf]

theorem locked (h : SameSpot s t) (a i : ℕ) : lockedOf t a i = lockedOf s a i := by
  rw [lockedOf, h.row, lockedOf]

theorem sum (h : SameSpot s t) (i : ℕ) : spotSum t i = spotSum s i := by
  rw [spotSum, h.rows, spotSum]

end SameSpot

theorem addCollateral_sameSpot (a : ℕ) (x : ℤ) : Keeps SameSpot (addCollateral a x) :=
  Keeps.read.bind fun _ => Keeps.write fun _ => ⟨rfl, rfl, rfl⟩

end PerpDex
