/-
Truncating division and two's-complement words, as used by integer code on a machine.

* `exists_tdiv_rem` — a truncated quotient with its remainder;
* `sum_neg_tdiv_nonpos_iff` — the sign of a sum of truncated quotients of numbers that add up to zero;
* `redeem_le_of_priced`, `redeem_first_le_iff` — rounding of a deposit into shares and back;
* `Words` — what operations on words do with their exact results: code can be run with words that wrap
  around and with words that refuse to.

Main result: `abs_two_mul_split_le_one_iff`.
-/
import Mathlib.Algebra.Order.Ring.Int
import Mathlib.Algebra.Order.Ring.Abs
import Mathlib.Tactic.Linarith
import Mathlib.Tactic.LinearCombination
import Mathlib.Tactic.Ring

namespace Arith

/-! ### Truncating division -/

theorem exists_tdiv_rem (a : ℤ) {b : ℤ} (hb : b ≠ 0) :
    ∃ r, a = b * a.tdiv b + r ∧ |r| < |b| ∧ 0 ≤ a * r ∧ (a = 0 → r = 0) := by
  refine ⟨a.tmod b, (Int.mul_tdiv_add_tmod a b).symm, ?_, ?_, ?_⟩
  · rw [Int.abs_eq_natAbs, Int.abs_eq_natAbs, Int.natAbs_tmod]
    exact_mod_cast Nat.mod_lt _ (Int.natAbs_pos.mpr hb)
  · rcases le_total 0 a with ha | ha
    · exact mul_nonneg ha (Int.tmod_nonneg b ha)
    · have h := Int.tmod_nonneg b (neg_nonneg.mpr ha)
      rw [Int.neg_tmod] at h
      exact mul_nonneg_of_nonpos_of_nonpos ha (neg_nonneg.mp h)
  · rintro rfl
    exact Int.zero_tmod b

theorem abs_mul_tdiv_le (x : ℤ) {a b : ℤ} (ha : 0 ≤ a) (hab : a ≤ b) : |(x * a).tdiv b| ≤ |x| := by
  rw [Int.abs_eq_natAbs, Int.abs_eq_natAbs, Int.natAbs_tdiv, Int.natAbs_mul]
  refine Int.ofNat_le.mpr (Nat.div_le_of_le_mul ?_)
  rw [Nat.mul_comm]
  exact Nat.mul_le_mul_right _ (by omega)

theorem sum_tmod_eq_mul_sum_neg_tdiv {α : Type*} (k : ℤ) (f : α → ℤ) (l : List α) :
    (l.map fun a => (f a).tmod k).sum = k * (l.map fun a => -(f a).tdiv k).sum + (l.map f).sum := by
  induction l with
  | nil => simp
  | cons a l ih =>
    have ha := Int.mul_tdiv_add_tmod (f a) k
    simp only [List.map_cons, List.sum_cons]
    linarith

theorem sum_neg_tdiv_nonpos_iff {α : Type*} {k : ℤ} (hk : 0 < k) {f : α → ℤ} {l : List α}
    (hsum : (l.map f).sum = 0) :
    (l.map fun a => -(f a).tdiv k).sum ≤ 0 ↔ (l.map fun a => (f a).tmod k).sum ≤ 0 := by
  rw [sum_tmod_eq_mul_sum_neg_tdiv, hsum, add_zero]
  constructor
  · intro h
    exact mul_nonpos_of_nonneg_of_nonpos hk.le h
  · intro h
    exact nonpos_of_mul_nonpos_right h hk

theorem rem_mul_rem_nonpos {a b r r' : ℤ} (hab : a * b ≤ 0) (hr : 0 ≤ a * r) (hr' : 0 ≤ b * r')
    (hr0 : a = 0 → r = 0) (hr0' : b = 0 → r' = 0) : r * r' ≤ 0 := by
  by_contra hpos
  push Not at hpos
  have ha : a ≠ 0 := by
    intro h
    simp [hr0 h] at hpos
  have hb : b ≠ 0 := by
    intro h
    simp [hr0' h] at hpos
  have har : 0 < a * r := lt_of_le_of_ne hr (mul_ne_zero ha (left_ne_zero_of_mul hpos.ne')).symm
  have hbr : 0 < b * r' := lt_of_le_of_ne hr' (mul_ne_zero hb (right_ne_zero_of_mul hpos.ne')).symm
  have hprod : (a * r) * (b * r') = (a * b) * (r * r') := by ring
  have hneg := mul_nonpos_of_nonpos_of_nonneg hab hpos.le
  linarith [mul_pos har hbr]

/-- Twice an integer plus a rounding error of at most a unit is within a unit of zero exactly when the
value it was rounded from, `k - r / s`, lies strictly between `-1` and `1`; `ε` says on which side of
it `r` lies. -/
private theorem two_mul_add_abs_le_one_iff {s k r r' ε : ℤ} (hs : 0 < s) (hr : |r| < s) (hr' : |r'| < s)
    (hsign : r * r' ≤ 0) (hε : s * ε = r' - r) :
    |2 * k + ε| ≤ 1 ↔ |s * k - r| < s := by
  rw [abs_lt] at hr hr'
  rw [abs_le, abs_lt]
  have hε1 : ε < 2 := by
    by_contra hge
    nlinarith
  have hε2 : -2 < ε := by
    by_contra hge
    nlinarith
  obtain rfl | rfl | rfl : ε = -1 ∨ ε = 0 ∨ ε = 1 := by omega
  · -- the remainder is positive: the value lies strictly between `k - 1` and `k`
    have hpos : 0 < r := by
      by_contra hle
      nlinarith
    constructor
    · rintro ⟨h1, h2⟩
      obtain rfl | rfl : k = 0 ∨ k = 1 := by omega
      · constructor <;> linarith
      · constructor <;> linarith
    · rintro ⟨h1, h2⟩
      have hlow : -1 < k := by
        by_contra hge
        nlinarith
      have hhigh : k < 2 := by
        by_contra hge
        nlinarith
      omega
  · -- both remainders vanish, the value is `k` itself
    have hzero : r = 0 := by
      have heq : r' = r := by linarith
      rw [heq] at hsign
      nlinarith
    subst hzero
    constructor
    · rintro ⟨h1, h2⟩
      obtain rfl : k = 0 := by omega
      constructor <;> linarith
    · rintro ⟨h1, h2⟩
      have hlow : -1 < k := by
        by_contra hge
        nlinarith
      have hhigh : k < 1 := by
        by_contra hge
        nlinarith
      omega
  · -- the remainder is negative: the value lies strictly between `k` and `k + 1`
    have hneg : r < 0 := by
      by_contra hle
      nlinarith
    constructor
    · rintro ⟨h1, h2⟩
      obtain rfl | rfl : k = 0 ∨ k = -1 := by omega
      · constructor <;> linarith
      · constructor <;> linarith
    · rintro ⟨h1, h2⟩
      have hlow : -2 < k := by
        by_contra hge
        nlinarith
      have hhigh : k < 1 := by
        by_contra hge
        nlinarith
      omega

/-- An amount `q` split in the proportion of `d` and `s + d` by two truncating divisions: twice the
distance of `c` from the first share, corrected by what was lost, is at most a unit exactly when `c` is
less than a unit away from the exact share. -/
theorem abs_two_mul_split_le_one_iff {q d s : ℤ} (c : ℤ) (hs : s ≠ 0) (hopp : d * (s + d) ≤ 0) :
    |2 * (c + (q * d).tdiv (-s)) + (q - (q * d).tdiv (-s) - (q * (s + d)).tdiv s)| ≤ 1 ↔
      |s * c - q * d| < |s| := by
  obtain ⟨r, hr, hlt, hsgn, hzero⟩ := exists_tdiv_rem (q * d) (neg_ne_zero.mpr hs)
  obtain ⟨r', hr', hlt', hsgn', hzero'⟩ := exists_tdiv_rem (q * (s + d)) hs
  rw [abs_neg] at hlt
  set t := (q * d).tdiv (-s)
  set t' := (q * (s + d)).tdiv s
  have hsign : r * r' ≤ 0 := by
    refine rem_mul_rem_nonpos ?_ hsgn hsgn' hzero hzero'
    have heq : q * d * (q * (s + d)) = q ^ 2 * (d * (s + d)) := by ring
    rw [heq]
    exact mul_nonpos_of_nonneg_of_nonpos (sq_nonneg q) hopp
  have hval : s * c - q * d = s * (c + t) - r := by linear_combination -hr
  have herr : s * (q - t - t') = r' - r := by linear_combination hr' - hr
  rw [hval]
  rcases lt_or_gt_of_ne hs with hneg | hpos
  · -- all signs turn with the sign of `s`
    rw [abs_of_neg hneg] at hlt hlt' ⊢
    have h := @two_mul_add_abs_le_one_iff (-s) (c + t) (-r) (-r') (q - t - t') (by omega)
      (by rwa [abs_neg]) (by rwa [abs_neg]) (by rwa [neg_mul_neg]) (by linear_combination -herr)
    rwa [show -s * (c + t) - -r = -(s * (c + t) - r) by ring, abs_neg] at h
  · rw [abs_of_pos hpos] at hlt hlt' ⊢
    exact two_mul_add_abs_le_one_iff hpos hlt hlt' hsign herr

/-! ### 64-bit words -/

/-- The signed 64-bit word with the value of `x` modulo `2 ^ 64`. -/
def wrap64 (x : ℤ) : ℤ := x.bmod (2 ^ 64)

theorem wrap64_of_mem {x : ℤ} (hlo : -2 ^ 63 ≤ x) (hhi : x < 2 ^ 63) : wrap64 x = x := by
  unfold wrap64
  exact Int.bmod_eq_of_le (by omega) (by omega)

theorem wrap64_of_lt_min {x : ℤ} (hlo : -2 ^ 64 ≤ x) (hhi : x < -2 ^ 63) :
    wrap64 x = x + 2 ^ 64 := by
  have hturn : wrap64 x = wrap64 (x + 2 ^ 64) := by
    unfold wrap64
    exact (Int.add_bmod_right x (2 ^ 64)).symm
  rw [hturn, wrap64_of_mem (by omega) (by omega)]

/-- The unsigned 64-bit word with the value of a number modulo `2 ^ 64`. -/
def word64 (n : ℕ) : ℕ := n % 2 ^ 64

theorem word64_of_lt {n : ℕ} (h : n < 2 ^ 64) : word64 n = n := Nat.mod_eq_of_lt h

theorem word64_of_ge {n : ℕ} (hlo : 2 ^ 64 ≤ n) (hhi : n < 2 * 2 ^ 64) : word64 n = n - 2 ^ 64 := by
  unfold word64
  omega

/-- How often a word with the least value `lo` wraps around to hold `x`. -/
def turns (lo x : ℤ) : ℤ := (x - lo) / 2 ^ 64

theorem wrap64_eq_sub (x : ℤ) : wrap64 x = x - 2 ^ 64 * turns (-2 ^ 63) x := by
  unfold wrap64 turns
  rw [Int.bmod_def]
  split <;> omega

theorem word64_eq_sub (n : ℕ) : (word64 n : ℤ) = n - 2 ^ 64 * turns 0 n := by
  unfold word64 turns
  omega

/-- Two numbers wrap equally often, or, by chance, the words they leave are in the order of the turns. -/
def OrderKept (lo x y : ℤ) : Prop :=
  turns lo x = turns lo y ∨
    (turns lo x < turns lo y ↔ x - y < 2 ^ 64 * (turns lo x - turns lo y))

theorem words_lt_iff (lo x y : ℤ) :
    (x - 2 ^ 64 * turns lo x < y - 2 ^ 64 * turns lo y ↔ x < y) ↔ OrderKept lo x y := by
  unfold OrderKept turns
  omega

theorem wrap64_wrap64_add (a b : ℤ) : wrap64 (wrap64 a + b) = wrap64 (a + b) := by
  rw [wrap64, wrap64, wrap64, Int.bmod_add_bmod]

theorem foldl_words {α β : Type} [AddMonoid β] {word : β → β}
    (hword : ∀ a b, word (word a + b) = word (a + b)) (f : α → β) (l : List α) (t : β) :
    l.foldl (fun t x => word (t + f x)) (word t) = word (t + (l.map f).sum) := by
  induction l generalizing t with
  | nil => rw [List.foldl_nil, List.map_nil, List.sum_nil, add_zero]
  | cons x rest ih => rw [List.foldl_cons, hword, ih, List.map_cons, List.sum_cons, add_assoc]

/-- What operations on words do with their exact results. -/
structure Words (ε : Type) where
  int64 : ℤ → Except ε ℤ
  uint64 : ℕ → Except ε ℕ
  uint32 : ℕ → Except ε ℕ

namespace Words

variable {ε : Type}

/-- They keep the low bits. -/
def machine : Words ε where
  int64 x := .ok (wrap64 x)
  uint64 n := .ok (word64 n)
  uint32 n := .ok (n % 2 ^ 32)

/-- They refuse what does not fit. -/
def checked (e : ε) : Words ε where
  int64 x := if -2 ^ 63 ≤ x ∧ x < 2 ^ 63 then .ok x else .error e
  uint64 n := if n < 2 ^ 64 then .ok n else .error e
  uint32 n := if n < 2 ^ 32 then .ok n else .error e

/-- What fits is exact. -/
structure Exact (w : Words ε) : Prop where
  int64 : ∀ {x}, -2 ^ 63 ≤ x → x < 2 ^ 63 → w.int64 x = .ok x
  uint64 : ∀ {n}, n < 2 ^ 64 → w.uint64 n = .ok n
  uint32 : ∀ {n}, n < 2 ^ 32 → w.uint32 n = .ok n

theorem machine_exact : (machine : Words ε).Exact where
  int64 hlo hhi := congrArg Except.ok (wrap64_of_mem hlo hhi)
  uint64 h := congrArg Except.ok (word64_of_lt h)
  uint32 h := congrArg Except.ok (Nat.mod_eq_of_lt h)

theorem checked_exact (e : ε) : (checked e).Exact where
  int64 hlo hhi := if_pos ⟨hlo, hhi⟩
  uint64 h := if_pos h
  uint32 h := if_pos h

end Words

/-! ### Shares of a pool

A pool of value `V` has `T` shares; a deposit of `u` units is worth `u * M`. -/

theorem tdiv_le_iff {a b c : ℤ} (ha : 0 ≤ a) (hb : 0 < b) : a.tdiv b ≤ c ↔ a < (c + 1) * b := by
  rw [Int.tdiv_eq_ediv_of_nonneg ha, ← Int.lt_add_one_iff, Int.ediv_lt_iff_lt_mul hb]

theorem le_tdiv_iff {a b c : ℤ} (ha : 0 ≤ a) (hb : 0 < b) : c ≤ a.tdiv b ↔ c * b ≤ a := by
  rw [Int.tdiv_eq_ediv_of_nonneg ha, Int.le_ediv_iff_mul_le hb]

theorem tdiv_mul_le {a b : ℤ} (ha : 0 ≤ a) (hb : 0 < b) : a.tdiv b * b ≤ a :=
  (le_tdiv_iff ha hb).mp le_rfl

theorem mint_keeps_price {T V M u : ℤ} (hT : 0 ≤ T) (hV : 0 < V) (hM : 0 ≤ M) (hu : 0 ≤ u) :
    V * (T + (u * T * M).tdiv V) ≤ (V + u * M) * T := by
  have hround := tdiv_mul_le (mul_nonneg (mul_nonneg hu hT) hM) hV
  linarith

section Redeeming

/-! `n` shares are redeemed: `v` units are what they are worth, `f` of the shares are a fee, and `p`
units are paid for the rest. -/

variable {T V M n v f p : ℤ}

theorem redeem_keeps_price (hn : 0 < n) (hf : f ≤ n) (hTM : 0 ≤ T * M) (hworth : v * (T * M) ≤ n * V)
    (hpaid : p * n ≤ v * (n - f)) : V * (T - (n - f)) ≤ (V - p * M) * T := by
  have hscaled : n * (p * (T * M)) ≤ n * (V * (n - f)) := by
    calc n * (p * (T * M)) = p * n * (T * M) := by ring
      _ ≤ v * (n - f) * (T * M) := mul_le_mul_of_nonneg_right hpaid hTM
      _ = v * (T * M) * (n - f) := by ring
      _ ≤ n * V * (n - f) := mul_le_mul_of_nonneg_right hworth (sub_nonneg.mpr hf)
      _ = n * (V * (n - f)) := by ring
  have hle := le_of_mul_le_mul_left hscaled hn
  linarith

theorem redeem_le_available {A : ℤ} (hT : 0 < T) (hM : 0 ≤ M) (hworth : v * (T * M) ≤ n * V)
    (hcap : n * V ≤ A * T) (hpaid : p ≤ v) : p * M ≤ A := by
  have hscaled : p * M * T ≤ A * T := by
    calc p * M * T ≤ v * M * T := by gcongr
      _ = v * (T * M) := by ring
      _ ≤ A * T := hworth.trans hcap
  exact le_of_mul_le_mul_right hscaled hT

theorem redeem_ge_principal {P F r : ℤ} (hn : 0 < n) (hV : 0 < V) (hF : 0 < F) (hr₀ : 0 ≤ r)
    (hr : r ≤ F) (hv : 0 ≤ v) (hprofit : P ≤ v) (hworth : v * (T * M) ≤ n * V)
    (hfee : f * (F * V) ≤ (v - P) * r * T * M) : P * n ≤ v * (n - f) := by
  have hgain := sub_nonneg.mpr hprofit
  have hscaled : (F * V) * (v * f) ≤ (F * V) * ((v - P) * n) := by
    calc (F * V) * (v * f) = v * (f * (F * V)) := by ring
      _ ≤ v * ((v - P) * r * T * M) := mul_le_mul_of_nonneg_left hfee hv
      _ = (v - P) * r * (v * (T * M)) := by ring
      _ ≤ (v - P) * r * (n * V) := mul_le_mul_of_nonneg_left hworth (mul_nonneg hgain hr₀)
      _ ≤ (v - P) * F * (n * V) := by gcongr
      _ = (F * V) * ((v - P) * n) := by ring
  have hle := le_of_mul_le_mul_left hscaled (mul_pos hF hV)
  linarith

end Redeeming

theorem redeem_le_of_priced {T V M u : ℤ} (hT : 0 < T) (hV : 0 < V) (hM : 0 < M) (hu : 0 ≤ u) :
    let k := (u * T * M).tdiv V
    (k * (V + u * M)).tdiv ((T + k) * M) ≤ u := by
  intro k
  have hnum : 0 ≤ u * T * M := by positivity
  have hk : 0 ≤ k := Int.tdiv_nonneg hnum hV.le
  have hround : k * V ≤ u * T * M := tdiv_mul_le hnum hV
  rw [tdiv_le_iff (by positivity) (by positivity)]
  have hexact : k * (V + u * M) ≤ u * ((T + k) * M) := by nlinarith
  have hrest : 0 < (T + k) * M := by positivity
  nlinarith

/-- The first deposit is redeemed for the whole pool: at most the deposit exactly when the pool was
worth less than one unit. -/
theorem redeem_first_le_iff {k V M u : ℤ} (hk : 0 < k) (hM : 0 < M) (hpos : 0 < V + u * M) :
    (k * (V + u * M)).tdiv (k * M) ≤ u ↔ V < M := by
  rw [Int.mul_tdiv_mul_of_pos _ _ hk, tdiv_le_iff hpos.le hM]
  constructor
  · intro h
    linarith
  · intro h
    linarith

/-! ### Halving -/

theorem abs_emod_two (x : ℤ) : |x| % 2 = x % 2 := by
  rcases abs_choice x with h | h
  · rw [h]
  · rw [h]
    omega

/-- Two sizes that move by opposite amounts change their sum of absolute values by an even
number. -/
theorem even_abs_sub (x y n : ℤ) : (|x + n| - |x| + (|y - n| - |y|)) % 2 = 0 := by
  have h₁ := abs_emod_two (x + n)
  have h₂ := abs_emod_two x
  have h₃ := abs_emod_two (y - n)
  have h₄ := abs_emod_two y
  omega

theorem two_mul_tdiv_two {x : ℤ} (h : x % 2 = 0) : 2 * x.tdiv 2 = x :=
  Int.mul_tdiv_cancel_of_dvd (Int.dvd_of_emod_eq_zero h)

end Arith
