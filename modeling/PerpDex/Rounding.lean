/-
Rounding to the nearest number of a given precision, ties to even.

* `roundTo`, `lost` — the nearest number with a mantissa of `p` bits, and what rounding takes away.

Main result: `le_roundTo_iff`.

Exponents are not bounded.  The numbers of `p` bits above `2 ^ e` and at most `2 ^ (e + 1)` are the
multiples of `unit p e`; the distance to the next lower one is half as long at a power of two.
-/
import Mathlib.Data.Int.Log
import Mathlib.Data.Rat.Floor
import Mathlib.Tactic.Linarith
import Mathlib.Tactic.LinearCombination
import Mathlib.Tactic.Positivity

namespace Rounding

/-! ### Integers -/

/-- The fraction is dropped if it is less than one half, or one half over an even integer. -/
def Drops (x : ℚ) : Prop := Int.fract x < 1 / 2 ∨ Int.fract x = 1 / 2 ∧ Even ⌊x⌋

instance (x : ℚ) : Decidable (Drops x) := inferInstanceAs (Decidable (_ ∨ _))

def nearestEven (x : ℚ) : ℤ := if Drops x then ⌊x⌋ else ⌊x⌋ + 1

/-- **What is rounded to `k` or above.** -/
theorem le_nearestEven_iff (k : ℤ) (x : ℚ) :
    k ≤ nearestEven x ↔ (k : ℚ) - 1 / 2 < x ∨ x = k - 1 / 2 ∧ Even k := by
  have hx := Int.floor_add_fract x
  have hlow := Int.fract_nonneg x
  have hhigh := Int.fract_lt_one x
  set n := ⌊x⌋ with hn
  rcases lt_trichotomy k (n + 1) with hk | rfl | hk
  · -- at most the integer part
    have hle : (k : ℚ) ≤ n := by exact_mod_cast Int.lt_add_one_iff.mp hk
    refine iff_of_true ?_ (.inl (by linarith))
    unfold nearestEven
    split_ifs <;> omega
  · push_cast
    by_cases hdrop : Drops x
    · rw [nearestEven, if_pos hdrop]
      refine iff_of_false (by omega) ?_
      rcases hdrop with hless | ⟨hhalf, heven⟩
      · rintro (hup | ⟨hup, -⟩) <;> linarith
      · rintro (hup | ⟨-, hodd⟩)
        · linarith
        · exact absurd hodd (by rw [Int.even_add_one]; exact not_not.mpr heven)
    · rw [nearestEven, if_neg hdrop]
      refine iff_of_true le_rfl ?_
      obtain ⟨hge, hodd⟩ := not_or.mp hdrop
      rcases (not_lt.mp hge).lt_or_eq with hmore | hhalf
      · exact .inl (by linarith)
      · exact .inr ⟨by linarith, Int.even_add_one.mpr fun heven => hodd ⟨hhalf.symm, heven⟩⟩
  · have hge : (n : ℚ) + 2 ≤ k := by exact_mod_cast (by omega : n + 2 ≤ k)
    refine iff_of_false ?_ ?_
    · unfold nearestEven
      split_ifs <;> omega
    · rintro (hup | ⟨hup, -⟩) <;> linarith

theorem nearestEven_le_add_half (x : ℚ) : (nearestEven x : ℚ) ≤ x + 1 / 2 := by
  rcases (le_nearestEven_iff (nearestEven x) x).mp le_rfl with h | ⟨h, -⟩ <;> linarith

/-! ### Numbers of a given precision -/

/-- The unit in the last place of the numbers of `p` bits from `2 ^ e` on. -/
def unit (p : ℕ) (e : ℤ) : ℚ := 2 ^ (e + 1 - p)

theorem unit_pos (p : ℕ) (e : ℤ) : 0 < unit p e := zpow_pos (by norm_num) _

theorem pow_mul_unit (q : ℕ) (e : ℤ) : ((2 ^ q : ℤ) : ℚ) * unit (q + 1) e = 2 ^ e := by
  rw [unit, Int.cast_pow, Int.cast_ofNat, ← zpow_natCast, ← zpow_add₀ (by norm_num)]
  congr 1
  push_cast
  ring

theorem pow_succ_mul_unit (q : ℕ) (e : ℤ) : ((2 ^ (q + 1) : ℤ) : ℚ) * unit (q + 1) e = 2 ^ (e + 1) := by
  have h := pow_mul_unit q e
  push_cast at h ⊢
  rw [zpow_add_one₀ (by norm_num), ← h]
  ring

/-- The nearest number of `p` bits. -/
def roundTo (p : ℕ) (x : ℚ) : ℚ := nearestEven (x / unit p (Int.log 2 x)) * unit p (Int.log 2 x)

/-- What rounding takes away. -/
def lost (p : ℕ) (x : ℚ) : ℚ :=
  let a := x / unit p (Int.log 2 x)
  (if Drops a then Int.fract a else Int.fract a - 1) * unit p (Int.log 2 x)

theorem roundTo_eq_sub_lost (p : ℕ) (x : ℚ) : roundTo p x = x - lost p x := by
  have hx : x = (⌊x / unit p (Int.log 2 x)⌋ + Int.fract (x / unit p (Int.log 2 x)))
      * unit p (Int.log 2 x) := by
    rw [Int.floor_add_fract, div_mul_cancel₀ _ (unit_pos p _).ne']
  unfold roundTo lost nearestEven
  dsimp only
  split_ifs
  · linear_combination -hx
  · push_cast
    linear_combination -hx

section Binade

variable {x : ℚ}

theorem pow_log_le (hx : 0 < x) : (2 : ℚ) ^ Int.log 2 x ≤ x := by
  exact_mod_cast Int.zpow_log_le_self (by norm_num : 1 < 2) hx

theorem lt_pow_log (x : ℚ) : x < (2 : ℚ) ^ (Int.log 2 x + 1) := by
  exact_mod_cast Int.lt_zpow_succ_log_self (by norm_num : 1 < 2) x

theorem roundTo_mem (q : ℕ) (hx : 0 < x) :
    2 ^ Int.log 2 x ≤ roundTo (q + 1) x ∧ roundTo (q + 1) x ≤ 2 ^ (Int.log 2 x + 1) := by
  have hu := unit_pos (q + 1) (Int.log 2 x)
  have hlow := pow_log_le hx
  have hhigh := lt_pow_log x
  unfold roundTo
  set a := x / unit (q + 1) (Int.log 2 x) with ha
  rw [← pow_mul_unit q, ← le_div_iff₀ hu, ← ha] at hlow
  rw [← pow_succ_mul_unit q, ← div_lt_iff₀ hu, ← ha] at hhigh
  rw [← pow_mul_unit q, ← pow_succ_mul_unit q]
  constructor
  · refine mul_le_mul_of_nonneg_right (Int.cast_le.mpr ?_) hu.le
    exact (le_nearestEven_iff _ _).mpr (.inl (by linarith))
  · refine mul_le_mul_of_nonneg_right (Int.cast_le.mpr ?_) hu.le
    by_contra hmore
    have hup := (le_nearestEven_iff (2 ^ (q + 1) + 1) a).mp (by omega)
    push_cast at hup hhigh
    rcases hup with hup | ⟨hup, -⟩ <;> linarith

theorem roundTo_le (p : ℕ) (hx : 0 < x) : roundTo p x ≤ x * (1 + 1 / 2 ^ p) := by
  have hu := unit_pos p (Int.log 2 x)
  have hround := mul_le_mul_of_nonneg_right (nearestEven_le_add_half (x / unit p (Int.log 2 x))) hu.le
  rw [add_mul, div_mul_cancel₀ _ hu.ne'] at hround
  have hhalf : 1 / 2 * unit p (Int.log 2 x) = 2 ^ Int.log 2 x / 2 ^ p := by
    rw [unit, zpow_sub₀ (by norm_num), zpow_add_one₀ (by norm_num), zpow_natCast]
    ring
  have hle := div_le_div_of_nonneg_right (pow_log_le hx) (by positivity : (0 : ℚ) ≤ 2 ^ p)
  rw [hhalf] at hround
  calc roundTo p x ≤ x + 2 ^ Int.log 2 x / 2 ^ p := hround
    _ ≤ x + x / 2 ^ p := by linarith
    _ = x * (1 + 1 / 2 ^ p) := by ring

end Binade

/-! ### What is rounded to a number or above -/

/-- The distance of the numbers of `p` bits just below the least one that is not below `N`. -/
def step (p : ℕ) (N : ℚ) : ℚ := unit p (Int.clog 2 N - 1)

/-- How much less than `N` a number may be, and still be rounded to it or above. -/
def slack (p : ℕ) (N : ℚ) : ℚ := N - (⌈N / step p N⌉ - 1 / 2) * step p N

/-- What falls short of `N` by `δ` is rounded to it or above. -/
def Reaches (p : ℕ) (N δ : ℚ) : Prop := δ < slack p N ∨ δ = slack p N ∧ Even ⌈N / step p N⌉

/-- **What is rounded to `N` or above** falls short of it by less than its slack, or by as much if the
tie is broken upwards. -/
theorem le_roundTo_iff (q : ℕ) {N z : ℚ} (hN : 0 < N) (hz : 0 < z) :
    N ≤ roundTo (q + 1) z ↔ Reaches (q + 1) N (N - z) := by
  set E := Int.clog 2 N - 1 with hE
  have hu := unit_pos (q + 1) E
  have hlow : (2 : ℚ) ^ E < N := by
    exact_mod_cast Int.zpow_pred_clog_lt_self (by norm_num : 1 < 2) hN
  have hhigh : N ≤ (2 : ℚ) ^ (E + 1) := by
    rw [hE, sub_add_cancel]
    exact_mod_cast Int.self_le_zpow_clog (by norm_num : 1 < 2) N
  set k := ⌈N / unit (q + 1) E⌉ with hk
  have hreach : Reaches (q + 1) N (N - z) ↔
      ((k : ℚ) - 1 / 2) * unit (q + 1) E < z ∨ z = (k - 1 / 2) * unit (q + 1) E ∧ Even k := by
    unfold Reaches slack step
    rw [← hE, ← hk, sub_lt_sub_iff_left, sub_right_inj]
  -- the least number of `p` bits that is not below `N` is in the range of `E`
  have hklow : (2 : ℚ) ^ E + unit (q + 1) E ≤ k * unit (q + 1) E := by
    rw [← pow_mul_unit q, ← lt_div_iff₀ hu] at hlow
    have hlt := Int.lt_ceil.mpr hlow
    have hle : ((2 ^ q + 1 : ℤ) : ℚ) ≤ k := Int.cast_le.mpr hlt
    have hmul := mul_le_mul_of_nonneg_right hle hu.le
    rw [Int.cast_add, add_mul, pow_mul_unit, Int.cast_one, one_mul] at hmul
    exact hmul
  have hkhigh : k * unit (q + 1) E ≤ 2 ^ (E + 1) := by
    rw [← pow_succ_mul_unit q, ← div_le_iff₀ hu] at hhigh
    have hle : (k : ℚ) ≤ (2 ^ (q + 1) : ℤ) := Int.cast_le.mpr (Int.ceil_le.mpr hhigh)
    rw [← pow_succ_mul_unit q]
    exact mul_le_mul_of_nonneg_right hle hu.le
  obtain ⟨hround, hround'⟩ := roundTo_mem q hz
  rw [hreach]
  rcases lt_trichotomy (Int.log 2 z) E with hlog | hlog | hlog
  · have hle : (2 : ℚ) ^ (Int.log 2 z + 1) ≤ 2 ^ E := zpow_le_zpow_right₀ (by norm_num) hlog
    have hz' := lt_pow_log z
    refine iff_of_false (by linarith) ?_
    rintro (h | ⟨h, -⟩) <;> linarith
  · rw [roundTo, hlog, ← div_le_iff₀ hu, ← Int.ceil_le, ← hk, le_nearestEven_iff, lt_div_iff₀ hu,
      div_eq_iff hu.ne']
  · have hle : (2 : ℚ) ^ (E + 1) ≤ 2 ^ Int.log 2 z := zpow_le_zpow_right₀ (by norm_num) hlog
    have hz' := pow_log_le hz
    exact iff_of_true (by linarith) (.inl (by linarith))

end Rounding
