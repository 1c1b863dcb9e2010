/-
Prices from decimal strings (`services/oracle/providers/types`).

Main results: `price_ingested_iff`, `price_one_tick_low`.

Floats have 256 bits and are rounded to nearest, ties to even, by parsing and by multiplication.
Exponents, which the library reads as well, are left out, and so is the reason why it fails to read a
string.
-/
import PerpDex.PriceDaemon
import PerpDex.Rounding

namespace PerpDex.Oracle

open Rounding

def digitsValue (l : List Char) : Option ℕ :=
  l.foldlM (fun n c => if c.isDigit then some (10 * n + (c.toNat - '0'.toNat)) else none) 0

/-- The digits of a number without a sign as one number, and how many of them follow the point. -/
def parseUnsigned (l : List Char) : Option (ℕ × ℕ) :=
  let whole := l.takeWhile (· ≠ '.')
  let fraction := (l.dropWhile (· ≠ '.')).drop 1
  if whole ++ fraction = [] then none
  else (digitsValue (whole ++ fraction)).map fun m => (m, fraction.length)

def parseDecimal (s : String) : Option (ℤ × ℕ) :=
  match s.toList with
  | '-' :: l => (parseUnsigned l).map fun r => (-r.1, r.2)
  | '+' :: l => (parseUnsigned l).map fun r => (r.1, r.2)
  | l => (parseUnsigned l).map fun r => (r.1, r.2)

def priceFromString (u : Unicode) (s : String) (decimals : ℕ) : Except String ℤ :=
  let s := trimSpace u s
  if s = "" then .error "empty price string"
  else match parseDecimal s with
  | none => .error s!"parse price {s.quote}"
  | some (m, f) =>
    let bf := roundTo 256 (m / 10 ^ f)
    if bf ≤ 0 then .error s!"price {s.quote} must be positive"
    else .ok ⌊roundTo 256 (bf * 10 ^ decimals)⌋

/-! ### What arrives at the chain -/

/-- **What is scaled down to a price** that fits. -/
theorem scalePrice_eq_some_iff {raw : ℤ} {D d v : ℕ} (hd : d ≤ D) (hpos : 0 < v)
    (hfits : v < 2 ^ 32) :
    scalePrice raw D d = some v ↔ v * 10 ^ (D - d) ≤ raw ∧ raw < (v + 1) * 10 ^ (D - d) := by
  have hten : (0 : ℤ) < 10 ^ (D - d) := by positivity
  have hword : (v : ℤ) ≤ maxUint32 := by
    unfold maxUint32
    omega
  have hout : (if D = d then raw else if D < d then raw * 10 ^ (d - D) else raw.tdiv (10 ^ (D - d)))
      = raw.tdiv (10 ^ (D - d)) := by
    split_ifs with heq hlt
    · rw [heq, Nat.sub_self, pow_zero, Int.tdiv_one]
    · omega
    · rfl
  rw [scalePrice, hout]
  by_cases hraw : raw ≤ 0
  · rw [if_pos hraw]
    refine iff_of_false (by simp) fun h => ?_
    have hmul : (0 : ℤ) < v * 10 ^ (D - d) := by positivity
    omega
  · rw [if_neg hraw, Int.tdiv_eq_ediv_of_nonneg (not_le.mp hraw).le, ← Int.le_ediv_iff_mul_le hten,
      ← Int.ediv_lt_iff_lt_mul hten]
    dsimp only
    have hnonneg := Int.ediv_nonneg (not_le.mp hraw).le hten.le
    split_ifs with hsmall
    · rw [Option.some.injEq]
      omega
    · refine iff_of_false (by simp) ?_
      omega

section Ingestion

variable {m f D d : ℕ}

theorem roundTo_lt_next {x : ℚ} {v : ℕ} (hx : 0 < x) (hv : v < 2 ^ 32)
    (heq : x * 10 ^ D = v * 10 ^ (D - d)) :
    roundTo 256 (roundTo 256 x * 10 ^ D) < (v + 1) * 10 ^ (D - d) := by
  have hten : (0 : ℚ) < 10 ^ D := by positivity
  have hround : 0 < roundTo 256 x := (zpow_pos (by norm_num) _).trans_le (roundTo_mem 255 hx).1
  have hfirst := roundTo_le 256 hx
  have hsecond := roundTo_le 256 (mul_pos hround hten)
  have hv' : (v : ℚ) ≤ 2 ^ 32 := by exact_mod_cast hv.le
  have hstep : (0 : ℚ) < 10 ^ (D - d) := by positivity
  calc roundTo 256 (roundTo 256 x * 10 ^ D)
      ≤ roundTo 256 x * 10 ^ D * (1 + 1 / 2 ^ 256) := hsecond
    _ ≤ x * (1 + 1 / 2 ^ 256) * 10 ^ D * (1 + 1 / 2 ^ 256) := by gcongr
    _ = v * (1 + 1 / 2 ^ 256) ^ 2 * 10 ^ (D - d) := by linear_combination (1 + 1 / 2 ^ 256) ^ 2 * heq
    _ < (v + 1) * 10 ^ (D - d) := by
      refine mul_lt_mul_of_pos_right ?_ hstep
      linarith

/-- **A price arrives as it was written** if and only if parsing rounds up, or down by little enough
for the product to be rounded up again: what it takes away, scaled, is within the slack of the integer
that the string is to become. -/
theorem price_ingested_iff (u : Unicode) {s : String}
    (hs : parseDecimal (trimSpace u s) = some ((m : ℤ), f)) (hm : 0 < m) (hf : f ≤ d) (hd : d ≤ D) (hfits : m * 10 ^ (d - f) < 2 ^ 32) :
    (∃ raw, priceFromString u s D = .ok raw ∧ scalePrice raw D d = some (m * 10 ^ (d - f))) ↔
      Reaches 256 (m / 10 ^ f * 10 ^ D) (lost 256 (m / 10 ^ f) * 10 ^ D) := by
  set x : ℚ := m / 10 ^ f with hx
  have hxpos : 0 < x := by
    have : (0 : ℚ) < m := by exact_mod_cast hm
    positivity
  have hround : 0 < roundTo 256 x := (zpow_pos (by norm_num) _).trans_le (roundTo_mem 255 hxpos).1
  have hten : (0 : ℚ) < 10 ^ D := by positivity
  have hexact : x * 10 ^ D = (m * 10 ^ (d - f) : ℕ) * 10 ^ (D - d) := by
    have hsplit : (10 : ℚ) ^ D = 10 ^ (D - d) * 10 ^ (d - f) * 10 ^ f := by
      rw [← pow_add, ← pow_add, show D - d + (d - f) + f = D by omega]
    rw [hx, hsplit]
    push_cast
    field_simp
  have hrun : priceFromString u s D = .ok ⌊roundTo 256 (roundTo 256 x * 10 ^ D)⌋ := by
    have hne : trimSpace u s ≠ "" := by
      intro hempty
      rw [hempty] at hs
      cases hs
    rw [priceFromString, if_neg hne, hs]
    dsimp only
    rw [Int.cast_natCast, ← hx, if_neg hround.not_ge]
  have hpos : 0 < m * 10 ^ (d - f) := by positivity
  have hshort : x * 10 ^ D - roundTo 256 x * 10 ^ D = lost 256 x * 10 ^ D := by
    rw [roundTo_eq_sub_lost]
    ring
  have hreach := le_roundTo_iff 255 (mul_pos hxpos hten) (mul_pos hround hten)
  rw [hshort] at hreach
  rw [← hreach, hrun]
  have hnext := roundTo_lt_next hxpos hfits hexact
  constructor
  · rintro ⟨_, hraw, hscale⟩
    cases hraw
    have hle := Int.le_floor.mp ((scalePrice_eq_some_iff hd hpos hfits).mp hscale).1
    rw [hexact]
    exact_mod_cast hle
  · intro hle
    refine ⟨_, rfl, (scalePrice_eq_some_iff hd hpos hfits).mpr
      ⟨Int.le_floor.mpr ?_, Int.floor_lt.mpr ?_⟩⟩
    · rw [hexact] at hle
      exact_mod_cast hle
    · exact_mod_cast hnext

end Ingestion

/-- The price 1.3 becomes 129999999 with eight decimal places, and 129 with two. -/
theorem price_one_tick_low :
    parseDecimal (trimSpace ascii "1.3") = some (13, 1) ∧
      priceFromString ascii "1.3" 8 = .ok 129999999 ∧ scalePrice 129999999 8 2 = some 129 := by
  decide +kernel

/-- The price 1.5 is a float. -/
theorem price_ingested_iff_float :
    parseDecimal (trimSpace ascii "1.5") = some (15, 1) ∧
      ∃ raw, priceFromString ascii "1.5" 8 = .ok raw ∧ scalePrice raw 8 2 = some 150 := by
  refine ⟨by decide +kernel, (price_ingested_iff (m := 15) (f := 1) (D := 8) (d := 2) ascii
    (by decide +kernel) (by decide) (by decide) (by decide) (by decide)).mpr (.inl ?_)⟩
  decide +kernel

end PerpDex.Oracle
