/-
Lazy accrual through a prefix sum.

A holding of a varying size is charged `size * d` in every round, where `d` is the increment of that
round.  The increments are added up in one prefix sum; a holding remembers the prefix sum of its last
settlement and is charged the difference times its size, divided by `tick` and truncated.

* `Step.abs_gap_le`, `abs_gap_le_of_steps` — the amounts charged lag behind what is owed by the part
  still pending and by less than one unit per settlement that moved the snapshot.

Main result: `charged_of_steps`.
-/
import Mathlib.Algebra.Order.Field.Basic
import Mathlib.Algebra.Order.Field.Rat
import Mathlib.Logic.Relation
import Mathlib.Tactic.FieldSimp
import PerpDex.Arith

namespace PrefixLedger

/-- A holding, the prefix sum, and the prefix sum at the last settlement. -/
@[ext] structure Holding where
  size : ℤ
  prefixSum : ℤ
  snapshot : ℤ

/-- What was owed by the rounds so far, in fractions of a unit, what was charged, in units,
and how many settlements moved the snapshot. -/
@[ext] structure Ledger where
  owed : ℤ := 0
  charged : ℤ := 0
  settlements : ℕ := 0
deriving DecidableEq

namespace Holding

/-- What the rounds since the last settlement add up to. -/
def pending (h : Holding) : ℤ := h.size * (h.prefixSum - h.snapshot)

def settled (h : Holding) : Holding := { h with snapshot := h.prefixSum }

def resized (h : Holding) (size : ℤ) : Holding := { h with size }

def advanced (h : Holding) (d : ℤ) : Holding := { h with prefixSum := h.prefixSum + d }

end Holding

namespace Ledger

/-- A round with increment `d` over a holding of size `size`. -/
def round (l : Ledger) (size d : ℤ) : Ledger := { l with owed := l.owed + size * d }

/-- A settlement that charged `amount`. -/
def settle (l : Ledger) (amount : ℤ) (moved : Bool) : Ledger :=
  { l with charged := l.charged + amount, settlements := l.settlements + moved.toNat }

end Ledger

/-- The size changes only while the holding is settled. -/
inductive Step (tick : ℤ) : Holding × Ledger → Holding × Ledger → Prop where
  | round (h : Holding) (l : Ledger) (d : ℤ) : Step tick (h, l) (h.advanced d, l.round h.size d)
  | settle (h : Holding) (l : Ledger) :
      Step tick (h, l)
        (h.settled, l.settle (h.pending.tdiv tick) (decide (h.snapshot ≠ h.prefixSum)))
  | resize (h : Holding) (l : Ledger) (size : ℤ) (hs : h.snapshot = h.prefixSum) :
      Step tick (h, l) (h.resized size, l)

/-- What is charged and pending beyond what is owed. -/
def gap (tick : ℤ) (x : Holding × Ledger) : ℤ :=
  tick * x.2.charged + x.1.pending - x.2.owed

variable {tick : ℤ} {x y : Holding × Ledger}

theorem abs_tick_mul_tdiv_sub_lt (htick : 0 < tick) (p : ℤ) : |tick * p.tdiv tick - p| < tick := by
  have hmod := Int.mul_tdiv_add_tmod p tick
  have hsub : tick * p.tdiv tick - p = -p.tmod tick := by linarith
  rw [hsub, abs_neg]
  have hlt := Int.tmod_lt_of_pos p htick
  have hgt := Int.lt_tmod_of_pos p htick
  exact abs_lt.2 ⟨hgt, hlt⟩

theorem Step.abs_gap_le (htick : 0 < tick) (h : Step tick x y)
    (hx : |gap tick x| ≤ (tick - 1) * x.2.settlements) :
    |gap tick y| ≤ (tick - 1) * y.2.settlements := by
  cases h with
  | round h l d =>
    have hsame : gap tick (h.advanced d, l.round h.size d) = gap tick (h, l) := by
      simp only [gap, Holding.pending, Holding.advanced, Ledger.round]
      ring
    rw [hsame]
    exact hx
  | settle h l =>
    by_cases hmoved : h.snapshot = h.prefixSum
    · have hpending : h.pending = 0 := by rw [Holding.pending, hmoved, sub_self, mul_zero]
      have hsettled : h.settled.pending = 0 := by
        rw [Holding.pending, Holding.settled, sub_self, mul_zero]
      simp only [gap, hpending, hsettled, Ledger.settle, Int.zero_tdiv, hmoved, add_zero, ne_eq,
        not_true_eq_false, decide_false, Bool.toNat_false] at hx ⊢
      exact hx
    · have hround := abs_tick_mul_tdiv_sub_lt htick h.pending
      have hgap : gap tick (h.settled, l.settle (h.pending.tdiv tick) true)
          = gap tick (h, l) + (tick * h.pending.tdiv tick - h.pending) := by
        simp only [gap, Holding.pending, Holding.settled, Ledger.settle]
        ring
      simp only [ne_eq, hmoved, not_false_eq_true, decide_true]
      rw [hgap]
      refine (abs_add_le _ _).trans ?_
      simp only [Ledger.settle, Bool.toNat_true, Nat.cast_add, Nat.cast_one, mul_add, mul_one]
      exact add_le_add hx (Int.le_sub_one_of_lt hround)
  | resize h l size hs =>
    have hsame : gap tick (h.resized size, l) = gap tick (h, l) := by
      simp only [gap, Holding.pending, Holding.resized, hs, sub_self, mul_zero]
    rw [hsame]
    exact hx

theorem abs_gap_le_of_steps (htick : 0 < tick) (hrun : Relation.ReflTransGen (Step tick) x y)
    (hx : |gap tick x| ≤ (tick - 1) * x.2.settlements) :
    |gap tick y| ≤ (tick - 1) * y.2.settlements := by
  induction hrun with
  | refl => exact hx
  | tail _ hstep ih => exact hstep.abs_gap_le htick ih

/-- From a fresh ledger to a settled holding, what was charged is what was owed, up to less than
one unit per settlement that moved the snapshot. -/
theorem charged_of_steps {h h' : Holding} {l : Ledger} (htick : 0 < tick)
    (hrun : Relation.ReflTransGen (Step tick) (h, {}) (h', l))
    (hstart : h.pending = 0) (hend : h'.pending = 0) :
    (0 < l.settlements → |(l.charged : ℚ) - l.owed / tick| < l.settlements) ∧
      (l.settlements = 0 → (l.charged : ℚ) = l.owed / tick) := by
  have hgap := abs_gap_le_of_steps htick hrun (by simp [gap, hstart])
  simp only [gap, hend, add_zero] at hgap
  have htick' : (0 : ℚ) < tick := by exact_mod_cast htick
  have hunits : (l.charged : ℚ) - l.owed / tick = ((tick * l.charged - l.owed : ℤ) : ℚ) / tick := by
    push_cast
    field_simp
  constructor
  · intro hpos
    rw [hunits, abs_div, abs_of_pos htick', div_lt_iff₀ htick', ← Int.cast_abs]
    have hlt : |tick * l.charged - l.owed| < l.settlements * tick := by
      have hone : (0 : ℤ) < l.settlements := by exact_mod_cast hpos
      linarith
    exact_mod_cast hlt
  · intro hnone
    rw [hnone, Nat.cast_zero, mul_zero] at hgap
    have hzero : tick * l.charged - l.owed = 0 := abs_nonpos_iff.1 hgap
    rw [hzero, Int.cast_zero, zero_div, sub_eq_zero] at hunits
    exact hunits

end PrefixLedger
