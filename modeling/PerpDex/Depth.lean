/-
Taking a notional out of a list of prices with sizes, best first.

* `take` — the size and the worth taken until a notional is reached, and the last price touched.

Main result: `take_between`.
-/
import Mathlib.Algebra.Order.Floor.Div
import Mathlib.Algebra.Order.BigOperators.Group.List
import Mathlib.Tactic.Linarith
import Mathlib.Tactic.Ring

namespace Depth

/-- Prices with the size on offer at each of them. -/
abbrev Side : Type := List (ℕ × ℕ)

def quoteOf (side : Side) : ℕ := (side.map fun l => l.2 * l.1).sum

/-- Size, worth and last price of what is taken on top of a size `b` worth `q`. -/
def take (notional : ℕ) : ℕ → ℕ → Side → Option (ℕ × ℕ × ℕ)
  | _, _, [] => none
  | b, q, (price, size) :: rest =>
    if notional ≤ q + size * price then
      let last := (notional - q) ⌈/⌉ price
      some (b + last, q + last * price, price)
    else take notional (b + size) (q + size * price) rest

/-- The prices that are touched. -/
def reached (notional : ℕ) : ℕ → Side → Side
  | _, [] => []
  | q, (price, size) :: rest =>
    if notional ≤ q + size * price then [(price, size)]
    else (price, size) :: reached notional (q + size * price) rest

variable {notional b q b' q' last : ℕ} {side : Side}

@[simp] theorem quoteOf_nil : quoteOf [] = 0 := rfl

@[simp] theorem quoteOf_cons (l : ℕ × ℕ) (side : Side) :
    quoteOf (l :: side) = l.2 * l.1 + quoteOf side := by
  simp [quoteOf]

theorem take_eq_none_iff (hq : q < notional) :
    take notional b q side = none ↔ q + quoteOf side < notional := by
  induction side generalizing b q with
  | nil => simp [take, hq]
  | cons l rest ih =>
    obtain ⟨price, size⟩ := l
    rw [take, quoteOf_cons]
    split_ifs with hle
    · simp only [false_iff, not_lt]
      omega
    · rw [ih (not_le.mp hle), Nat.add_assoc]

theorem reached_prefix (notional q : ℕ) (side : Side) :
    ∃ rest, side = reached notional q side ++ rest := by
  induction side generalizing q with
  | nil => exact ⟨[], rfl⟩
  | cons l rest ih =>
    obtain ⟨price, size⟩ := l
    rw [reached]
    split_ifs
    · exact ⟨rest, rfl⟩
    · obtain ⟨rest', hrest⟩ := ih (q + size * price)
      exact ⟨rest', by rw [List.cons_append, ← hrest]⟩

theorem reached_reached (notional q : ℕ) (side : Side) :
    reached notional q (reached notional q side) = reached notional q side := by
  induction side generalizing q with
  | nil => rfl
  | cons l rest ih =>
    obtain ⟨price, size⟩ := l
    by_cases hle : notional ≤ q + size * price
    · rw [reached, if_pos hle, reached, if_pos hle]
    · rw [reached, if_neg hle, reached, if_neg hle, ih]

theorem take_reached (notional b q : ℕ) (side : Side) :
    take notional b q (reached notional q side) = take notional b q side := by
  induction side generalizing b q with
  | nil => rfl
  | cons l rest ih =>
    obtain ⟨price, size⟩ := l
    by_cases hle : notional ≤ q + size * price
    · rw [reached, if_pos hle, take, if_pos hle, take, if_pos hle]
    · rw [reached, if_neg hle, take, if_neg hle, take, if_neg hle, ih]

theorem reached_last (h : take notional b q side = some (b', q', last)) :
    ∃ front size, reached notional q side = front ++ [(last, size)] := by
  induction side generalizing b q with
  | nil => cases h
  | cons l rest ih =>
    obtain ⟨price, size⟩ := l
    rw [take] at h
    rw [reached]
    split_ifs at h with hle
    · simp only [Option.some.injEq, Prod.mk.injEq] at h
      obtain ⟨-, -, rfl⟩ := h
      exact ⟨[], size, if_pos hle⟩
    · obtain ⟨front, size', hreached⟩ := ih h
      exact ⟨(price, size) :: front, size', by rw [if_neg hle, hreached, List.cons_append]⟩

theorem le_of_take (hpos : ∀ l ∈ side, 0 < l.1) (hq : q < notional)
    (h : take notional b q side = some (b', q', last)) :
    notional ≤ q' ∧ q' < notional + last ∧ b < b' := by
  induction side generalizing b q with
  | nil => cases h
  | cons l rest ih =>
    obtain ⟨price, size⟩ := l
    have hprice : 0 < price := hpos _ List.mem_cons_self
    rw [take] at h
    split_ifs at h with hle
    · simp only [Option.some.injEq, Prod.mk.injEq] at h
      obtain ⟨rfl, rfl, rfl⟩ := h
      have hup : notional - q ≤ price * ((notional - q) ⌈/⌉ price) := le_smul_ceilDiv hprice
      have hdown : (notional - q) ⌈/⌉ price * price ≤ notional - q + price - 1 :=
        Nat.div_mul_le_self _ _
      rw [Nat.mul_comm] at hup
      have hunit : 0 < (notional - q) ⌈/⌉ price := by
        by_contra hzero
        rw [Nat.eq_zero_of_not_pos hzero] at hup
        omega
      omega
    · obtain ⟨hn, hlt, hb⟩ := ih (fun l hl => hpos l (List.mem_cons_of_mem _ hl)) (not_le.mp hle) h
      exact ⟨hn, hlt, by omega⟩

theorem mul_le_of_take {lo : ℕ} (hlo : ∀ l ∈ side, lo ≤ l.1) (hq : b * lo ≤ q)
    (h : take notional b q side = some (b', q', last)) : b' * lo ≤ q' := by
  induction side generalizing b q with
  | nil => cases h
  | cons l rest ih =>
    obtain ⟨price, size⟩ := l
    have hprice : lo ≤ price := hlo _ List.mem_cons_self
    have hstep : ∀ n, (b + n) * lo ≤ q + n * price := fun n => by
      rw [Nat.add_mul]
      exact Nat.add_le_add hq (Nat.mul_le_mul_left n hprice)
    rw [take] at h
    split_ifs at h with hle
    · simp only [Option.some.injEq, Prod.mk.injEq] at h
      obtain ⟨rfl, rfl, -⟩ := h
      exact hstep _
    · exact ih (fun l hl => hlo l (List.mem_cons_of_mem _ hl)) (hstep size) h

theorem le_mul_of_take {hi : ℕ} (hhi : ∀ l ∈ side, l.1 ≤ hi) (hq : q ≤ b * hi)
    (h : take notional b q side = some (b', q', last)) : q' ≤ b' * hi := by
  induction side generalizing b q with
  | nil => cases h
  | cons l rest ih =>
    obtain ⟨price, size⟩ := l
    have hprice : price ≤ hi := hhi _ List.mem_cons_self
    have hstep : ∀ n, q + n * price ≤ (b + n) * hi := fun n => by
      rw [Nat.add_mul]
      exact Nat.add_le_add hq (Nat.mul_le_mul_left n hprice)
    rw [take] at h
    split_ifs at h with hle
    · simp only [Option.some.injEq, Prod.mk.injEq] at h
      obtain ⟨rfl, rfl, -⟩ := h
      exact hstep _
    · exact ih (fun l hl => hhi l (List.mem_cons_of_mem _ hl)) (hstep size) h

/-- **The average of what is taken lies between the first and the last price touched**, if the prices
are ordered by `r`, from better to worse. -/
theorem take_between {r : ℕ → ℕ → Prop} {first size : ℕ} {rest : Side}
    (hsorted : ((first, size) :: rest).Pairwise fun x y => r x.1 y.1)
    (h : take notional 0 0 ((first, size) :: rest) = some (b', q', last)) :
    ((∀ x y, r x y → x ≤ y) → b' * first ≤ q' ∧ q' ≤ b' * last) ∧
      ((∀ x y, r x y → y ≤ x) → b' * last ≤ q' ∧ q' ≤ b' * first) := by
  obtain ⟨front, lastSize, hreached⟩ := reached_last h
  obtain ⟨tail, htail⟩ := reached_prefix notional 0 ((first, size) :: rest)
  rw [hreached] at htail
  rw [← take_reached, hreached] at h
  rw [htail] at hsorted
  have htouched := (List.pairwise_append.mp hsorted).1
  -- the first price is the first one touched
  have hfirst : ∀ l ∈ front ++ [(last, lastSize)], l.1 = first ∨ r first l.1 := by
    obtain ⟨l₀, rest₀, hcons⟩ := List.exists_cons_of_ne_nil
      (List.append_ne_nil_of_right_ne_nil front (List.cons_ne_nil (last, lastSize) []))
    have hl₀ : l₀ = (first, size) := by
      rw [hcons, List.cons_append] at htail
      exact (List.cons.inj htail).1.symm
    intro l hl
    rw [hcons, hl₀] at hl htouched
    rcases List.mem_cons.mp hl with rfl | hmem
    · exact .inl rfl
    · exact .inr ((List.pairwise_cons.mp htouched).1 l hmem)
  have hlast : ∀ l ∈ front ++ [(last, lastSize)], l.1 = last ∨ r l.1 last := by
    intro l hl
    rcases List.mem_append.mp hl with hmem | hmem
    · exact .inr ((List.pairwise_append.mp htouched).2.2 l hmem _ List.mem_cons_self)
    · rw [List.mem_singleton.mp hmem]
      exact .inl rfl
  constructor
  · intro hr
    refine ⟨mul_le_of_take (fun l hl => ?_) (Nat.le_of_eq (Nat.zero_mul _)) h,
      le_mul_of_take (fun l hl => ?_) (Nat.zero_le _) h⟩
    · exact (hfirst l hl).elim (fun heq => heq.ge) (hr _ _)
    · exact (hlast l hl).elim (fun heq => heq.le) (hr _ _)
  · intro hr
    refine ⟨mul_le_of_take (fun l hl => ?_) (Nat.le_of_eq (Nat.zero_mul _)) h,
      le_mul_of_take (fun l hl => ?_) (Nat.zero_le _) h⟩
    · exact (hlast l hl).elim (fun heq => heq.ge) (hr _ _)
    · exact (hfirst l hl).elim (fun heq => heq.le) (hr _ _)

end Depth
