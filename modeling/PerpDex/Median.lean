/-
Weighted medians.

* `IsMedian` — at most half of the weight lies below, and more than half not above;
* `IsMedian.unique`, `IsMedian.perm` — there is at most one, whatever the order of the list.

Main results: `IsMedian.between`, `walk_isMedian`.
-/
import Mathlib.Algebra.BigOperators.Group.List.Basic
import Mathlib.Algebra.GroupWithZero.Nat
import Mathlib.Algebra.Order.BigOperators.Group.List
import Mathlib.Algebra.Order.Group.Nat
import Mathlib.Order.Defs.LinearOrder

namespace Median

variable {α : Type*}

/-- The weight of a list of values with weights. -/
def weight (l : List (α × ℕ)) : ℕ := (l.map Prod.snd).sum

@[simp] theorem weight_nil : weight ([] : List (α × ℕ)) = 0 := rfl

@[simp] theorem weight_cons (x : α × ℕ) (l : List (α × ℕ)) : weight (x :: l) = x.2 + weight l := by
  simp [weight]

theorem weight_append (l l' : List (α × ℕ)) : weight (l ++ l') = weight l + weight l' := by
  simp [weight]

theorem weight_perm {l l' : List (α × ℕ)} (h : l.Perm l') : weight l = weight l' :=
  (h.map Prod.snd).sum_eq

theorem weight_le_of_sublist {l l' : List (α × ℕ)} (h : l.Sublist l') : weight l ≤ weight l' :=
  (h.map Prod.snd).sum_le_sum fun _ _ => Nat.zero_le _

theorem weight_filter_add (p : α × ℕ → Bool) (l : List (α × ℕ)) :
    weight (l.filter p) + weight (l.filter fun x => !p x) = weight l := by
  induction l with
  | nil => rfl
  | cons x rest ih =>
    cases hp : p x with
    | true => simp only [List.filter_cons, hp, Bool.not_true, Bool.false_eq_true, if_true, if_false,
        weight_cons]; omega
    | false => simp only [List.filter_cons, hp, Bool.not_false, Bool.false_eq_true, if_true, if_false,
        weight_cons]; omega

/-- The first value at which the running weight, `cum` before the list, passes half of `total`. -/
def walk (total : ℕ) : ℕ → List (α × ℕ) → Option α
  | _, [] => none
  | cum, x :: rest => if total < 2 * (cum + x.2) then some x.1 else walk total (cum + x.2) rest

theorem exists_walk {l : List (α × ℕ)} {total cum : ℕ} (hpos : 0 < total) (hsum : cum + weight l = total)
    (hcum : 2 * cum ≤ total) : ∃ v, walk total cum l = some v := by
  induction l generalizing cum with
  | nil =>
    rw [weight_nil] at hsum
    omega
  | cons x rest ih =>
    rw [walk]
    split
    · exact ⟨x.1, rfl⟩
    · rw [weight_cons] at hsum
      exact ih (by omega) (by omega)

section Order

variable [LinearOrder α]

/-- The weight of the smaller values. -/
def below (l : List (α × ℕ)) (v : α) : ℕ := weight (l.filter fun x => decide (x.1 < v))

/-- The weight of the values that are not larger. -/
def upTo (l : List (α × ℕ)) (v : α) : ℕ := weight (l.filter fun x => decide (x.1 ≤ v))

/-- At most half of the weight lies below `v`, and more than half not above. -/
structure IsMedian (l : List (α × ℕ)) (v : α) : Prop where
  below_le : 2 * below l v ≤ weight l
  lt_upTo : weight l < 2 * upTo l v

variable {l l' : List (α × ℕ)} {v v' : α}

theorem upTo_le_below (h : v < v') : upTo l v ≤ below l v' := by
  refine weight_le_of_sublist (List.monotone_filter_right l fun x hx => ?_)
  exact decide_eq_true ((of_decide_eq_true hx).trans_lt h)

namespace IsMedian

theorem ge (h : IsMedian l v) (h' : IsMedian l v') : v' ≤ v := by
  by_contra hlt
  have hle := upTo_le_below (l := l) (not_le.mp hlt)
  have hlow := h'.below_le
  have hup := h.lt_upTo
  omega

theorem unique (h : IsMedian l v) (h' : IsMedian l v') : v = v' := le_antisymm (h'.ge h) (h.ge h')

theorem perm (h : IsMedian l v) (hperm : l.Perm l') : IsMedian l' v where
  below_le := by
    rw [below, ← weight_perm (hperm.filter _), ← weight_perm hperm]
    exact h.below_le
  lt_upTo := by
    rw [upTo, ← weight_perm (hperm.filter _), ← weight_perm hperm]
    exact h.lt_upTo

/-- **Whoever holds more than half of the weight has values on both sides of the median.** -/
theorem between (h : IsMedian l v) (hsub : l'.Sublist l) (hmajority : weight l < 2 * weight l') :
    (∃ x ∈ l', x.1 ≤ v) ∧ ∃ x ∈ l', v ≤ x.1 := by
  constructor
  · -- if all their values were above, so would be more than half of the weight
    by_contra hnone
    have habove : ∀ x ∈ l', v < x.1 := fun x hx => not_le.mp fun hle => hnone ⟨x, hx, hle⟩
    have hall : l'.filter (fun x => !decide (x.1 ≤ v)) = l' :=
      List.filter_eq_self.mpr fun x hx => by simp [habove x hx]
    have hle := weight_le_of_sublist (hsub.filter fun x => !decide (x.1 ≤ v))
    have hsplit := weight_filter_add (fun x => decide (x.1 ≤ v)) l
    have hup := h.lt_upTo
    rw [hall] at hle
    unfold upTo at hup
    omega
  · by_contra hnone
    have hbelow : ∀ x ∈ l', x.1 < v := fun x hx => not_le.mp fun hle => hnone ⟨x, hx, hle⟩
    have hall : l'.filter (fun x => decide (x.1 < v)) = l' :=
      List.filter_eq_self.mpr fun x hx => decide_eq_true (hbelow x hx)
    have hle := weight_le_of_sublist (hsub.filter fun x => decide (x.1 < v))
    have hlow := h.below_le
    rw [hall] at hle
    unfold below at hlow
    omega

end IsMedian

theorem isMedian_of_split {pre rest : List (α × ℕ)} {x : α × ℕ}
    (hsorted : (pre ++ x :: rest).Pairwise fun a b => a.1 ≤ b.1)
    (hpre : 2 * weight pre ≤ weight (pre ++ x :: rest))
    (hpass : weight (pre ++ x :: rest) < 2 * (weight pre + x.2)) :
    IsMedian (pre ++ x :: rest) x.1 := by
  obtain ⟨-, hrest, hcross⟩ := List.pairwise_append.mp hsorted
  have hafter : ∀ y ∈ x :: rest, x.1 ≤ y.1 := by
    intro y hy
    rcases List.mem_cons.mp hy with rfl | hy
    · exact le_rfl
    · exact List.rel_of_pairwise_cons hrest hy
  constructor
  · -- all smaller values stand before it
    have hnone : (x :: rest).filter (fun y => decide (y.1 < x.1)) = [] :=
      List.filter_eq_nil_iff.mpr fun y hy hlt => (of_decide_eq_true hlt).not_ge (hafter y hy)
    have hle : below (pre ++ x :: rest) x.1 ≤ weight pre := by
      rw [below, List.filter_append, hnone, List.append_nil]
      exact weight_le_of_sublist List.filter_sublist
    omega
  · have hall : (pre ++ [x]).filter (fun y => decide (y.1 ≤ x.1)) = pre ++ [x] := by
      refine List.filter_eq_self.mpr fun y hy => decide_eq_true ?_
      rcases List.mem_append.mp hy with hy | hy
      · exact hcross y hy x List.mem_cons_self
      · exact (List.mem_singleton.mp hy) ▸ le_rfl
    have hle : weight pre + x.2 ≤ upTo (pre ++ x :: rest) x.1 := by
      have hsub : (pre ++ [x]).Sublist (pre ++ x :: rest) :=
        List.Sublist.append_left (List.singleton_sublist.mpr List.mem_cons_self) pre
      have hsum : weight (pre ++ [x]) = weight pre + x.2 := by
        rw [weight_append, weight_cons, weight_nil, Nat.add_zero]
      rw [← hsum, ← hall]
      exact weight_le_of_sublist (hsub.filter _)
    omega

theorem walk_isMedian_of_split {pre rest : List (α × ℕ)}
    (hsorted : (pre ++ rest).Pairwise fun a b => a.1 ≤ b.1)
    (hpre : 2 * weight pre ≤ weight (pre ++ rest))
    (hwalk : walk (weight (pre ++ rest)) (weight pre) rest = some v) :
    IsMedian (pre ++ rest) v := by
  induction rest generalizing pre with
  | nil => cases hwalk
  | cons x rest ih =>
    rw [walk] at hwalk
    split at hwalk
    · rename_i hpass
      cases hwalk
      exact isMedian_of_split hsorted hpre hpass
    · rename_i hpass
      have hassoc : pre ++ x :: rest = (pre ++ [x]) ++ rest := by simp
      have hsum : weight (pre ++ [x]) = weight pre + x.2 := by
        rw [weight_append, weight_cons, weight_nil, Nat.add_zero]
      rw [hassoc] at hsorted hpass hwalk ⊢
      exact ih hsorted (by rw [hsum]; exact Nat.le_of_not_lt hpass) (by rw [hsum]; exact hwalk)

/-- **The walk over a sorted list finds the median.** -/
theorem walk_isMedian (hsorted : l.Pairwise fun a b => a.1 ≤ b.1)
    (hwalk : walk (weight l) 0 l = some v) : IsMedian l v :=
  @walk_isMedian_of_split _ _ v [] l hsorted (Nat.zero_le _) hwalk

end Order

end Median
