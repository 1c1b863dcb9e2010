/-
Transactions that compute with words.

* `Exactly P x Q` — from every state with `P`, the transaction `x` does the same with all words that are
  exact where they can be, and what it returns and leaves behind has `Q`: so it does not overflow.
-/
import PerpDex.Arith
import PerpDex.Txn

open Arith

namespace Txn

variable {ε σ α β : Type}

/-- A triple for a family of transactions: they agree on the states with `P`, and lead to `Q`. -/
structure Exactly (P : σ → Prop) (x : Words ε → Txn ε σ α) (Q : α → σ → Prop) : Prop where
  same : ∀ {s} {w : Words ε}, P s → w.Exact → (x w).run s = (x .machine).run s
  post : ∀ {s a t}, P s → (x .machine).run s = .ok a t → Q a t

namespace Exactly

variable {P : σ → Prop} {x : Words ε → Txn ε σ α} {Q : α → σ → Prop}

theorem pure {a : α} (h : ∀ s, P s → Q a s) : Exactly P (fun _ : Words ε => Pure.pure a) Q where
  same _ _ := rfl
  post hs hrun := by
    obtain ⟨rfl, rfl⟩ := run_pure_ok.mp hrun
    exact h _ hs

theorem write {g : σ → σ} {R : Unit → σ → Prop} (h : ∀ s, P s → R () (g s)) :
    Exactly P (fun _ : Words ε => Txn.write g) R where
  same _ _ := rfl
  post hs hrun := by
    cases run_write.symm.trans hrun
    exact h _ hs

theorem of_forall (h : ∀ s, P s → Exactly (· = s) x Q) : Exactly P x Q where
  same hs hw := (h _ hs).same rfl hw
  post hs hrun := (h _ hs).post rfl hrun

theorem read {s : σ} {q : Words ε → σ → Except ε α}
    (h : ∀ w : Words ε, w.Exact → q w s = q .machine s) :
    Exactly (· = s) (fun w => Txn.read (q w)) fun a t => t = s ∧ q .machine s = .ok a where
  same := by
    rintro _ w rfl hw
    rw [run_read, run_read, h w hw]
  post := by
    rintro _ a t rfl hrun
    obtain ⟨hq, rfl⟩ := run_read_ok.mp hrun
    exact ⟨rfl, hq⟩

theorem const {y : Txn ε σ α} {s : σ} :
    Exactly (· = s) (fun _ : Words ε => y) fun a t => y.run s = .ok a t where
  same _ _ := rfl
  post := by
    rintro _ a t rfl hrun
    exact hrun

theorem mono {P' : σ → Prop} {Q' : α → σ → Prop} (h : Exactly P x Q) (hP : ∀ s, P' s → P s)
    (hQ : ∀ a t, Q a t → Q' a t) : Exactly P' x Q' where
  same hs hw := h.same (hP _ hs) hw
  post hs hrun := hQ _ _ (h.post (hP _ hs) hrun)

theorem bind {f : Words ε → α → Txn ε σ β} {R : β → σ → Prop} (hx : Exactly P x Q)
    (hf : ∀ a, Exactly (Q a) (fun w => f w a) R) : Exactly P (fun w => x w >>= f w) R where
  same {s w} hs hw := by
    rw [EStateM.run_bind, EStateM.run_bind, hx.same hs hw]
    cases hrun : (x .machine).run s with
    | error e u => rfl
    | ok a u => exact (hf a).same (hx.post hs hrun) hw
  post hs hrun := by
    obtain ⟨a, u, hx', hf'⟩ := run_bind_ok.mp hrun
    exact (hf a).post (hx.post hs hx') hf'

theorem read_bind {s : σ} {q : Words ε → σ → Except ε α} {f : Words ε → α → Txn ε σ β}
    {R : β → σ → Prop} (h : ∀ w : Words ε, w.Exact → q w s = q .machine s)
    (hf : ∀ a, q .machine s = .ok a → Exactly (· = s) (fun w => f w a) R) :
    Exactly (· = s) (fun w => Txn.read (q w) >>= f w) R := by
  refine (read h).bind fun a => of_forall fun t ht => ?_
  rw [ht.1]
  exact hf a ht.2

theorem const_bind {s : σ} {y : Txn ε σ α} {f : Words ε → α → Txn ε σ β} {R : β → σ → Prop}
    (hf : ∀ a t, y.run s = .ok a t → Exactly (· = t) (fun w => f w a) R) :
    Exactly (· = s) (fun w => y >>= f w) R :=
  const.bind fun a => of_forall fun t ht => hf a t ht

theorem when {c : Prop} [Decidable c] {y : Words ε → Txn ε σ Unit} {R : Unit → σ → Prop}
    (hy : c → Exactly P y R) (hn : ¬ c → ∀ s, P s → R () s) :
    Exactly P (fun w => Txn.when c (y w)) R := by
  unfold Txn.when
  by_cases hc : c
  · simp only [if_pos hc]
    exact hy hc
  · simp only [if_neg hc]
    exact .pure (hn hc)

theorem forM {f : Words ε → α → Txn ε σ PUnit} {l : List α}
    (h : ∀ a ∈ l, Exactly P (fun w => f w a) fun _ t => P t) :
    Exactly P (fun w => l.forM (f w)) fun _ t => P t := by
  induction l with
  | nil => exact .pure fun s hs => hs
  | cons a rest ih =>
    show Exactly P (fun w => f w a >>= fun _ => rest.forM (f w)) _
    exact (h a List.mem_cons_self).bind fun _ => ih fun b hb => h b (List.mem_cons_of_mem a hb)

end Exactly

end Txn
