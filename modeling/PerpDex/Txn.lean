/-
Stateful computations that can fail without undoing what they wrote.

`Txn ε σ α` reads and writes a state `σ` and may stop with an error `ε`; the writes made before the error
stay.  Rolling back is an explicit operation (`atomic`), and so is going on after an error (`attempt`).

* `run_bind_ok`, `run_bind_error` — inversion of a sequence by its outcome;
* `Keeps R x` — every run of `x`, successful or not, is related to its start by `R`; the rules follow the
  combinators, so a relation is checked once per primitive;
* `FailsFirst x` — `x` makes its checks before it writes, so only its success has to be looked at.
-/
import Mathlib.Order.Defs.Unbundled
import Mathlib.Order.RelClasses

/-- A computation over the state `σ` that may fail with `ε`; writes survive a failure. -/
abbrev Txn (ε σ α : Type) : Type := EStateM ε σ α

namespace Txn

variable {ε σ α β : Type}

/-! ### Combinators -/

def read (f : σ → Except ε α) : Txn ε σ α := fun s =>
  match f s with
  | .ok a => .ok a s
  | .error e => .error e s

/-- Take over the outcome of a computation that does not look at the state. -/
def lift (q : Except ε α) : Txn ε σ α := read fun _ => q

def write (f : σ → σ) : Txn ε σ Unit := fun s => .ok () (f s)

def require (c : Prop) [Decidable c] (e : ε) : Txn ε σ Unit :=
  if c then pure () else throw e

def when (c : Prop) [Decidable c] (x : Txn ε σ Unit) : Txn ε σ Unit :=
  if c then x else pure ()

/-- Run `x` on a branch of the state that is written back only if `x` succeeds. -/
def atomic (x : Txn ε σ α) : Txn ε σ α := fun s =>
  match x.run s with
  | .ok a t => .ok a t
  | .error e _ => .error e s

/-- Run `x` and return its outcome as a value; errors outside `caught` still stop. -/
def attempt (caught : ε → Bool) (x : Txn ε σ α) : Txn ε σ (Except ε α) := fun s =>
  match x.run s with
  | .ok a t => .ok (.ok a) t
  | .error e t => if caught e then .ok (.error e) t else .error e t

/-- Run `x` with its errors passed through `f`. -/
def mapError (f : ε → ε) (x : Txn ε σ α) : Txn ε σ α := fun s =>
  match x.run s with
  | .ok a t => .ok a t
  | .error e t => .error (f e) t

def after (x : Txn ε σ α) (s : σ) : σ :=
  match x.run s with
  | .ok _ t => t
  | .error _ t => t

/-- What `x` returns from `s`, if it succeeds. -/
def value (x : Txn ε σ α) (s : σ) : Option α :=
  match x.run s with
  | .ok a _ => some a
  | .error _ _ => none

def succeeds (x : Txn ε σ α) (s : σ) : Bool :=
  match x.run s with
  | .ok _ _ => true
  | .error _ _ => false

/-! ### Inversion -/

theorem except_bind_ok {q : Except ε α} {g : α → Except ε β} {b : β} :
    (q >>= g) = .ok b ↔ ∃ a, q = .ok a ∧ g a = .ok b := by
  cases q with
  | ok a => simp [bind, Except.bind]
  | error e => simp [bind, Except.bind]

theorem except_bind_error {q : Except ε α} {g : α → Except ε β} {e : ε} :
    (q >>= g) = .error e ↔ q = .error e ∨ ∃ a, q = .ok a ∧ g a = .error e := by
  cases q with
  | ok a => simp [bind, Except.bind]
  | error e => simp [bind, Except.bind]

/-- A fold whose steps succeed whatever has been accumulated succeeds exactly when each of
its steps does. -/
theorem foldlM_ok_iff {f : β → α → Except ε β} {p : α → Prop} (l : List α)
    (h : ∀ b, ∀ a ∈ l, (∃ c, f b a = .ok c) ↔ p a) (b : β) :
    (∃ c, l.foldlM f b = .ok c) ↔ ∀ a ∈ l, p a := by
  induction l generalizing b with
  | nil =>
    simp only [List.foldlM_nil, List.not_mem_nil, false_imp_iff, forall_true_iff, iff_true]
    exact ⟨b, rfl⟩
  | cons a rest ih =>
    have ih := ih fun b' a' ha' => h b' a' (List.mem_cons_of_mem _ ha')
    have hhead := h b a List.mem_cons_self
    simp only [List.foldlM_cons, except_bind_ok, List.forall_mem_cons]
    constructor
    · rintro ⟨c, b', hstep, hrest⟩
      exact ⟨hhead.mp ⟨b', hstep⟩, (ih b').mp ⟨c, hrest⟩⟩
    · rintro ⟨ha, hrest⟩
      obtain ⟨b', hstep⟩ := hhead.mpr ha
      obtain ⟨c, hc⟩ := (ih b').mpr hrest
      exact ⟨c, b', hstep, hc⟩

theorem foldlM_error {f : β → α → Except ε β} {l : List α} {b : β} {e : ε}
    (h : l.foldlM f b = .error e) : ∃ b', ∃ a ∈ l, f b' a = .error e := by
  induction l generalizing b with
  | nil => cases h
  | cons a rest ih =>
    rw [List.foldlM_cons, except_bind_error] at h
    rcases h with h | ⟨b', -, h⟩
    · exact ⟨b, a, List.mem_cons_self, h⟩
    · obtain ⟨b'', a', ha', herr⟩ := ih h
      exact ⟨b'', a', List.mem_cons_of_mem _ ha', herr⟩

variable {x : Txn ε σ α} {f : α → Txn ε σ β} {s t : σ} {a : α} {b : β} {e : ε}

theorem run_bind_ok :
    (x >>= f).run s = .ok b t ↔ ∃ a u, x.run s = .ok a u ∧ (f a).run u = .ok b t := by
  rw [EStateM.run_bind]
  cases x.run s with
  | ok a u => simp [and_assoc]
  | error e u => simp

theorem run_bind_error :
    (x >>= f).run s = .error e t ↔
      x.run s = .error e t ∨ ∃ a u, x.run s = .ok a u ∧ (f a).run u = .error e t := by
  rw [EStateM.run_bind]
  cases x.run s with
  | ok a u => simp [and_assoc]
  | error e u => simp

theorem run_bind_congr {g : α → Txn ε σ β}
    (h : ∀ a u, x.run s = .ok a u → (f a).run u = (g a).run u) :
    (x >>= f).run s = (x >>= g).run s := by
  rw [EStateM.run_bind, EStateM.run_bind]
  cases hrun : x.run s with
  | ok a u => exact h a u hrun
  | error e u => rfl

theorem run_pure_ok {c : α} : (pure a : Txn ε σ α).run s = .ok c t ↔ c = a ∧ t = s := by
  rw [EStateM.run_pure, EStateM.Result.ok.injEq, eq_comm, @eq_comm _ s]

theorem run_throw : (throw e : Txn ε σ α).run s = .error e s := rfl

theorem run_read {q : σ → Except ε α} :
    (read q).run s = match q s with
      | .ok a => .ok a s
      | .error e => .error e s := rfl

theorem run_bind_read {q : σ → Except ε α} :
    (read q >>= f).run s = match q s with
      | .ok a => (f a).run s
      | .error e => .error e s := by
  rw [EStateM.run_bind, run_read]
  cases q s with
  | ok a => rfl
  | error e => rfl

theorem run_bind_write {g : σ → σ} {h : Unit → Txn ε σ β} :
    (write g >>= h).run s = (h ()).run (g s) := rfl

theorem run_read_ok {q : σ → Except ε α} :
    (read q).run s = .ok a t ↔ q s = .ok a ∧ t = s := by
  simp only [read, EStateM.run]
  cases q s with
  | ok c => simp [eq_comm]
  | error e => simp

theorem run_read_error {q : σ → Except ε α} :
    (read q).run s = .error e t ↔ q s = .error e ∧ t = s := by
  simp only [read, EStateM.run]
  cases q s with
  | ok c => simp
  | error e => simp [eq_comm]

theorem run_lift_ok {q : Except ε α} :
    (lift q : Txn ε σ α).run s = .ok a t ↔ q = .ok a ∧ t = s := run_read_ok

theorem run_write {g : σ → σ} : (write g : Txn ε σ Unit).run s = .ok () (g s) := rfl

theorem run_require {c : Prop} [Decidable c] :
    (require c e : Txn ε σ Unit).run s = if c then .ok () s else .error e s := by
  unfold require
  split <;> rfl

theorem run_require_ok {c : Prop} [Decidable c] {u : Unit} :
    (require c e : Txn ε σ Unit).run s = .ok u t ↔ c ∧ t = s := by
  rw [run_require]
  split <;> simp [*, eq_comm]

theorem run_require_error {c : Prop} [Decidable c] {e' : ε} :
    (require c e : Txn ε σ Unit).run s = .error e' t ↔ ¬ c ∧ e' = e ∧ t = s := by
  rw [run_require]
  split <;> simp [*, eq_comm]

theorem run_when {c : Prop} [Decidable c] {y : Txn ε σ Unit} :
    (when c y).run s = if c then y.run s else .ok () s := by
  unfold when
  split <;> rfl

/-! A query or a check at the head of a sequence leaves no state of its own behind. -/

theorem run_bind_read_ok {q : σ → Except ε α} :
    (read q >>= f).run s = .ok b t ↔ ∃ a, q s = .ok a ∧ (f a).run s = .ok b t := by
  rw [run_bind_read]
  cases q s with
  | ok a => simp
  | error e => simp

theorem run_bind_lift_ok {q : Except ε α} :
    (lift q >>= f).run s = .ok b t ↔ ∃ a, q = .ok a ∧ (f a).run s = .ok b t :=
  run_bind_read_ok

theorem run_bind_require_ok {c : Prop} [Decidable c] {g : Unit → Txn ε σ β} :
    (require c e >>= g).run s = .ok b t ↔ c ∧ (g ()).run s = .ok b t := by
  rw [EStateM.run_bind, run_require]
  by_cases hc : c
  · simp [hc]
  · simp [hc]

theorem run_atomic_ok : (atomic x).run s = .ok a t ↔ x.run s = .ok a t := by
  simp only [atomic, EStateM.run]
  cases x s with
  | ok c u => simp
  | error e u => simp

theorem run_atomic_error :
    (atomic x).run s = .error e t ↔ t = s ∧ ∃ u, x.run s = .error e u := by
  simp only [atomic, EStateM.run]
  cases x s with
  | ok c u => simp
  | error e' u => simp [eq_comm, and_comm]

theorem run_attempt_ok {caught : ε → Bool} {r : Except ε α} :
    (attempt caught x).run s = .ok r t ↔
      (∃ a, r = .ok a ∧ x.run s = .ok a t) ∨
        ∃ e, r = .error e ∧ caught e = true ∧ x.run s = .error e t := by
  simp only [attempt, EStateM.run]
  cases x s with
  | ok c u =>
    simp only [EStateM.Result.ok.injEq, reduceCtorEq, and_false, exists_false, or_false]
    constructor
    · rintro ⟨rfl, rfl⟩
      exact ⟨c, rfl, rfl, rfl⟩
    · rintro ⟨a, rfl, rfl, rfl⟩
      exact ⟨rfl, rfl⟩
  | error e u =>
    by_cases hcaught : caught e = true
    · simp only [hcaught, if_true, EStateM.Result.ok.injEq, reduceCtorEq, and_false, exists_false,
        false_or]
      constructor
      · rintro ⟨rfl, rfl⟩
        exact ⟨e, rfl, hcaught, rfl⟩
      · rintro ⟨e', rfl, -, h⟩
        obtain ⟨rfl, rfl⟩ := EStateM.Result.error.inj h
        exact ⟨rfl, rfl⟩
    · simp only [hcaught, Bool.false_eq_true, if_false, reduceCtorEq, and_false, exists_false,
        false_or, false_iff, not_exists, not_and]
      rintro e' rfl hcaught' h
      obtain ⟨rfl, -⟩ := EStateM.Result.error.inj h
      exact hcaught hcaught'

theorem run_attempt_error {caught : ε → Bool} :
    (attempt caught x).run s = .error e t ↔ caught e = false ∧ x.run s = .error e t := by
  simp only [attempt, EStateM.run]
  cases x s with
  | ok c u => simp
  | error e' u =>
    by_cases hcaught : caught e' = true
    · simp only [hcaught, if_true, reduceCtorEq, false_iff, not_and]
      rintro hcaught' h
      obtain ⟨rfl, -⟩ := EStateM.Result.error.inj h
      rw [hcaught] at hcaught'
      simp at hcaught'
    · simp only [hcaught, Bool.false_eq_true, if_false]
      constructor
      · intro h
        obtain ⟨rfl, rfl⟩ := EStateM.Result.error.inj h
        exact ⟨by simpa using hcaught, rfl⟩
      · rintro ⟨-, h⟩
        obtain ⟨rfl, rfl⟩ := EStateM.Result.error.inj h
        rfl

theorem run_bind_attempt {caught : ε → Bool} {g : Except ε α → Txn ε σ β} :
    (attempt caught x >>= g).run s = match x.run s with
      | .ok a t => (g (.ok a)).run t
      | .error e t => if caught e then (g (.error e)).run t else .error e t := by
  rw [EStateM.run_bind]
  simp only [attempt, EStateM.run]
  cases x s with
  | ok a t => rfl
  | error e t =>
    cases hcaught : caught e with
    | true => simp [hcaught]
    | false => simp [hcaught]

theorem run_mapError_ok {g : ε → ε} : (mapError g x).run s = .ok a t ↔ x.run s = .ok a t := by
  simp only [mapError, EStateM.run]
  cases x s with
  | ok c u => simp
  | error e u => simp

theorem run_mapError_error {g : ε → ε} :
    (mapError g x).run s = .error e t ↔ ∃ e', x.run s = .error e' t ∧ g e' = e := by
  simp only [mapError, EStateM.run]
  cases x s with
  | ok c u => simp
  | error e' u =>
    constructor
    · intro h
      obtain ⟨he, rfl⟩ := EStateM.Result.error.inj h
      exact ⟨e', rfl, he⟩
    · rintro ⟨e'', h, rfl⟩
      obtain ⟨rfl, rfl⟩ := EStateM.Result.error.inj h
      rfl

theorem run_of_succeeds {y : Txn ε σ Unit} (h : succeeds y s = true) :
    y.run s = .ok () (after y s) := by
  rw [succeeds] at h
  rw [after]
  cases hrun : y.run s with
  | ok u t => rfl
  | error e t =>
    rw [hrun] at h
    simp at h

theorem run_of_value (h : value x s = some a) : x.run s = .ok a (after x s) := by
  rw [value] at h
  rw [after]
  cases hrun : x.run s with
  | ok b t =>
    rw [hrun] at h
    rw [Option.some.inj h]
  | error e t =>
    rw [hrun] at h
    simp at h

theorem run_of_not_succeeds (h : succeeds x s = false) : ∃ e, x.run s = .error e (after x s) := by
  rw [succeeds] at h
  rw [after]
  cases hrun : x.run s with
  | ok a t =>
    rw [hrun] at h
    simp at h
  | error e t => exact ⟨e, rfl⟩

/-! ### Loops -/

/-- The loop over `l` from `s` comes to its element `a` in the state `u`. -/
inductive Visits (g : α → Txn ε σ PUnit) : List α → σ → α → σ → Prop
  | here {a : α} {l : List α} {s : σ} : Visits g (a :: l) s a s
  | later {a b : α} {l : List α} {s t u : σ} {r : PUnit} (h : (g a).run s = .ok r t)
      (hv : Visits g l t b u) : Visits g (a :: l) s b u

theorem forM_rule {P : List α → σ → Prop} {g : α → Txn ε σ PUnit} {l : List α} {r : PUnit}
    (hg : ∀ a rest u v r, P (a :: rest) u → Visits g l s a u → (g a).run u = .ok r v → P rest v)
    (h : (l.forM g).run s = .ok r t) (hs : P l s) : P [] t := by
  induction l generalizing s with
  | nil =>
    obtain ⟨-, rfl⟩ := run_pure_ok.mp h
    exact hs
  | cons a rest ih =>
    obtain ⟨r', v, hrun, hrest⟩ := run_bind_ok.mp h
    exact ih (fun b l' u w r'' hP hv => hg b l' u w r'' hP (.later hrun hv)) hrest
      (hg a rest s v r' hs .here hrun)

/-! ### Relations kept by every run -/

/-- Every run of `x`, successful or not, ends in a state related to its start. -/
def Keeps (R : σ → σ → Prop) (x : Txn ε σ α) : Prop := ∀ s, R s (after x s)

theorem after_of_ok (h : x.run s = .ok a t) : after x s = t := by
  rw [after, h]

theorem value_of_ok (h : x.run s = .ok a t) : value x s = some a := by
  rw [value, h]

theorem after_of_error (h : x.run s = .error e t) : after x s = t := by
  rw [after, h]

theorem run_bind_cases {P : EStateM.Result ε σ β → Prop}
    (hok : ∀ a u, x.run s = .ok a u → P ((f a).run u))
    (herror : ∀ e u, x.run s = .error e u → P (.error e u)) : P ((x >>= f).run s) := by
  rw [EStateM.run_bind]
  cases hrun : x.run s with
  | ok a u => exact hok a u hrun
  | error e u => exact herror e u hrun

theorem after_bind {P : σ → Prop} (hok : ∀ a u, x.run s = .ok a u → P (after (f a) u))
    (herror : ∀ e u, x.run s = .error e u → P u) : P (after (x >>= f) s) := by
  rw [after, EStateM.run_bind]
  cases hrun : x.run s with
  | ok a u => exact hok a u hrun
  | error e u => exact herror e u hrun

theorem after_bind_read {q : σ → Except ε α} :
    after (read q >>= f) s = match q s with
      | .ok a => after (f a) s
      | .error _ => s := by
  rw [after, run_bind_read]
  cases q s with
  | ok a => rfl
  | error e => rfl

theorem after_bind_require {c : Prop} [Decidable c] {g : Unit → Txn ε σ β} (h : ¬ c) :
    after (require c e >>= g) s = s := by
  rw [after, EStateM.run_bind, run_require, if_neg h]

theorem after_attempt (caught : ε → Bool) : after (attempt caught x) s = after x s := by
  simp only [after, Txn.attempt, EStateM.run]
  cases x s with
  | ok a u => rfl
  | error e u => cases hc : caught e <;> simp [hc]

variable {R : σ → σ → Prop}

theorem Keeps.ok (hx : Keeps R x) (h : x.run s = .ok a t) : R s t :=
  after_of_ok h ▸ hx s

theorem Keeps.error (hx : Keeps R x) (h : x.run s = .error e t) : R s t :=
  after_of_error h ▸ hx s

theorem Keeps.mono {R' : σ → σ → Prop} (hx : Keeps R x) (h : ∀ s t, R s t → R' s t) :
    Keeps R' x :=
  fun s => h _ _ (hx s)

theorem Keeps.write {g : σ → σ} (h : ∀ s, R s (g s)) : Keeps R (write g : Txn ε σ Unit) := h

theorem isPreorder_under [IsPreorder σ R] {P : σ → Prop} (hP : ∀ s t, R s t → P s → P t) :
    IsPreorder σ fun s t => P s → R s t where
  refl s _ := refl_of R s
  trans s t _ h h' hs := trans_of R (h hs) (h' (hP s t (h hs) hs))

theorem isPreorder_invariant (P : σ → Prop) : IsPreorder σ fun s t => P s → P t where
  refl _ hs := hs
  trans _ _ _ h h' hs := h' (h hs)

section Preorder

variable [IsPreorder σ R]

theorem Keeps.pure : Keeps R (pure a : Txn ε σ α) := fun s => refl_of R s

theorem Keeps.throw : Keeps R (throw e : Txn ε σ α) := fun s => refl_of R s

theorem Keeps.read {q : σ → Except ε α} : Keeps R (read q) := by
  intro s
  simp only [after, Txn.read, EStateM.run]
  cases q s with
  | ok c => exact refl_of R s
  | error e => exact refl_of R s

theorem Keeps.of_eq (h : Keeps Eq x) : Keeps R x := h.mono fun s _ heq => heq ▸ refl_of R s

theorem Keeps.require {c : Prop} [Decidable c] : Keeps R (require c e : Txn ε σ Unit) := by
  unfold Txn.require
  split
  · exact Keeps.pure
  · exact Keeps.throw

theorem Keeps.when {c : Prop} [Decidable c] {y : Txn ε σ Unit} (hy : c → Keeps R y) :
    Keeps R (when c y) := by
  unfold Txn.when
  split
  · exact hy ‹_›
  · exact Keeps.pure

omit [IsPreorder σ R] in
theorem Keeps.ite {c : Prop} [Decidable c] {y : Txn ε σ α} (hx : c → Keeps R x)
    (hy : ¬ c → Keeps R y) : Keeps R (if c then x else y) := by
  split
  · exact hx ‹_›
  · exact hy ‹_›

theorem after_bind_keeps (hx : R s (after x s)) (hf : ∀ a, Keeps R (f a)) :
    R s (after (x >>= f) s) := by
  refine after_bind (P := R s) (fun a u hrun => ?_) fun e u hrun => ?_
  · rw [after_of_ok hrun] at hx
    exact trans_of R hx (hf a u)
  · rwa [after_of_error hrun] at hx

theorem Keeps.bind (hx : Keeps R x) (hf : ∀ a, Keeps R (f a)) : Keeps R (x >>= f) :=
  fun s => after_bind_keeps (hx s) hf

omit [IsPreorder σ R] in
theorem Keeps.attempt {caught : ε → Bool} (hx : Keeps R x) : Keeps R (attempt caught x) := by
  intro s
  rw [after_attempt]
  exact hx s

omit [IsPreorder σ R] in
theorem Keeps.mapError {g : ε → ε} (hx : Keeps R x) : Keeps R (mapError g x) := by
  intro s
  have h := hx s
  simp only [after, Txn.mapError, EStateM.run] at h ⊢
  cases hrun : x s with
  | ok a u =>
    rw [hrun] at h
    exact h
  | error e u =>
    rw [hrun] at h
    exact h

theorem Keeps.forM {l : List α} {g : α → Txn ε σ PUnit} (hg : ∀ a ∈ l, Keeps R (g a)) :
    Keeps R (l.forM g) := by
  induction l with
  | nil => exact Keeps.pure
  | cons c rest ih =>
    exact Keeps.bind (hg c List.mem_cons_self)
      fun _ => ih fun a ha => hg a (List.mem_cons_of_mem _ ha)

end Preorder

/-! ### Computations that check first -/

/-- An error leaves the state as it was. -/
def FailsFirst (x : Txn ε σ α) : Prop := ∀ s e t, x.run s = .error e t → t = s

namespace FailsFirst

theorem throw : FailsFirst (throw e : Txn ε σ α) := fun _ _ _ h =>
  (EStateM.Result.error.inj (run_throw.symm.trans h)).2.symm

theorem of_total (h : ∀ s, ∃ a t, x.run s = .ok a t) : FailsFirst x := by
  intro s e t herror
  obtain ⟨a, u, hok⟩ := h s
  rw [hok] at herror
  exact absurd herror (by simp)

theorem read_bind {q : σ → Except ε α} (h : ∀ a, FailsFirst (f a)) :
    FailsFirst (Txn.read q >>= f) := by
  intro s e t herror
  rw [run_bind_read] at herror
  cases hq : q s with
  | ok a =>
    rw [hq] at herror
    exact h a s e t herror
  | error e' =>
    rw [hq] at herror
    exact (EStateM.Result.error.inj herror).2.symm

theorem require_bind {c : Prop} [Decidable c] {g : Unit → Txn ε σ β} (h : FailsFirst (g ())) :
    FailsFirst (Txn.require c e >>= g) := by
  intro s e' t herror
  rcases run_bind_error.mp herror with hfail | ⟨_, u, hok, hrest⟩
  · exact (run_require_error.mp hfail).2.2
  · obtain ⟨-, rfl⟩ := run_require_ok.mp hok
    exact h u e' t hrest

theorem ite {c : Prop} [Decidable c] {y : Txn ε σ α} (hx : FailsFirst x) (hy : FailsFirst y) :
    FailsFirst (if c then x else y) := by
  split
  · exact hx
  · exact hy

theorem keeps [IsPreorder σ R] (h : FailsFirst x) (hok : ∀ s a t, x.run s = .ok a t → R s t) :
    Keeps R x := by
  intro s
  rcases hrun : x.run s with ⟨a, t⟩ | ⟨e, t⟩
  · rw [after_of_ok hrun]
    exact hok s a t hrun
  · rw [after_of_error hrun, h s e t hrun]
    exact refl_of R s

end FailsFirst

end Txn
