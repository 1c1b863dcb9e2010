/-
An ordered key-value store.

`KVStore K V` is a finite map kept as a list of pairs in strictly increasing key order, the order of an
iterator.  Sortedness is a field, so a store with a duplicated or misplaced key cannot be built.

* `sum_sub_sum` — the sums over two stores differ by the terms in which the stores differ.

Main result: `first_spec`.

`Table key` is a store whose rows carry their own key, so rows and keys cannot drift apart.
-/
import Mathlib.Order.Lex
import Mathlib.Data.Prod.Lex
import Mathlib.Data.List.Sort
import Mathlib.Algebra.Order.BigOperators.Group.List
import Mathlib.Algebra.Order.BigOperators.Group.Finset
import Mathlib.Algebra.BigOperators.Group.Finset.Basic
import Mathlib.Algebra.Order.Ring.Int
import Mathlib.Tactic.Ring
import Mathlib.Tactic.Linarith

/-- A finite map from `K` to `V`, stored in increasing key order. -/
structure KVStore (K V : Type) [LinearOrder K] where
  entries : List (K × V)
  sorted : entries.Pairwise fun a b => a.1 < b.1

namespace KVStore

variable {K V : Type} [LinearOrder K]

/-! ### Operations -/

def empty : KVStore K V := ⟨[], List.Pairwise.nil⟩

/-- First row of `l` with key `k`. -/
def lookupList (k : K) : List (K × V) → Option V
  | [] => none
  | e :: rest => if e.1 = k then some e.2 else lookupList k rest

/-- Write `v` under `k` in a sorted list, in place of a row with that key. -/
def insertList (k : K) (v : V) : List (K × V) → List (K × V)
  | [] => [(k, v)]
  | e :: rest =>
    if k < e.1 then (k, v) :: e :: rest
    else if e.1 = k then (k, v) :: rest
    else e :: insertList k v rest

def get (m : KVStore K V) (k : K) : Option V := lookupList k m.entries

def has (m : KVStore K V) (k : K) : Bool := (m.get k).isSome

theorem mem_insertList {k : K} {v : V} {e : K × V} :
    ∀ {l : List (K × V)}, e ∈ insertList k v l → e = (k, v) ∨ e ∈ l
  | [], h => by
    simp only [insertList, List.mem_singleton] at h
    exact Or.inl h
  | d :: rest, h => by
    simp only [insertList] at h
    split at h
    · exact List.mem_cons.mp h
    · split at h
      · rcases List.mem_cons.mp h with h | h
        · exact Or.inl h
        · exact Or.inr (List.mem_cons_of_mem _ h)
      · rcases List.mem_cons.mp h with h | h
        · exact Or.inr (h ▸ List.mem_cons_self)
        · rcases mem_insertList h with h | h
          · exact Or.inl h
          · exact Or.inr (List.mem_cons_of_mem _ h)

theorem sorted_insertList (k : K) (v : V) :
    ∀ {l : List (K × V)}, l.Pairwise (fun a b => a.1 < b.1) →
      (insertList k v l).Pairwise fun a b => a.1 < b.1
  | [], _ => by simp [insertList]
  | d :: rest, h => by
    obtain ⟨hd, hrest⟩ := List.pairwise_cons.mp h
    simp only [insertList]
    split
    · rename_i hk
      refine List.pairwise_cons.mpr ⟨fun e he => ?_, h⟩
      rcases List.mem_cons.mp he with rfl | he
      · exact hk
      · exact lt_trans hk (hd e he)
    · split
      · rename_i hk
        subst hk
        exact List.pairwise_cons.mpr ⟨hd, hrest⟩
      · rename_i hlt hne
        refine List.pairwise_cons.mpr ⟨fun e he => ?_, sorted_insertList k v hrest⟩
        rcases mem_insertList he with rfl | he
        · exact lt_of_le_of_ne (not_lt.mp hlt) hne
        · exact hd e he

def set (m : KVStore K V) (k : K) (v : V) : KVStore K V :=
  ⟨insertList k v m.entries, sorted_insertList k v m.sorted⟩

def remove (m : KVStore K V) (k : K) : KVStore K V :=
  ⟨m.entries.filter fun e => e.1 ≠ k, m.sorted.filter _⟩

/-- The store with the rows of `l`, later rows of the list overwritten by earlier ones. -/
def ofList (l : List (K × V)) : KVStore K V := l.foldr (fun e m => m.set e.1 e.2) empty

/-- The rows whose key satisfies `p`, in key order. -/
def range (m : KVStore K V) (p : K → Bool) : List (K × V) := m.entries.filter fun e => p e.1

/-- The first row an iterator over the keys satisfying `p` yields. -/
def first (m : KVStore K V) (p : K → Bool) : Option (K × V) := m.entries.find? fun e => p e.1

def sum (m : KVStore K V) (f : K → V → ℤ) : ℤ := (m.entries.map fun e => f e.1 e.2).sum

/-! ### Lookups -/

theorem lookupList_eq_none {k : K} : ∀ {l : List (K × V)},
    lookupList k l = none ↔ ∀ e ∈ l, e.1 ≠ k
  | [] => by simp [lookupList]
  | d :: rest => by
    simp only [lookupList, List.forall_mem_cons]
    split
    · simp [*]
    · simp [*, lookupList_eq_none (l := rest)]

theorem lookupList_mem {k : K} {v : V} : ∀ {l : List (K × V)},
    lookupList k l = some v → (k, v) ∈ l
  | [], h => by simp [lookupList] at h
  | d :: rest, h => by
    simp only [lookupList] at h
    split at h
    · rename_i hk
      rw [Option.some_inj] at h
      subst hk h
      exact List.mem_cons_self
    · exact List.mem_cons_of_mem _ (lookupList_mem h)

theorem lookupList_of_mem {k : K} {v : V} : ∀ {l : List (K × V)},
    l.Pairwise (fun a b => a.1 < b.1) → (k, v) ∈ l → lookupList k l = some v
  | [], _, h => by simp at h
  | d :: rest, hs, h => by
    obtain ⟨hd, hrest⟩ := List.pairwise_cons.mp hs
    simp only [lookupList]
    rcases List.mem_cons.mp h with h | h
    · subst h
      rw [if_pos rfl]
    · rw [if_neg (ne_of_lt (hd _ h)), lookupList_of_mem hrest h]

theorem lookupList_insertList_self (k : K) (v : V) :
    ∀ l : List (K × V), lookupList k (insertList k v l) = some v
  | [] => by simp [insertList, lookupList]
  | d :: rest => by
    simp only [insertList]
    split
    · simp [lookupList]
    · split
      · simp [lookupList]
      · simp [lookupList, *, lookupList_insertList_self k v rest]

theorem lookupList_insertList_ne {k j : K} (v : V) (h : j ≠ k) :
    ∀ l : List (K × V), lookupList j (insertList k v l) = lookupList j l
  | [] => by simp [insertList, lookupList, h.symm]
  | d :: rest => by
    simp only [insertList]
    split
    · simp [lookupList, h.symm]
    · split
      · rename_i hk
        subst hk
        simp [lookupList, h.symm]
      · simp [lookupList, lookupList_insertList_ne v h rest]

@[simp] theorem get_empty (k : K) : (empty : KVStore K V).get k = none := rfl

@[simp] theorem get_set_self (m : KVStore K V) (k : K) (v : V) : (m.set k v).get k = some v :=
  lookupList_insertList_self k v m.entries

theorem get_set_ne (m : KVStore K V) {k j : K} (v : V) (h : j ≠ k) :
    (m.set k v).get j = m.get j :=
  lookupList_insertList_ne v h m.entries

theorem get_set (m : KVStore K V) (k j : K) (v : V) :
    (m.set k v).get j = if j = k then some v else m.get j := by
  by_cases h : j = k
  · rw [if_pos h, h, get_set_self]
  · rw [if_neg h, get_set_ne m v h]

theorem mem_entries {m : KVStore K V} {k : K} {v : V} :
    (k, v) ∈ m.entries ↔ m.get k = some v :=
  ⟨lookupList_of_mem m.sorted, lookupList_mem⟩

theorem get_eq_none {m : KVStore K V} {k : K} : m.get k = none ↔ ∀ e ∈ m.entries, e.1 ≠ k :=
  lookupList_eq_none

@[simp] theorem get_remove_self (m : KVStore K V) (k : K) : (m.remove k).get k = none := by
  rw [get_eq_none]
  intro e he
  simpa using (List.mem_filter.mp he).2

theorem get_remove_ne (m : KVStore K V) {k j : K} (h : j ≠ k) :
    (m.remove k).get j = m.get j := by
  rcases hj : m.get j with _ | v
  · rw [get_eq_none] at hj ⊢
    exact fun e he => hj e (List.mem_filter.mp he).1
  · rw [← mem_entries] at hj ⊢
    exact List.mem_filter.mpr ⟨hj, by simpa using h⟩

theorem get_remove (m : KVStore K V) (k j : K) :
    (m.remove k).get j = if j = k then none else m.get j := by
  by_cases h : j = k
  · rw [if_pos h, h, get_remove_self]
  · rw [if_neg h, get_remove_ne m h]

@[simp] theorem has_eq_true {m : KVStore K V} {k : K} :
    m.has k = true ↔ ∃ v, m.get k = some v := by
  rw [has, Option.isSome_iff_exists]

theorem ext_get {m m' : KVStore K V} (h : ∀ k, m.get k = m'.get k) : m = m' := by
  have hlist : m.entries = m'.entries := by
    refine List.Perm.eq_of_pairwise (fun a b _ _ hab hba => absurd hab (lt_asymm hba))
      m.sorted m'.sorted ?_
    refine (List.perm_ext_iff_of_nodup ?_ ?_).mpr fun e => ?_
    · exact m.sorted.imp fun hab => fun heq => absurd hab (heq ▸ lt_irrefl _)
    · exact m'.sorted.imp fun hab => fun heq => absurd hab (heq ▸ lt_irrefl _)
    · rw [show e = (e.1, e.2) from rfl, mem_entries, mem_entries, h]
  cases m
  cases m'
  congr

theorem set_get_self {m : KVStore K V} {k : K} {v : V} (h : m.get k = some v) :
    m.set k v = m := by
  refine ext_get fun j => ?_
  rw [get_set]
  split
  · rw [‹j = k›, h]
  · rfl

theorem remove_of_get_none {m : KVStore K V} {k : K} (h : m.get k = none) : m.remove k = m := by
  refine ext_get fun j => ?_
  rw [get_remove]
  split
  · rw [‹j = k›, h]
  · rfl

/-! ### Sums over all rows -/

/-- What the row under `k` contributes to `m.sum f`. -/
def term (m : KVStore K V) (f : K → V → ℤ) (k : K) : ℤ := (m.get k).elim 0 (f k)

def keys (m : KVStore K V) : Finset K := (m.entries.map Prod.fst).toFinset

theorem term_of_get {m : KVStore K V} {f : K → V → ℤ} {k : K} {v : V} (h : m.get k = some v) :
    m.term f k = f k v := by
  rw [term, h]
  rfl

theorem sum_eq_sum_keys (m : KVStore K V) (f : K → V → ℤ) {F : Finset K} (hF : m.keys ⊆ F) :
    m.sum f = ∑ k ∈ F, m.term f k := by
  have hnodup : (m.entries.map Prod.fst).Nodup :=
    List.pairwise_map.mpr (m.sorted.imp fun h => ne_of_lt h)
  have hkeys : m.sum f = ∑ k ∈ m.keys, m.term f k := by
    rw [keys, List.sum_toFinset _ hnodup, sum, List.map_map]
    congr 1
    refine List.map_congr_left fun e he => ?_
    exact (term_of_get (mem_entries.mp he)).symm
  rw [hkeys]
  refine Finset.sum_subset hF fun k _ hk => ?_
  have hnone : m.get k = none := by
    rw [get_eq_none]
    rintro e he rfl
    exact hk (List.mem_toFinset.mpr (List.mem_map_of_mem he))
  rw [term, hnone]
  rfl

theorem sum_sub_sum {V' : Type} {m : KVStore K V} {m' : KVStore K V'} {f : K → V → ℤ}
    {f' : K → V' → ℤ} (F : Finset K) (h : ∀ k ∉ F, m'.term f' k = m.term f k) :
    m'.sum f' - m.sum f = ∑ k ∈ F, (m'.term f' k - m.term f k) := by
  have hsub : F ⊆ m.keys ∪ m'.keys ∪ F := Finset.subset_union_right
  rw [sum_eq_sum_keys m (F := m.keys ∪ m'.keys ∪ F) f fun k hk => by simp [hk],
    sum_eq_sum_keys m' (F := m.keys ∪ m'.keys ∪ F) f' fun k hk => by simp [hk],
    ← Finset.sum_sub_distrib]
  refine (Finset.sum_subset hsub fun k _ hk => ?_).symm
  rw [h k hk, sub_self]

theorem sum_set (m : KVStore K V) (k : K) (v : V) (f : K → V → ℤ) :
    (m.set k v).sum f = m.sum f - m.term f k + f k v := by
  have hoff : ∀ j ∉ ({k} : Finset K), (m.set k v).term f j = m.term f j := by
    intro j hj
    rw [term, get_set_ne m v (by simpa using hj)]
    rfl
  have hdiff := sum_sub_sum {k} hoff
  rw [Finset.sum_singleton, term_of_get (get_set_self m k v)] at hdiff
  omega

theorem sum_remove (m : KVStore K V) (k : K) (f : K → V → ℤ) :
    (m.remove k).sum f = m.sum f - m.term f k := by
  have hoff : ∀ j ∉ ({k} : Finset K), (m.remove k).term f j = m.term f j := by
    intro j hj
    rw [term, get_remove_ne m (by simpa using hj)]
    rfl
  have hdiff := sum_sub_sum {k} hoff
  have hzero : (m.remove k).term f k = 0 := by
    rw [term, get_remove_self]
    rfl
  rw [Finset.sum_singleton, hzero] at hdiff
  omega

theorem sum_nonneg {m : KVStore K V} {f : K → V → ℤ}
    (h : ∀ k v, m.get k = some v → 0 ≤ f k v) : 0 ≤ m.sum f := by
  refine List.sum_nonneg fun x hx => ?_
  obtain ⟨e, he, rfl⟩ := List.mem_map.mp hx
  exact h e.1 e.2 (mem_entries.mp he)

theorem sum_le_sum_of_subset {m m' : KVStore K V} {f : K → V → ℤ} (hf : ∀ k v, 0 ≤ f k v)
    (h : ∀ k v, m.get k = some v → m'.get k = some v) : m.sum f ≤ m'.sum f := by
  have hkeys : m.keys ⊆ m'.keys := by
    intro k hk
    simp only [keys, List.mem_toFinset, List.mem_map] at hk ⊢
    obtain ⟨e, he, rfl⟩ := hk
    exact ⟨e, mem_entries.mpr (h _ _ (mem_entries.mp he)), rfl⟩
  rw [m.sum_eq_sum_keys f hkeys, m'.sum_eq_sum_keys f (Finset.Subset.refl _)]
  refine Finset.sum_le_sum fun k _ => ?_
  rcases hget : m.get k with _ | v
  · rw [term, hget, Option.elim_none, term]
    rcases m'.get k with _ | v
    · exact le_rfl
    · exact hf k v
  · rw [term_of_get hget, term_of_get (h k v hget)]

/-! ### The number of rows -/

theorem mem_keys {m : KVStore K V} {k : K} : k ∈ m.keys ↔ ∃ v, m.get k = some v := by
  simp only [keys, List.mem_toFinset, List.mem_map]
  constructor
  · rintro ⟨⟨k, v⟩, he, rfl⟩
    exact ⟨v, mem_entries.mp he⟩
  · rintro ⟨v, hv⟩
    exact ⟨(k, v), mem_entries.mpr hv, rfl⟩

theorem length_entries (m : KVStore K V) : m.entries.length = m.keys.card := by
  have hnodup : (m.entries.map Prod.fst).Nodup :=
    List.pairwise_map.mpr (m.sorted.imp fun h => ne_of_lt h)
  rw [keys, List.toFinset_card_of_nodup hnodup, List.length_map]

theorem length_le_of_keys {m m' : KVStore K V}
    (h : ∀ k v', m'.get k = some v' → ∃ v, m.get k = some v) :
    m'.entries.length ≤ m.entries.length := by
  rw [length_entries, length_entries]
  refine Finset.card_le_card fun k hk => ?_
  obtain ⟨v', hv'⟩ := mem_keys.mp hk
  exact mem_keys.mpr (h k v' hv')

theorem length_lt_of_keys {m m' : KVStore K V} {k : K} {v : V}
    (h : ∀ k v', m'.get k = some v' → ∃ v, m.get k = some v) (hk : m.get k = some v)
    (hk' : m'.get k = none) : m'.entries.length < m.entries.length := by
  rw [length_entries, length_entries]
  refine Finset.card_lt_card ((Finset.ssubset_iff_of_subset fun j hj => ?_).mpr ⟨k, ?_, ?_⟩)
  · obtain ⟨v', hv'⟩ := mem_keys.mp hj
    exact mem_keys.mpr (h j v' hv')
  · exact mem_keys.mpr ⟨v, hk⟩
  · intro hmem
    obtain ⟨v', hv'⟩ := mem_keys.mp hmem
    rw [hk'] at hv'
    simp at hv'

/-- The store with the rows whose key satisfies `p`. -/
def restrict (m : KVStore K V) (p : K → Bool) : KVStore K V := ⟨m.range p, m.sorted.filter _⟩

theorem get_restrict (m : KVStore K V) (p : K → Bool) (k : K) :
    (m.restrict p).get k = if p k then m.get k else none := by
  have hmem : ∀ v, (m.restrict p).get k = some v ↔ m.get k = some v ∧ p k = true := by
    intro v
    rw [← mem_entries, ← mem_entries]
    exact List.mem_filter
  split
  · rename_i hp
    refine Option.ext fun v => ?_
    rw [hmem, and_iff_left hp]
  · rename_i hp
    refine Option.eq_none_iff_forall_ne_some.mpr fun v hv => hp ((hmem v).mp hv).2

/-! ### The first row of a range -/

theorem first_eq_none {m : KVStore K V} {p : K → Bool} :
    m.first p = none ↔ ∀ k v, m.get k = some v → p k = false := by
  rw [first, List.find?_eq_none]
  constructor
  · intro h k v hk
    simpa using h (k, v) (mem_entries.mpr hk)
  · intro h e he
    simpa using h e.1 e.2 (mem_entries.mp he)

/-- The first row of a range is stored, lies in the range, and no stored key of
the range is smaller. -/
theorem first_spec {m : KVStore K V} {p : K → Bool} {k : K} {v : V}
    (h : m.first p = some (k, v)) :
    m.get k = some v ∧ p k = true ∧ ∀ j w, m.get j = some w → p j = true → k ≤ j := by
  obtain ⟨hp, as, bs, hsplit, hbefore⟩ := List.find?_eq_some_iff_append.mp h
  refine ⟨mem_entries.mp (hsplit ▸ by simp), hp, fun j w hj hpj => ?_⟩
  have hmem : (j, w) ∈ as ++ (k, v) :: bs := hsplit ▸ mem_entries.mpr hj
  have hs : (as ++ (k, v) :: bs).Pairwise fun a b => a.1 < b.1 := hsplit ▸ m.sorted
  rcases List.mem_append.mp hmem with hj | hj
  · have := hbefore _ hj
    simp [hpj] at this
  · rcases List.mem_cons.mp hj with hj | hj
    · exact le_of_eq (congrArg Prod.fst hj).symm
    · exact le_of_lt ((List.pairwise_cons.mp (List.pairwise_append.mp hs).2.1).1 _ hj)

end KVStore

/-! ### Tables: rows that carry their own key -/

structure Table {K V : Type} [LinearOrder K] (key : V → K) where
  rows : KVStore K V
  keyed : ∀ k v, rows.get k = some v → key v = k

namespace Table

variable {K V : Type} [LinearOrder K] {key : V → K}

def empty : Table key := ⟨KVStore.empty, by simp⟩

def get (t : Table key) (k : K) : Option V := t.rows.get k

def put (t : Table key) (v : V) : Table key where
  rows := t.rows.set (key v) v
  keyed := by
    intro k w h
    rw [KVStore.get_set] at h
    split at h
    · rename_i hk
      rw [← Option.some_inj.mp h, hk]
    · exact t.keyed k w h

def remove (t : Table key) (k : K) : Table key where
  rows := t.rows.remove k
  keyed := by
    intro j w h
    rw [KVStore.get_remove] at h
    split at h
    · simp at h
    · exact t.keyed j w h

/-- The table with the rows of `l`, later ones overwriting earlier ones. -/
def ofRows (l : List V) : Table key := l.foldl put empty

def range (t : Table key) (p : K → Bool) : List V := (t.rows.range p).map Prod.snd

def toList (t : Table key) : List V := t.rows.entries.map Prod.snd

def sum (t : Table key) (f : V → ℤ) : ℤ := t.rows.sum fun _ v => f v

theorem key_of_get {t : Table key} {k : K} {v : V} (h : t.get k = some v) : key v = k :=
  t.keyed k v h

@[simp] theorem get_empty (k : K) : (empty : Table key).get k = none := rfl

theorem get_put (t : Table key) (v : V) (k : K) :
    (t.put v).get k = if k = key v then some v else t.get k :=
  KVStore.get_set t.rows (key v) k v

@[simp] theorem get_put_self (t : Table key) (v : V) : (t.put v).get (key v) = some v :=
  KVStore.get_set_self t.rows (key v) v

theorem get_put_ne (t : Table key) {v : V} {k : K} (h : k ≠ key v) :
    (t.put v).get k = t.get k :=
  KVStore.get_set_ne t.rows v h

theorem get_remove (t : Table key) (k j : K) :
    (t.remove k).get j = if j = k then none else t.get j :=
  KVStore.get_remove t.rows k j

theorem ext_get {t t' : Table key} (h : ∀ k, t.get k = t'.get k) : t = t' := by
  have hrows := KVStore.ext_get h
  cases t
  cases t'
  congr

theorem sum_range_eq (t : Table key) {p : K → Bool} {f : V → ℤ}
    (h : ∀ v, p (key v) = false → f v = 0) : ((t.range p).map f).sum = t.sum f := by
  have hkey : ∀ e ∈ t.rows.entries, key e.2 = e.1 := fun e he =>
    t.keyed e.1 e.2 (KVStore.mem_entries.mp he)
  simp only [range, KVStore.range, sum, KVStore.sum, List.map_map]
  generalize t.rows.entries = l at hkey ⊢
  induction l with
  | nil => rfl
  | cons e rest ih =>
    have ih := ih fun e he => hkey e (List.mem_cons_of_mem _ he)
    rcases hp : p e.1 with _ | _
    · rw [List.filter_cons_of_neg (by simp [hp]), ih, List.map_cons, List.sum_cons,
        h e.2 (by rw [hkey e List.mem_cons_self, hp]), zero_add]
    · rw [List.filter_cons_of_pos (by simp [hp]), List.map_cons, List.sum_cons, ih]
      rfl

theorem mem_toList {t : Table key} {k : K} {v : V} (h : t.get k = some v) : v ∈ t.toList :=
  List.mem_map_of_mem (KVStore.mem_entries.mpr h)

theorem mem_toList_iff {t : Table key} {v : V} : v ∈ t.toList ↔ t.get (key v) = some v := by
  constructor
  · intro h
    obtain ⟨e, he, rfl⟩ := List.mem_map.mp h
    have hget : t.get e.1 = some e.2 := KVStore.mem_entries.mp he
    rwa [key_of_get hget]
  · exact mem_toList

theorem nodup_keys (t : Table key) : (t.toList.map key).Nodup := by
  have hkeys : (t.toList.map key) = t.rows.entries.map Prod.fst := by
    rw [toList, List.map_map]
    refine List.map_congr_left fun e he => ?_
    exact t.keyed e.1 e.2 (KVStore.mem_entries.mp he)
  rw [hkeys]
  exact List.pairwise_map.mpr (t.rows.sorted.imp fun h => ne_of_lt h)

theorem nodup_toList (t : Table key) : t.toList.Nodup := List.Nodup.of_map key t.nodup_keys

theorem mem_range {t : Table key} {p : K → Bool} {v : V} :
    v ∈ t.range p ↔ t.get (key v) = some v ∧ p (key v) = true := by
  simp only [range, KVStore.range, List.mem_map, List.mem_filter]
  constructor
  · rintro ⟨⟨k, w⟩, ⟨hmem, hp⟩, rfl⟩
    have hget := KVStore.mem_entries.mp hmem
    have hkey := t.keyed k w hget
    subst hkey
    exact ⟨hget, hp⟩
  · rintro ⟨hget, hp⟩
    exact ⟨(key v, v), ⟨KVStore.mem_entries.mpr hget, hp⟩, rfl⟩

def restrict (t : Table key) (p : K → Bool) : Table key where
  rows := t.rows.restrict p
  keyed := by
    intro k v h
    rw [KVStore.get_restrict] at h
    split at h
    · exact t.keyed k v h
    · cases h

theorem get_restrict (t : Table key) (p : K → Bool) (k : K) :
    (t.restrict p).get k = if p k then t.get k else none := KVStore.get_restrict t.rows p k

theorem range_restrict (t : Table key) (p q : K → Bool) :
    (t.restrict p).range q = (t.range q).filter fun v => p (key v) := by
  have hkey : ∀ e ∈ (t.rows.entries.filter fun e => q e.1), p (key e.2) = p e.1 := fun e he => by
    rw [t.keyed e.1 e.2 (KVStore.mem_entries.mp (List.mem_filter.mp he).1)]
  have hfilter : (t.rows.entries.filter fun e => q e.1).filter (fun e => p (key e.2))
      = (t.rows.entries.filter fun e => q e.1).filter fun e => p e.1 := List.filter_congr hkey
  have hcomm : (t.rows.entries.filter fun e => p e.1).filter (fun e => q e.1)
      = (t.rows.entries.filter fun e => q e.1).filter fun e => p e.1 := by
    rw [List.filter_filter, List.filter_filter]
    simp only [Bool.and_comm]
  show ((t.rows.entries.filter fun e => p e.1).filter fun e => q e.1).map Prod.snd = _
  rw [hcomm, ← hfilter, range, KVStore.range, List.filter_map]
  rfl

theorem range_sorted (t : Table key) (p : K → Bool) :
    (t.range p).Pairwise fun v w => key v < key w := by
  have hkey : ∀ e ∈ t.rows.range p, key e.2 = e.1 := fun e he =>
    t.keyed e.1 e.2 (KVStore.mem_entries.mp (List.mem_filter.mp he).1)
  have hsorted : (t.rows.range p).Pairwise fun a b => a.1 < b.1 := t.rows.sorted.filter _
  refine List.pairwise_map.mpr (hsorted.imp_of_mem fun ha hb hlt => ?_)
  rw [hkey _ ha, hkey _ hb]
  exact hlt

end Table
