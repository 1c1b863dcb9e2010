/-
Secondary indexes of a table.

A row `r` is listed under `k` with the value `w` when `entry r = some (k, w)`, and not at all when
`entry r = none`.

* `IsIndex` — a store holds what `entry` says, no more and no less;
* `Tally` — a store counts the keys of another one group by group.

Main result: `IsIndex.put`.

An index may only be kept row by row if no two rows share a key, hence the field `unique`.
-/
import PerpDex.KVStore

namespace KVStore

variable {K V : Type} [LinearOrder K]

/-- Take out the entry `old` and write the entry `new`, where there are such. -/
def replace (S : KVStore K V) (old new : Option (K × V)) : KVStore K V :=
  let cleared := old.elim S fun e => S.remove e.1
  new.elim cleared fun e => cleared.set e.1 e.2

@[simp] theorem replace_none_none (S : KVStore K V) : S.replace none none = S := rfl

@[simp] theorem replace_none_some (S : KVStore K V) (e : K × V) :
    S.replace none (some e) = S.set e.1 e.2 := rfl

@[simp] theorem replace_some_none (S : KVStore K V) (e : K × V) :
    S.replace (some e) none = S.remove e.1 := rfl

theorem replace_some_some (S : KVStore K V) (k : K) (v w : V) :
    S.replace (some (k, v)) (some (k, w)) = S.set k w := by
  refine ext_get fun j => ?_
  show ((S.remove k).set k w).get j = _
  rw [get_set, get_set, get_remove]
  split <;> rfl

theorem get_replace_old {S : KVStore K V} {k : K} {v : V} {new : Option (K × V)}
    (hnew : ∀ w, new ≠ some (k, w)) : (S.replace (some (k, v)) new).get k = none := by
  rcases new with _ | ⟨j, w⟩
  · exact get_remove_self S k
  · have hj : k ≠ j := fun heq => hnew w (by rw [heq])
    exact (get_set_ne _ w hj).trans (get_remove_self S k)

theorem get_replace_new {S : KVStore K V} {old : Option (K × V)} {k : K} {v : V} :
    (S.replace old (some (k, v))).get k = some v := get_set_self _ _ _

theorem get_replace_ne {S : KVStore K V} {old new : Option (K × V)} {j : K}
    (hold : ∀ v, old ≠ some (j, v)) (hnew : ∀ v, new ≠ some (j, v)) :
    (S.replace old new).get j = S.get j := by
  have hcleared : (old.elim S fun e => S.remove e.1).get j = S.get j := by
    rcases old with _ | ⟨k, v⟩
    · rfl
    · refine get_remove_ne S fun hj => hold v ?_
      rw [hj]
  rcases new with _ | ⟨k, v⟩
  · exact hcleared
  · refine (get_set_ne _ v fun hj => hnew v ?_).trans hcleared
    rw [hj]

theorem keys_set (S : KVStore K V) (k : K) (v : V) : (S.set k v).keys = insert k S.keys := by
  ext j
  rw [Finset.mem_insert, mem_keys, mem_keys, get_set]
  by_cases hj : j = k
  · simp [hj]
  · simp [hj]

theorem keys_remove (S : KVStore K V) (k : K) : (S.remove k).keys = S.keys.erase k := by
  ext j
  rw [Finset.mem_erase, mem_keys, mem_keys, get_remove]
  by_cases hj : j = k
  · simp [hj]
  · simp [hj]

end KVStore

/-! ### Indexes -/

/-- `S` is the index of `rows` by `entry`. -/
structure IsIndex {K R L W : Type} [LinearOrder K] [LinearOrder L] {key : R → K}
    (rows : Table key) (entry : R → Option (L × W)) (S : KVStore L W) : Prop where
  exact : ∀ l w, S.get l = some w ↔ ∃ r, rows.get (key r) = some r ∧ entry r = some (l, w)
  unique : ∀ r r' l w w', rows.get (key r) = some r → rows.get (key r') = some r' →
    entry r = some (l, w) → entry r' = some (l, w') → key r = key r'

namespace IsIndex

variable {K R L W : Type} [LinearOrder K] [LinearOrder L] {key : R → K} {rows : Table key}
  {entry : R → Option (L × W)} {S : KVStore L W} {r : R}

theorem empty : IsIndex (Table.empty : Table key) entry KVStore.empty := by
  refine ⟨fun l w => ?_, fun r r' l w w' hr => ?_⟩
  · simp
  · simp at hr

theorem get (h : IsIndex rows entry S) (hr : rows.get (key r) = some r) {l : L} {w : W}
    (he : entry r = some (l, w)) : S.get l = some w :=
  (h.exact l w).mpr ⟨r, hr, he⟩

theorem get_none (h : IsIndex rows entry S) {l : L}
    (hl : ∀ r w, rows.get (key r) = some r → entry r ≠ some (l, w)) : S.get l = none := by
  rcases hg : S.get l with _ | w
  · rfl
  · obtain ⟨r, hr, he⟩ := (h.exact l w).mp hg
    exact absurd he (hl r w hr)

theorem eq (h : IsIndex rows entry S) {S' : KVStore L W} (h' : IsIndex rows entry S') : S = S' := by
  refine KVStore.ext_get fun l => Option.ext fun w => ?_
  rw [h.exact, h'.exact]

theorem mono (h : IsIndex rows entry S) {rows' : Table key} {S' : KVStore L W}
    (h' : IsIndex rows' entry S')
    (hsub : ∀ r, rows.get (key r) = some r → rows'.get (key r) = some r) {l : L} {w : W}
    (hget : S.get l = some w) : S'.get l = some w := by
  obtain ⟨r, hr, he⟩ := (h.exact l w).mp hget
  exact h'.get (hsub r hr) he

theorem replace_same (h : IsIndex rows entry S) (hr : rows.get (key r) = some r) :
    S.replace (entry r) (entry r) = S := by
  rcases he : entry r with _ | ⟨l, w⟩
  · rfl
  · rw [KVStore.replace_some_some, KVStore.set_get_self (h.get hr he)]

/-- Writing a row and replacing its entry keeps the index, if the new key is not taken by another row.
What counts as an entry may change for the row that is written. -/
theorem put (h : IsIndex rows entry S) (r : R) {entry' : R → Option (L × W)}
    (hsame : ∀ r', key r' ≠ key r → entry' r' = entry r')
    (hfree : ∀ r' l w w', rows.get (key r') = some r' → entry' r = some (l, w) →
      entry r' = some (l, w') → key r' = key r) :
    IsIndex (rows.put r) entry' (S.replace ((rows.get (key r)).bind entry) (entry' r)) := by
  -- A stored row after the write is the new row, or an old row under another key.
  have hrow : ∀ {r' : R}, (rows.put r).get (key r') = some r' →
      r' = r ∨ (key r' ≠ key r ∧ rows.get (key r') = some r') := by
    intro r' hr'
    by_cases hk : key r' = key r
    · rw [hk, Table.get_put_self] at hr'
      exact .inl (Option.some.inj hr').symm
    · rw [Table.get_put_ne _ hk] at hr'
      exact .inr ⟨hk, hr'⟩
  have hkept : ∀ {r' : R}, key r' ≠ key r → rows.get (key r') = some r' →
      (rows.put r).get (key r') = some r' := fun hk hr' => by rwa [Table.get_put_ne _ hk]
  -- The entry of the old row lies under a key that no other row uses.
  have hold : ∀ {r' : R} {l : L} {w w' : W}, key r' ≠ key r → rows.get (key r') = some r' →
      entry r' = some (l, w) → (rows.get (key r)).bind entry ≠ some (l, w') := by
    intro r' l w w' hk hr' he hb
    obtain ⟨r₀, hr₀, he₀⟩ := Option.bind_eq_some_iff.mp hb
    have hk₀ : key r₀ = key r := Table.key_of_get hr₀
    exact hk ((h.unique r' r₀ l w w' hr' (by rwa [hk₀]) he he₀).trans hk₀)
  constructor
  · intro l w
    constructor
    · intro hg
      by_cases hnew : ∃ w', entry' r = some (l, w')
      · obtain ⟨w', hw'⟩ := hnew
        rw [hw', KVStore.get_replace_new] at hg
        exact ⟨r, Table.get_put_self _ _, by rw [hw', Option.some.inj hg]⟩
      · by_cases hb : ∃ w', (rows.get (key r)).bind entry = some (l, w')
        · obtain ⟨w', hb⟩ := hb
          rw [hb, KVStore.get_replace_old fun v hv => hnew ⟨v, hv⟩] at hg
          simp at hg
        · rw [KVStore.get_replace_ne (fun v hv => hb ⟨v, hv⟩) (fun v hv => hnew ⟨v, hv⟩)] at hg
          obtain ⟨r', hr', he'⟩ := (h.exact l w).mp hg
          have hk : key r' ≠ key r := by
            intro hk
            rw [hk] at hr'
            exact hb ⟨w, by rw [hr']; exact he'⟩
          exact ⟨r', hkept hk hr', (hsame r' hk).trans he'⟩
    · rintro ⟨r', hr', he'⟩
      rcases hrow hr' with rfl | ⟨hk, hr'⟩
      · rw [he', KVStore.get_replace_new]
      · rw [hsame r' hk] at he'
        rw [KVStore.get_replace_ne (fun v => hold hk hr' he')
          fun v hv => hk (hfree r' l v w hr' hv he')]
        exact h.get hr' he'
  · intro r₁ r₂ l w₁ w₂ h₁ h₂ he₁ he₂
    rcases hrow h₁ with rfl | ⟨hk₁, hr₁⟩
    · rcases hrow h₂ with rfl | ⟨hk₂, hr₂⟩
      · rfl
      · exact (hfree r₂ l w₁ w₂ hr₂ he₁ (hsame r₂ hk₂ ▸ he₂)).symm
    · rw [hsame r₁ hk₁] at he₁
      rcases hrow h₂ with rfl | ⟨hk₂, hr₂⟩
      · exact hfree r₁ l w₂ w₁ hr₁ he₂ he₁
      · exact h.unique r₁ r₂ l w₁ w₂ hr₁ hr₂ he₁ (hsame r₂ hk₂ ▸ he₂)

end IsIndex

/-! ### Counting the keys of a group -/

/-- `C` counts the keys of `S` group by group; a group without keys may have no row. -/
structure Tally {K W G : Type} [LinearOrder K] [LinearOrder G] (S : KVStore K W) (group : K → G)
    (C : KVStore G ℕ) : Prop where
  exact : ∀ g, (C.get g).getD 0 = (S.keys.filter fun k => group k = g).card

namespace Tally

variable {K W G : Type} [LinearOrder K] [LinearOrder G] {S : KVStore K W} {group : K → G}
  {C C' : KVStore G ℕ} {k : K} {w : W}

theorem empty : Tally (KVStore.empty : KVStore K W) group KVStore.empty := ⟨fun _ => rfl⟩

theorem pos (h : Tally S group C) (hk : S.get k = some w) : 1 ≤ (C.get (group k)).getD 0 := by
  rw [h.exact, Nat.one_le_iff_ne_zero, ← Nat.pos_iff_ne_zero, Finset.card_pos]
  exact ⟨k, Finset.mem_filter.mpr ⟨KVStore.mem_keys.mpr ⟨w, hk⟩, rfl⟩⟩

theorem mono (h : Tally S group C) {S' : KVStore K W} (h' : Tally S' group C')
    (hsub : ∀ k w, S.get k = some w → S'.get k = some w) (g : G) :
    (C.get g).getD 0 ≤ (C'.get g).getD 0 := by
  rw [h.exact, h'.exact]
  refine Finset.card_le_card fun k hk => ?_
  obtain ⟨hk, hg⟩ := Finset.mem_filter.mp hk
  obtain ⟨w, hw⟩ := KVStore.mem_keys.mp hk
  exact Finset.mem_filter.mpr ⟨KVStore.mem_keys.mpr ⟨w, hsub k w hw⟩, hg⟩

theorem eq (h : Tally S group C) (h' : Tally S group C') (hC : ∀ g, C.get g ≠ some 0)
    (hC' : ∀ g, C'.get g ≠ some 0) : C = C' := by
  refine KVStore.ext_get fun g => ?_
  have hg : (C.get g).getD 0 = (C'.get g).getD 0 := by rw [h.exact, h'.exact]
  have hz := hC g
  have hz' := hC' g
  rcases hc : C.get g with _ | n <;> rcases hc' : C'.get g with _ | n' <;> simp_all

theorem set (h : Tally S group C) (hk : S.get k = none)
    (hup : (C'.get (group k)).getD 0 = (C.get (group k)).getD 0 + 1)
    (hother : ∀ g, g ≠ group k → (C'.get g).getD 0 = (C.get g).getD 0) :
    Tally (S.set k w) group C' := by
  refine ⟨fun g => ?_⟩
  have hnew : k ∉ S.keys := by
    rw [KVStore.mem_keys, hk]
    simp
  rw [KVStore.keys_set, Finset.filter_insert]
  by_cases hg : group k = g
  · subst hg
    rw [if_pos rfl, Finset.card_insert_of_notMem fun hm => hnew (Finset.mem_filter.mp hm).1, hup,
      h.exact]
  · rw [if_neg hg, hother g (Ne.symm hg), h.exact]

theorem remove (h : Tally S group C) (hk : S.get k = some w)
    (hdown : (C'.get (group k)).getD 0 + 1 = (C.get (group k)).getD 0)
    (hother : ∀ g, g ≠ group k → (C'.get g).getD 0 = (C.get g).getD 0) :
    Tally (S.remove k) group C' := by
  refine ⟨fun g => ?_⟩
  have hmem : k ∈ S.keys := KVStore.mem_keys.mpr ⟨w, hk⟩
  rw [KVStore.keys_remove, Finset.filter_erase]
  by_cases hg : group k = g
  · subst hg
    have hin : k ∈ S.keys.filter fun j => group j = group k :=
      Finset.mem_filter.mpr ⟨hmem, rfl⟩
    rw [Finset.card_erase_of_mem hin, ← h.exact]
    omega
  · have hout : k ∉ S.keys.filter fun j => group j = g := fun hm => hg (Finset.mem_filter.mp hm).2
    rw [Finset.erase_eq_of_notMem hout, hother g (Ne.symm hg), h.exact]

end Tally
