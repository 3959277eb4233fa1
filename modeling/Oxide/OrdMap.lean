/-
Finite maps with linearly ordered keys.

`OrdMap κ ν` is a map given by its list of entries in ascending key order, with the
operations of an ordered-map container: lookup, insertion, removal, the entries below a
key, and the nearest entry on either side of a key.

* `get?_insert`, `get?_erase`: lookups after an update;
* `prev?_eq_some_iff`, `next?_eq_some_iff`, `floor?_eq_some_iff`: the neighbour searches
  return the nearest present key, stated through `get?` only;
* `mem_below_iff`, `below_sorted`: the entries below a key, and their order;
* `total_erase`, `get?_mapVal`, `total_mapVal`: sums over the values, and images of all values.

Every later fact is stated through `get?`: the list is only looked at in this file.
-/
import Mathlib.Algebra.BigOperators.Ring.List
import Mathlib.Algebra.Order.BigOperators.Group.List
import Mathlib.Algebra.Order.Ring.Nat
import Mathlib.Data.List.Pairwise

/-- A finite map with linearly ordered keys: its entries in strictly ascending key order. -/
structure OrdMap (κ ν : Type*) [LinearOrder κ] where
  /-- The entries, in key order. -/
  entries : List (κ × ν)
  /-- Keys strictly ascend. -/
  sorted : entries.Pairwise fun a b => a.1 < b.1

namespace OrdMap

open List

variable {κ ν : Type*} [LinearOrder κ]
variable {m : OrdMap κ ν} {k k' : κ} {v v' : ν}

/-- The map with no entry. -/
def empty : OrdMap κ ν := ⟨[], List.Pairwise.nil⟩

section

variable (m : OrdMap κ ν) (k : κ)

/-- The value stored under a key. -/
def get? : Option ν :=
  (m.entries.find? fun e => e.1 = k).map Prod.snd

/-- The entries whose key is below `k`, in order. -/
def below : List (κ × ν) := m.entries.filter fun e => e.1 < k

/-- The entries whose key is above `k`, in order. -/
def above : List (κ × ν) := m.entries.filter fun e => k < e.1

/-- The entry with the greatest key below `k`. -/
def prev? : Option (κ × ν) := (m.below k).getLast?

/-- The entry with the least key above `k`. -/
def next? : Option (κ × ν) := (m.above k).head?

/-- The entry with the greatest key at most `k`. -/
def floor? : Option (κ × ν) :=
  (m.entries.filter fun e => e.1 ≤ k).getLast?

end

theorem get?_eq_some_iff_mem : m.get? k = some v ↔ (k, v) ∈ m.entries := by
  constructor
  · intro h
    obtain ⟨⟨k', v'⟩, he, rfl⟩ := Option.map_eq_some_iff.mp h
    have hk : k' = k := by simpa using find?_some he
    subst hk
    exact mem_of_find?_eq_some he
  intro h
  obtain ⟨e, he⟩ : ∃ e, m.entries.find? (fun e => e.1 = k) = some e := by
    rw [← Option.isSome_iff_exists, find?_isSome]
    exact ⟨(k, v), h, by simp⟩
  have hk : e.1 = k := by simpa using find?_some he
  -- two entries with one key are one entry, since keys strictly ascend
  have hsame : e = (k, v) := by
    by_contra hne
    have hpw := m.sorted.imp fun hlt => ne_of_lt hlt
    have : Std.Symm fun a b : κ × ν => a.1 ≠ b.1 := ⟨fun _ _ h => h.symm⟩
    exact hpw.forall (mem_of_find?_eq_some he) h hne hk
  rw [get?, he, hsame]
  rfl

theorem get?_eq_none_iff : m.get? k = none ↔ ∀ v, (k, v) ∉ m.entries := by
  constructor
  · intro h v hv
    rw [get?_eq_some_iff_mem.mpr hv] at h
    cases h
  intro h
  cases hg : m.get? k with
  | none => rfl
  | some v => exact absurd (get?_eq_some_iff_mem.mp hg) (h v)

@[simp] theorem get?_empty (k : κ) : (empty : OrdMap κ ν).get? k = none := rfl

theorem mem_below_iff : (k', v) ∈ m.below k ↔ m.get? k' = some v ∧ k' < k := by
  simp [below, get?_eq_some_iff_mem]

theorem mem_above_iff : (k', v) ∈ m.above k ↔ m.get? k' = some v ∧ k < k' := by
  simp [above, get?_eq_some_iff_mem]

section

variable (m : OrdMap κ ν)

theorem below_sorted (k : κ) : (m.below k).Pairwise fun a b => a.1 < b.1 :=
  m.sorted.filter _

/-! ### Updates -/

/-- Store `v` under `k`, replacing an earlier value. -/
def insert (k : κ) (v : ν) : OrdMap κ ν where
  entries := m.below k ++ (k, v) :: m.above k
  sorted := by
    refine pairwise_append.mpr ⟨m.sorted.filter _, ?_, ?_⟩
    · refine pairwise_cons.mpr ⟨?_, m.sorted.filter _⟩
      rintro ⟨k', v'⟩ h
      exact (mem_above_iff.mp h).2
    rintro ⟨k₁, v₁⟩ h1 ⟨k₂, v₂⟩ h₂
    have hlt := (mem_below_iff.mp h1).2
    rcases mem_cons.mp h₂ with h | h
    · obtain ⟨rfl, -⟩ := Prod.mk.inj h
      exact hlt
    · exact hlt.trans (mem_above_iff.mp h).2

/-- Remove the entry under `k`. -/
def erase (k : κ) : OrdMap κ ν where
  entries := m.entries.filter fun e => e.1 ≠ k
  sorted := m.sorted.filter _

@[simp] theorem get?_insert (k k' : κ) (v : ν) :
    (m.insert k v).get? k' = if k' = k then some v else m.get? k' := by
  ext w
  rw [get?_eq_some_iff_mem]
  simp only [insert, mem_append, mem_cons, mem_below_iff, mem_above_iff, Prod.mk.injEq]
  split_ifs with hk
  · subst hk
    simp [eq_comm]
  · have hlt : k' < k ∨ k < k' := lt_or_gt_of_ne hk
    tauto

@[simp] theorem get?_erase (k k' : κ) :
    (m.erase k).get? k' = if k' = k then none else m.get? k' := by
  ext w
  rw [get?_eq_some_iff_mem]
  split_ifs with hk
  · simp [erase, hk]
  · simp [erase, hk, get?_eq_some_iff_mem]

end

theorem of_get?_erase (h : (m.erase k).get? k' = some v) : k' ≠ k ∧ m.get? k' = some v := by
  rw [get?_erase] at h
  split_ifs at h with hk
  exact ⟨hk, h⟩

theorem of_get?_insert (h : (m.insert k v).get? k' = some v') :
    k' = k ∧ v' = v ∨ k' ≠ k ∧ m.get? k' = some v' := by
  rw [get?_insert] at h
  split_ifs at h with hk
  · exact .inl ⟨hk, (Option.some.inj h).symm⟩
  · exact .inr ⟨hk, h⟩

theorem get?_erase_of_ne (h : k' ≠ k) : (m.erase k).get? k' = m.get? k' :=
  (get?_erase ..).trans (if_neg h)

theorem get?_insert_of_ne (v : ν) (h : k' ≠ k) : (m.insert k v).get? k' = m.get? k' :=
  (get?_insert ..).trans (if_neg h)

/-- A new key leaves the others. -/
theorem get?_insert_fresh (v : ν) (hk : m.get? k = none) (h : m.get? k' = some v') :
    (m.insert k v).get? k' = some v' ∧ k' ≠ k := by
  have hne : k' ≠ k := by
    rintro rfl
    cases hk.symm.trans h
  exact ⟨(get?_insert_of_ne v hne).trans h, hne⟩

/-- Removing the least key removes the first entry. -/
theorem entries_erase_head {rest : List (κ × ν)} (h : m.entries = (k, v) :: rest) :
    (m.erase k).entries = rest := by
  have hs := m.sorted
  rw [h] at hs
  show m.entries.filter (fun e => e.1 ≠ k) = rest
  rw [h, filter_cons_of_neg (by simp), filter_eq_self]
  intro e he
  simpa using ((pairwise_cons.mp hs).1 e he).ne'

theorem insert_erase_self (m : OrdMap κ ν) (k : κ) (v : ν) :
    (m.erase k).insert k v = m.insert k v := by
  have hb : (m.erase k).below k = m.below k := by
    rw [below, erase, filter_filter]
    refine filter_congr fun e _ => ?_
    by_cases h : e.1 < k
    · simp [h.ne]
    · simp [h]
  have ha : (m.erase k).above k = m.above k := by
    rw [above, erase, filter_filter]
    refine filter_congr fun e _ => ?_
    by_cases h : k < e.1
    · simp [h.ne']
    · simp [h]
  simp only [insert, hb, ha]

/-! ### Neighbours -/

private theorem getLast?_filter_eq_some_iff {p : κ → Prop} [DecidablePred p] :
    (m.entries.filter fun e => p e.1).getLast? = some (k', v') ↔
      m.get? k' = some v' ∧ p k' ∧ ∀ k'' v'', m.get? k'' = some v'' → p k'' → k'' ≤ k' := by
  have hs : (m.entries.filter fun e => p e.1).Pairwise fun a b => a.1 < b.1 := m.sorted.filter _
  constructor
  · intro h
    obtain ⟨l, hl⟩ := getLast?_eq_some_iff.mp h
    have hmem : (k', v') ∈ m.entries.filter fun e => p e.1 := by simp [hl]
    obtain ⟨hin, hp⟩ := mem_filter.mp hmem
    refine ⟨get?_eq_some_iff_mem.mpr hin, by simpa using hp, fun k'' v'' hg hp'' => ?_⟩
    have h2 : (k'', v'') ∈ l ++ [(k', v')] := by
      rw [← hl]
      exact mem_filter.mpr ⟨get?_eq_some_iff_mem.mp hg, by simpa using hp''⟩
    rw [hl] at hs
    rcases mem_append.mp h2 with h2 | h2
    · exact le_of_lt ((pairwise_append.mp hs).2.2 _ h2 (k', v') (by simp))
    · exact le_of_eq (Prod.mk.inj (mem_singleton.mp h2)).1
  rintro ⟨hg, hp, hmax⟩
  have hmem : (k', v') ∈ m.entries.filter fun e => p e.1 :=
    mem_filter.mpr ⟨get?_eq_some_iff_mem.mp hg, by simpa using hp⟩
  obtain ⟨l1, l2, hl⟩ := append_of_mem hmem
  rcases l2 with _ | ⟨⟨k2, v2⟩, l2⟩
  · rw [hl]
    simp
  -- an entry after `k'` would be a greater key with the property
  exfalso
  have hmem2 : (k2, v2) ∈ m.entries.filter fun e => p e.1 := by simp [hl]
  obtain ⟨hin, hp2⟩ := mem_filter.mp hmem2
  have hle := hmax k2 v2 (get?_eq_some_iff_mem.mpr hin) (by simpa using hp2)
  rw [hl] at hs
  have hlt := (pairwise_append.mp hs).2.1
  exact absurd ((pairwise_cons.mp hlt).1 (k2, v2) (by simp)) (not_lt.mpr hle)

theorem prev?_eq_some_iff :
    m.prev? k = some (k', v') ↔
      m.get? k' = some v' ∧ k' < k ∧ ∀ k'' v'', m.get? k'' = some v'' → k'' < k → k'' ≤ k' :=
  getLast?_filter_eq_some_iff (p := (· < k))

theorem floor?_eq_some_iff :
    m.floor? k = some (k', v') ↔
      m.get? k' = some v' ∧ k' ≤ k ∧ ∀ k'' v'', m.get? k'' = some v'' → k'' ≤ k → k'' ≤ k' :=
  getLast?_filter_eq_some_iff (p := (· ≤ k))

private theorem getLast?_filter_eq_none_iff {p : κ → Prop} [DecidablePred p] :
    (m.entries.filter fun e => p e.1).getLast? = none ↔ ∀ k' v', m.get? k' = some v' → ¬ p k' := by
  rw [getLast?_eq_none_iff, filter_eq_nil_iff]
  constructor
  · intro h k' v' hg
    simpa using h _ (get?_eq_some_iff_mem.mp hg)
  · rintro h ⟨k', v'⟩ hm
    simpa using h k' v' (get?_eq_some_iff_mem.mpr hm)

theorem prev?_eq_none_iff : m.prev? k = none ↔ ∀ k' v', m.get? k' = some v' → ¬ k' < k :=
  getLast?_filter_eq_none_iff (p := (· < k))

theorem floor?_eq_none_iff : m.floor? k = none ↔ ∀ k' v', m.get? k' = some v' → ¬ k' ≤ k :=
  getLast?_filter_eq_none_iff (p := (· ≤ k))

theorem next?_eq_some_iff :
    m.next? k = some (k', v') ↔
      m.get? k' = some v' ∧ k < k' ∧ ∀ k'' v'', m.get? k'' = some v'' → k < k'' → k' ≤ k'' := by
  have hs : (m.above k).Pairwise fun a b => a.1 < b.1 := m.sorted.filter _
  constructor
  · intro h
    obtain ⟨l, hl⟩ := head?_eq_some_iff.mp h
    have hmem : (k', v') ∈ m.above k := by simp [hl]
    obtain ⟨hg, hlt⟩ := mem_above_iff.mp hmem
    refine ⟨hg, hlt, fun k'' v'' hg'' hlt'' => ?_⟩
    have h2 : (k'', v'') ∈ (k', v') :: l := by
      rw [← hl]
      exact mem_above_iff.mpr ⟨hg'', hlt''⟩
    rw [hl] at hs
    rcases mem_cons.mp h2 with h2 | h2
    · rw [(Prod.mk.inj h2).1]
    · exact le_of_lt ((pairwise_cons.mp hs).1 _ h2)
  rintro ⟨hg, hlt, hmin⟩
  have hmem : (k', v') ∈ m.above k := mem_above_iff.mpr ⟨hg, hlt⟩
  cases hab : m.above k with
  | nil => simp [hab] at hmem
  | cons e =>
  obtain ⟨k1, v1⟩ := e
  have hmem1 : (k1, v1) ∈ m.above k := by simp [hab]
  obtain ⟨hg1, hlt1⟩ := mem_above_iff.mp hmem1
  rw [hab] at hmem hs
  rcases mem_cons.mp hmem with h | h
  · rw [next?, hab, h]
    rfl
  · exact absurd ((pairwise_cons.mp hs).1 _ h) (not_lt.mpr (hmin k1 v1 hg1 hlt1))

theorem next?_eq_none_iff : m.next? k = none ↔ ∀ k' v', m.get? k' = some v' → ¬ k < k' := by
  rw [next?, head?_eq_none_iff, above, filter_eq_nil_iff]
  constructor
  · intro h k' v' hg
    simpa using h _ (get?_eq_some_iff_mem.mp hg)
  · rintro h ⟨k', v'⟩ hm
    simpa using h k' v' (get?_eq_some_iff_mem.mpr hm)

/-! ### Sums over the values -/

/-- The values, in key order. -/
def values (m : OrdMap κ ν) : List ν := m.entries.map Prod.snd

theorem mem_values_iff : v ∈ m.values ↔ ∃ k, m.get? k = some v := by
  simp [values, get?_eq_some_iff_mem]

theorem entries_eq_of_get?_none (h : m.get? k = none) : m.entries = m.below k ++ m.above k := by
  have hne : ∀ e ∈ m.entries, e.1 ≠ k := by
    rintro ⟨k', v⟩ hmem rfl
    exact get?_eq_none_iff.mp h v hmem
  rw [below, above]
  have hs := m.sorted
  generalize m.entries = l at hne hs
  induction l with
  | nil => rfl
  | cons e l ih =>
  obtain ⟨hlt, hs⟩ := pairwise_cons.mp hs
  have ih := ih (fun x hx => hne x (mem_cons_of_mem e hx)) hs
  rcases lt_or_gt_of_ne (hne e (by simp)) with he | he
  · rw [filter_cons_of_pos (by simpa using he), filter_cons_of_neg (by simpa using he.le),
      cons_append, ← ih]
  -- past the key nothing is below it any more
  have hb : l.filter (fun e => e.1 < k) = [] := by
    rw [filter_eq_nil_iff]
    intro x hx
    simpa using (he.trans (hlt x hx)).le
  rw [filter_cons_of_neg (by simpa using he.le), filter_cons_of_pos (by simpa using he),
    hb, nil_append]
  rw [hb, nil_append] at ih
  rw [← ih]

/-- A map is determined by its lookups. -/
theorem ext_get? {m' : OrdMap κ ν} (h : ∀ k, m.get? k = m'.get? k) : m = m' := by
  have hnodup : ∀ m : OrdMap κ ν, m.entries.Nodup := by
    intro m
    refine m.sorted.imp fun {a b} hlt heq => ?_
    exact absurd (heq ▸ hlt) (lt_irrefl _)
  have hperm : m.entries.Perm m'.entries := by
    rw [perm_ext_iff_of_nodup (hnodup m) (hnodup m')]
    rintro ⟨k, v⟩
    rw [← get?_eq_some_iff_mem, ← get?_eq_some_iff_mem, h]
  have hentries : m.entries = m'.entries :=
    hperm.eq_of_pairwise (fun a b _ _ hab hba => absurd hba (not_lt.mpr hab.le)) m.sorted m'.sorted
  obtain ⟨l, hl⟩ := m
  obtain ⟨l', hl'⟩ := m'
  obtain rfl : l = l' := hentries
  rfl

theorem insert_self (h : m.get? k = some v) : m.insert k v = m := by
  refine ext_get? fun k' => ?_
  rw [get?_insert]
  split_ifs with hk
  · rw [hk, h]
  · rfl

theorem erase_of_none (h : m.get? k = none) : m.erase k = m := by
  refine ext_get? fun k' => ?_
  rw [get?_erase]
  split_ifs with hk
  · rw [hk, h]
  · rfl

variable {M : Type*} [AddCommMonoid M] (f : ν → M)

/-- The sum of `f` over the values. -/
def total (m : OrdMap κ ν) : M := (m.values.map f).sum

theorem total_insert_of_none (v : ν) (h : m.get? k = none) :
    (m.insert k v).total f = f v + m.total f := by
  rw [total, total, values, values, entries_eq_of_get?_none h, insert]
  simp only [map_append, sum_append]
  exact add_left_comm ..

/-- Removing an entry takes its value out of a sum. -/
theorem total_erase (h : m.get? k = some v) : f v + (m.erase k).total f = m.total f := by
  have hnone : (m.erase k).get? k = none := by
    rw [get?_erase, if_pos rfl]
  have hself : (m.erase k).insert k v = m := by
    rw [insert_erase_self, insert_self h]
  rw [← total_insert_of_none f v hnone, hself]

theorem total_congr {f g : ν → M} (h : ∀ k v, m.get? k = some v → f v = g v) :
    m.total f = m.total g := by
  refine congrArg sum (map_congr_left fun v hv => ?_)
  obtain ⟨k, hk⟩ := mem_values_iff.mp hv
  exact h k v hk

theorem total_add (f g : ν → M) (m : OrdMap κ ν) :
    (m.total fun v => f v + g v) = m.total f + m.total g := sum_map_add

theorem total_zero (m : OrdMap κ ν) : (m.total fun _ => (0 : M)) = 0 := by
  rw [total, map_const', sum_replicate, nsmul_zero]

theorem total_eq_zero {f : ν → M} (h : ∀ k v, m.get? k = some v → f v = 0) :
    m.total f = 0 := (total_congr h).trans (total_zero m)

theorem total_mul (f : ν → ℕ) (b : ℕ) (m : OrdMap κ ν) :
    (m.total fun v => f v * b) = m.total f * b := sum_map_mul_right ..

theorem total_le {f g : ν → ℕ} (h : ∀ k v, m.get? k = some v → f v ≤ g v) :
    m.total f ≤ m.total g := by
  refine sum_le_sum fun v hv => ?_
  obtain ⟨k, hk⟩ := mem_values_iff.mp hv
  exact h k v hk

/-- A sum of numbers that is zero has no other summand. -/
theorem eq_zero_of_total {f : ν → ℕ} (h : m.total f = 0) (hv : m.get? k = some v) : f v = 0 := by
  have := total_erase f hv
  omega

/-! ### Changing every value -/

/-- Every value is replaced by its image. -/
def mapVal {ν' : Type*} (g : ν → ν') (m : OrdMap κ ν) : OrdMap κ ν' where
  entries := m.entries.map fun e => (e.1, g e.2)
  sorted := pairwise_map.mpr m.sorted

@[simp] theorem get?_mapVal {ν' : Type*} (g : ν → ν') (m : OrdMap κ ν) (k : κ) :
    (m.mapVal g).get? k = (m.get? k).map g := by
  unfold get? mapVal
  rw [find?_map, Option.map_map, Option.map_map]
  rfl

theorem total_mapVal {ν' : Type*} (g : ν → ν') (f : ν' → M) (m : OrdMap κ ν) :
    (m.mapVal g).total f = m.total fun v => f (g v) := by
  unfold total values mapVal
  rw [map_map, map_map, map_map]
  rfl

end OrdMap
