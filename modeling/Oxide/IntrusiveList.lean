/-
Intrusive linked lists: the links live in the elements themselves, so a list is
a property of two link functions `nxt` and `prv` and of a head word.

* **`Linked`**: the elements of a doubly linked list after a given predecessor;
* **`ListFamily`**: a family of such lists over one memory, one per key, that
  share no element, with the two updates an allocator makes:
  `ListFamily.push` (a new head) and `ListFamily.remove` (unlink any element);
* **`SList`**: a singly linked list, read from its head.

Each update is stated against arbitrary new link functions: what must hold at the
words that are written, and that every other word is kept.
-/
import Mathlib.Algebra.Ring.Nat
import Mathlib.Data.List.Nodup

namespace IntrusiveList

open Function List

variable {α κ : Type*}
variable {null : α} {nxt prv : α → α}

/-! ### Doubly linked lists -/

/-- The elements `l` follow `a`, are linked both ways and end at `null`. -/
def Linked (null : α) (nxt prv : α → α) : α → List α → Prop
  | a, [] => a ≠ null → nxt a = null
  | a, p :: l => (a ≠ null → nxt a = p) ∧ prv p = a ∧ Linked null nxt prv p l

section Linked

variable {null : α} {nxt prv nxt' prv' : α → α} {a p : α} {l : List α}

section

variable (h : Linked null nxt prv a l)

include h

/-- A linked list depends only on the links of its own elements. -/
theorem Linked.congr (hn : ∀ q ∈ a :: l, q ≠ null → nxt' q = nxt q) (hp : ∀ q ∈ l, prv' q = prv q) :
    Linked null nxt' prv' a l := by
  induction l generalizing a with
  | nil => exact fun ha => (hn a (by simp) ha).trans (h ha)
  | cons x l ih =>
  obtain ⟨hax, hxa, hl⟩ := h
  refine ⟨fun ha => (hn a (by simp) ha).trans (hax ha), (hp x (by simp)).trans hxa, ih hl ?_ ?_⟩
  · exact fun q hq => hn q (mem_cons_of_mem a hq)
  · exact fun q hq => hp q (mem_cons_of_mem x hq)

theorem Linked.prv_mem (hp : p ∈ l) : prv p ∈ a :: l := by
  induction l generalizing a with
  | nil => cases hp
  | cons x l ih =>
  obtain ⟨_, hxa, hl⟩ := h
  rcases mem_cons.mp hp with rfl | hp
  · simp [hxa]
  · exact mem_cons_of_mem a (ih hl hp)

theorem Linked.nxt_mem (hnull : null ∉ l) (hp : p ∈ l) :
    nxt p = null ∨ nxt p ∈ l ∧ prv (nxt p) = p := by
  induction l generalizing a with
  | nil => cases hp
  | cons x l ih =>
  obtain ⟨_, _, hl⟩ := h
  rcases mem_cons.mp hp with rfl | hp
  · cases l with
    | nil => exact .inl (hl (fun h => hnull (by simp [h])))
    | cons y =>
      have hy : nxt p = y := hl.1 (fun h => hnull (by simp [h]))
      exact .inr ⟨by simp [hy], by rw [hy]; exact hl.2.1⟩
  · exact (ih hl (fun h => hnull (by simp [h])) hp).imp_right
      (fun h => ⟨mem_cons_of_mem x h.1, h.2⟩)

/-- The predecessor of an element is the list's own predecessor only for the first. -/
theorem Linked.head_of_prv (hnd : (a :: l).Nodup) (hp : p ∈ l)
    (hpa : prv p = a) : l.head? = some p := by
  cases l with
  | nil => cases hp
  | cons =>
  rcases mem_cons.mp hp with rfl | hp
  · rfl
  · have := Linked.prv_mem h.2.2 hp
    rw [hpa] at this
    exact absurd this (nodup_cons.mp hnd).1

/-- Unlinking one element: its two neighbours are joined. -/
theorem Linked.erase [DecidableEq α] (hp : p ∈ l) (hnd : (a :: l).Nodup) (hnull : null ∉ l)
    (hn : prv p ≠ null → nxt' (prv p) = nxt p) (hv : nxt p ≠ null → prv' (nxt p) = prv p)
    (hfn : ∀ q, q ≠ prv p → nxt' q = nxt q) (hfp : ∀ q, q ≠ nxt p → prv' q = prv q) :
    Linked null nxt' prv' a (l.erase p) := by
  induction l generalizing a with
  | nil => cases hp
  | cons x l ih =>
  obtain ⟨hax, hxa, hl⟩ := h
  have hx : x ≠ null := fun h => hnull (by simp [h])
  have hnull' : null ∉ l := fun h => hnull (by simp [h])
  have hnd' : (x :: l).Nodup := (nodup_cons.mp hnd).2
  by_cases hxp : x = p
  · -- the first element goes: `a` now leads to the second
    subst hxp
    rw [erase_cons_head]
    rw [hxa] at hn hv hfn
    cases l with
    | nil => exact fun ha => (hn ha).trans (hl hx)
    | cons y =>
    have hxy : nxt x = y := hl.1 hx
    have hy : y ≠ null := fun h => hnull' (by simp [h])
    rw [hxy] at hn hv hfp
    refine ⟨hn, hv hy, hl.2.2.congr ?_ ?_⟩
    · intro q hq _
      refine hfn q (fun he => ?_)
      exact (nodup_cons.mp hnd).1 (mem_cons_of_mem x (he ▸ hq))
    · intro q hq
      refine hfp q (fun he => ?_)
      exact (nodup_cons.mp (nodup_cons.mp hnd').2).1 (he ▸ hq)
  -- a later element goes: the links between `a` and the first are kept
  have hpl : p ∈ l := (mem_cons.mp hp).resolve_left (Ne.symm hxp)
  rw [erase_cons_tail (by simpa using hxp)]
  refine ⟨fun ha => ?_, ?_, ih hl hpl hnd' hnull'⟩
  · rw [hfn a (fun he => ?_)]
    · exact hax ha
    · exact (nodup_cons.mp hnd).1 (he ▸ hl.prv_mem hpl)
  rw [hfp x (fun he => ?_)]
  · exact hxa
  · rcases hl.nxt_mem hnull' hpl with h0 | ⟨hmem, -⟩
    · exact hx (he.trans h0)
    · exact (nodup_cons.mp hnd').1 (he ▸ hmem)

end

end Linked

/-! ### Families of lists -/

/-- One doubly linked list per key, over shared links: `head k` is the first element of
`L k`, and no element is on two lists. -/
structure ListFamily (null : α) (nxt prv : α → α) (head : κ → α) (L : κ → List α) : Prop where
  linked : ∀ k, Linked null nxt prv null (L k)
  head_eq : ∀ k, head k = (L k).head?.getD null
  nodup : ∀ k, (L k).Nodup
  null_notMem : ∀ k, null ∉ L k
  disjoint : ∀ k k' p, p ∈ L k → p ∈ L k' → k = k'

namespace ListFamily

variable {null : α} {nxt prv nxt' prv' : α → α} {head head' : κ → α} {L : κ → List α}
  {k : κ} {p : α}

/-- Empty lists. -/
theorem empty (nxt prv : α → α) (h : ∀ k, head k = null) :
    ListFamily null nxt prv head (fun _ => []) :=
  ⟨fun _ hne => absurd rfl hne, h, fun _ => nodup_nil, fun _ => not_mem_nil,
    fun _ _ _ hp => absurd hp not_mem_nil⟩

variable (h : ListFamily null nxt prv head L)

include h

theorem nodup_cons (k : κ) : (null :: L k).Nodup :=
  List.nodup_cons.mpr ⟨h.null_notMem k, h.nodup k⟩

theorem ne_null (hp : p ∈ L k) : p ≠ null :=
  fun he => h.null_notMem k (he ▸ hp)

theorem head_eq_null : head k = null ↔ L k = [] := by
  rw [h.head_eq k]
  cases hl : L k with
  | nil => simp
  | cons x => simpa using h.ne_null (hl ▸ mem_cons_self : x ∈ L k)

theorem head_mem (hk : head k ≠ null) : head k ∈ L k := by
  have hne : L k ≠ [] := fun he => hk (h.head_eq_null.mpr he)
  rw [h.head_eq k]
  cases hl : L k with
  | nil => exact absurd hl hne
  | cons => simp

theorem prv_head (hk : head k ≠ null) : prv (head k) = null := by
  have hlk := h.linked k
  have hk' := h.head_eq k
  cases hl : L k with
  | nil => exact absurd (h.head_eq_null.mpr hl) hk
  | cons =>
  rw [hl] at hlk hk'
  rw [hk']
  exact hlk.2.1

theorem head_of_prv (hp : p ∈ L k) (hpn : prv p = null) : head k = p := by
  rw [h.head_eq k, (h.linked k).head_of_prv (h.nodup_cons k) hp hpn]
  rfl

theorem prv_mem (hp : p ∈ L k) (hpn : prv p ≠ null) : prv p ∈ L k :=
  (mem_cons.mp ((h.linked k).prv_mem hp)).resolve_left hpn

theorem nxt_mem (hp : p ∈ L k) (hpn : nxt p ≠ null) : nxt p ∈ L k ∧ prv (nxt p) = p :=
  ((h.linked k).nxt_mem (h.null_notMem k) hp).resolve_left hpn

theorem nxt_ne_self (hp : p ∈ L k) (hpn : prv p = null) : nxt p ≠ p := by
  intro he
  have hp0 := h.ne_null hp
  have := (h.nxt_mem hp (by rwa [he])).2
  rw [he, hpn] at this
  exact hp0 this.symm

variable [DecidableEq κ]

/-- **Pushing** a new element in front of the list `k`. -/
theorem push (hp : p ≠ null) (hnew : ∀ k', p ∉ L k')
    (hnp : nxt' p = head k) (hpp : prv' p = null) (hph : head k ≠ null → prv' (head k) = p)
    (hfn : ∀ q, q ≠ p → nxt' q = nxt q) (hfp : ∀ q, q ≠ p → q ≠ head k → prv' q = prv q) :
    ListFamily null nxt' prv' (update head k p)
      (update L k (p :: L k)) := by
  -- a list that does not contain the written elements is untouched
  have hframe : ∀ a l, Linked null nxt prv a l → p ∉ a :: l → head k ∉ l →
      Linked null nxt' prv' a l := by
    intro a l hl hpl hhl
    refine hl.congr (fun q hq _ => hfn q (fun he => hpl (he ▸ hq))) (fun q hq => ?_)
    exact hfp q (fun he => hpl (mem_cons_of_mem a (he ▸ hq))) (fun he => hhl (he ▸ hq))
  refine ⟨fun k' => ?_, fun k' => ?_, fun k' => ?_, fun k' => ?_, fun k1 k2 q => ?_⟩
  · by_cases hk : k' = k
    · subst hk
      rw [update_self]
      refine ⟨fun h0 => absurd rfl h0, hpp, ?_⟩
      have hlk := h.linked k'
      have hnd := h.nodup k'
      have hk := h.head_eq k'
      cases hl : L k' with
      | nil =>
        rw [hl] at hk
        exact fun _ => hnp.trans hk
      | cons x l =>
      have hpl : p ∉ x :: l := hl ▸ hnew k'
      have hx : x ≠ null := h.ne_null (hl ▸ mem_cons_self)
      rw [hl] at hlk hnd hk
      rw [hk] at hnp hph
      exact ⟨fun _ => hnp, hph hx, hframe x l hlk.2.2 hpl (hk ▸ (List.nodup_cons.mp hnd).1)⟩
    rw [update_of_ne hk]
    refine hframe null (L k') (h.linked k') (fun hq => (mem_cons.mp hq).elim hp (hnew k')) ?_
    intro hq
    have h0 := h.ne_null hq
    exact hk (h.disjoint k' k _ hq (h.head_mem h0))
  · by_cases hk : k' = k
    · subst hk
      simp
    · rw [update_of_ne hk, update_of_ne hk]
      exact h.head_eq k'
  · by_cases hk : k' = k
    · subst hk
      rw [update_self]
      exact List.nodup_cons.mpr ⟨hnew k', h.nodup k'⟩
    · rw [update_of_ne hk]
      exact h.nodup k'
  · by_cases hk : k' = k
    · subst hk
      rw [update_self]
      exact fun hq => (mem_cons.mp hq).elim (fun he => hp he.symm) (h.null_notMem k')
    · rw [update_of_ne hk]
      exact h.null_notMem k'
  intro h1 h2
  by_cases hq : q = p
  · subst hq
    have hkey : ∀ k', q ∈ update L k (q :: L k) k' → k' = k := by
      intro k' hk'
      by_contra hne
      rw [update_of_ne hne] at hk'
      exact hnew k' hk'
    rw [hkey k1 h1, hkey k2 h2]
  have hkey : ∀ k', q ∈ update L k (p :: L k) k' → q ∈ L k' := by
    intro k' hk'
    by_cases hne : k' = k
    · subst hne
      rw [update_self] at hk'
      exact (mem_cons.mp hk').resolve_left hq
    · rwa [update_of_ne hne] at hk'
  exact h.disjoint k1 k2 q (hkey k1 h1) (hkey k2 h2)

/-- **Removing** any element of the list `k`: the head moves only when the first goes. -/
theorem remove [DecidableEq α] (hp : p ∈ L k)
    (hn : prv p ≠ null → nxt' (prv p) = nxt p) (hv : nxt p ≠ null → prv' (nxt p) = prv p)
    (hfn : ∀ q, q ≠ prv p → nxt' q = nxt q) (hfp : ∀ q, q ≠ nxt p → prv' q = prv q)
    (hhead : head' = if prv p = null then update head k (nxt p) else head) :
    ListFamily null nxt' prv' head' (update L k ((L k).erase p)) := by
  have hsub : ∀ k' q, q ∈ update L k ((L k).erase p) k' → q ∈ L k' := by
    intro k' q hq
    by_cases hk : k' = k
    · subst hk
      rw [update_self] at hq
      exact mem_of_mem_erase hq
    · rwa [update_of_ne hk] at hq
  -- the neighbours of `p` are on its own list, or the terminator
  have hother : ∀ k', k' ≠ k → ∀ q ∈ L k', q ≠ prv p ∧ q ≠ nxt p := by
    intro k' hk q hq
    refine ⟨fun he => ?_, fun he => ?_⟩
    · exact hk (h.disjoint k' k q hq (he ▸ h.prv_mem hp (he ▸ h.ne_null hq)))
    · exact hk (h.disjoint k' k q hq (he ▸ (h.nxt_mem hp (he ▸ h.ne_null hq)).1))
  have hlinked : ∀ k', Linked null nxt' prv' null (update L k ((L k).erase p) k') := by
    intro k'
    by_cases hk : k' = k
    · subst hk
      rw [update_self]
      exact (h.linked k').erase hp (h.nodup_cons k') (h.null_notMem k') hn hv hfn hfp
    · rw [update_of_ne hk]
      refine (h.linked k').congr (fun q hq h0 => ?_) (fun q hq => hfp q (hother k' hk q hq).2)
      exact hfn q (hother k' hk q ((mem_cons.mp hq).resolve_left h0)).1
  refine ⟨hlinked, fun k' => ?_, fun k' => ?_, fun k' hq => h.null_notMem k' (hsub k' _ hq),
    fun k1 k2 q h1 h2 => h.disjoint k1 k2 q (hsub k1 q h1) (hsub k2 q h2)⟩
  · rw [hhead]
    by_cases hk : k' = k
    · subst hk
      rw [update_self]
      have hlk := h.linked k'
      have hke := h.head_eq k'
      cases hl : L k' with
      | nil => exact absurd (hl ▸ hp) (by simp)
      | cons x l =>
      rw [hl] at hlk hke
      have hx : x ≠ null := h.ne_null (hl ▸ mem_cons_self)
      by_cases hxp : x = p
      · subst hxp
        rw [if_pos hlk.2.1, update_self, erase_cons_head]
        cases l with
        | nil => exact hlk.2.2 hx
        | cons => exact hlk.2.2.1 hx
      have hne : prv p ≠ null := by
        intro h0
        have := h.head_of_prv hp h0
        rw [hke] at this
        exact hxp this
      rwa [if_neg hne, erase_cons_tail (by simpa using hxp)]
    have hsame : (if prv p = null then update head k (nxt p) else head) k' = head k' := by
      split
      · exact update_of_ne hk _ _
      · rfl
    rw [hsame, update_of_ne hk]
    exact h.head_eq k'
  by_cases hk : k' = k
  · subst hk
    rw [update_self]
    exact (h.nodup k').erase p
  · rw [update_of_ne hk]
    exact h.nodup k'

end ListFamily

/-! ### Singly linked lists -/

/-- Following `nxt` from `h` visits `l` and then meets `null`. -/
def SList (null : α) (nxt : α → α) : α → List α → Prop
  | h, [] => h = null
  | h, p :: l => h = p ∧ p ≠ null ∧ SList null nxt (nxt p) l

theorem SList.congr {h : α} {nxt' : α → α} {l : List α} (hl : SList null nxt h l)
    (hn : ∀ q ∈ l, nxt' q = nxt q) : SList null nxt' h l := by
  induction l generalizing h with
  | nil => exact hl
  | cons p l ih =>
  obtain ⟨rfl, hp, hl⟩ := hl
  refine ⟨rfl, hp, ?_⟩
  rw [hn h (by simp)]
  exact ih hl (fun q hq => hn q (mem_cons_of_mem h hq))

/-- The first `n` elements met from `h` on. -/
def follow (nxt : α → α) : ℕ → α → List α
  | 0, _ => []
  | n + 1, h => h :: follow nxt n (nxt h)

/-- Following the links for the length of the list reads it back. -/
theorem SList.follow_eq {h : α} {l : List α} (hl : SList null nxt h l) :
    follow nxt l.length h = l := by
  induction l generalizing h with
  | nil => rfl
  | cons p l ih =>
    obtain ⟨rfl, -, hl⟩ := hl
    rw [length_cons, follow, ih hl]

theorem Linked.sList {a : α} {l : List α} (h : Linked null nxt prv a l) (ha : a ≠ null)
    (hn : null ∉ l) : SList null nxt (nxt a) l := by
  induction l generalizing a with
  | nil => exact h ha
  | cons p l ih =>
    have hp : p ≠ null := fun he => hn (by simp [he])
    exact ⟨h.1 ha, hp, ih h.2.2 hp (fun hm => hn (mem_cons_of_mem p hm))⟩

theorem ListFamily.sList {head : κ → α} {L : κ → List α} (h : ListFamily null nxt prv head L)
    (k : κ) : SList null nxt (head k) (L k) := by
  have hhead := h.head_eq k
  have hnull := h.null_notMem k
  have hlink := h.linked k
  cases hL : L k with
  | nil =>
    rwa [hL] at hhead
  | cons p =>
  rw [hL] at hhead hnull hlink
  have hp : p ≠ null := fun he => hnull (by simp [he])
  exact ⟨hhead, hp, hlink.2.2.sList hp (fun hm => hnull (mem_cons_of_mem p hm))⟩

end IntrusiveList
