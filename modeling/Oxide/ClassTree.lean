/-
The intrusive balanced tree of a scheduling class.

`ClassTree α` is the tree of `intrusive_tree.rs` with its nodes read as values: each node has its
two subtrees, its entry and its cached height. Entries come out in order by `toList`, and every
result here is about that list.

* `remove_eq_some`, `remove_eq_none`: erasing a node takes one entry out of the list, wherever
  rebalancing moves the others;
* `sum_eq`, `sumInt_eq`: the saturating sums over the tree;
* `findBest_isBest`: the search by a comparison returns an entry that none beats.

The parent links of the source locate a node from its address; here `remove` looks for it.
-/
import Mathlib.Algebra.BigOperators.Group.List.Basic
import Mathlib.Algebra.Ring.Int.Defs
import Mathlib.Algebra.Ring.Nat

/-- A node-embedded AVL tree. -/
inductive ClassTree (α : Type*)
  | nil
  | node (left : ClassTree α) (entry : α) (right : ClassTree α) (height : ℕ)

namespace ClassTree

open List

variable {α : Type*}
variable {better : α → α → Bool}
variable (l : ClassTree α)

def toList : ClassTree α → List α
  | nil => []
  | node l a r _ => l.toList ++ a :: r.toList

/-- The cached height. -/
def height : ClassTree α → ℕ
  | nil => 0
  | node _ _ _ h => h

/-- A node with its height brought up to date. -/
def update (a : α) (r : ClassTree α) : ClassTree α :=
  node l a r (max l.height r.height + 1)

def skew : ClassTree α → Int
  | nil => 0
  | node l _ r _ => l.height - r.height

def rotateRight : ClassTree α → ClassTree α
  | node (node ll la lr _) a r _ => update ll la (update lr a r)
  | t => t

def rotateLeft : ClassTree α → ClassTree α
  | node l a (node rl ra rr _) _ => update (update l a rl) ra rr
  | t => t

/-- The node over two subtrees, rotated where their heights differ by more than one. -/
def rebalance (a : α) (r : ClassTree α) : ClassTree α :=
  if 1 < (update l a r).skew then
    rotateRight (update (if l.skew < 0 then rotateLeft l else l) a r)
  else if (update l a r).skew < -1 then
    rotateLeft (update l a (if 0 < r.skew then rotateRight r else r))
  else update l a r

/-- The first entry in order. -/
def first : ClassTree α → Option α
  | nil => none
  | node nil a _ _ => some a
  | node (node ll la lr lh) _ _ _ => (node ll la lr lh).first

/-- Take the first entry out, rebalancing on the way back. -/
def removeFirst (a : α) (r : ClassTree α) : ClassTree α → α × ClassTree α
  | nil => (a, r)
  | node ll la lr _ =>
    let out := removeFirst la lr ll
    (out.1, rebalance out.2 a r)

/-- What takes the place of a removed node: its only child, or its successor over both. -/
def splice (l r : ClassTree α) : ClassTree α :=
  match l, r with
  | l, nil => l
  | nil, r => r
  | l, node rl ra rr _ =>
    let out := removeFirst ra rr rl
    rebalance l out.1 out.2

/-- Erase the node whose entry is meant by `is`. -/
def remove (is : α → Bool) : ClassTree α → Option (α × ClassTree α)
  | nil => none
  | node l a r _ =>
    if is a then some (a, splice l r)
    else match l.remove is with
      | some (x, l') => some (x, rebalance l' a r)
      | none => match r.remove is with
        | some (x, r') => some (x, rebalance l a r')
        | none => none

/-- The sum of the values, `bound` being the greatest number there is. -/
def sum (bound : ℕ) (value : α → ℕ) : ClassTree α → ℕ
  | nil => 0
  | node l a r _ => min (min (value a + l.sum bound value) bound + r.sum bound value) bound

/-- An integer held between the least and the greatest signed number. -/
def clampInt (bound x : Int) : Int := max (-bound) (min x (bound - 1))

/-- The sum of signed values, saturating at both ends. -/
def sumInt (bound : Int) (value : α → Int) : ClassTree α → Int
  | nil => 0
  | node l a r _ =>
    clampInt bound (clampInt bound (l.sumInt bound value + value a) + r.sumInt bound value)

/-- The candidate where it beats what was found so far. -/
def improve (better : α → α → Bool) : Option α → α → Option α
  | none, candidate => some candidate
  | some best, candidate => if better candidate best then some candidate else some best

/-- The entry that no other beats. -/
def findBest (better : α → α → Bool) : ClassTree α → Option α
  | nil => none
  | node l a r _ =>
    let best := improve better (l.findBest better) a
    match r.findBest better with
    | none => best
    | some candidate => improve better best candidate

/-! ### The entries in order -/

@[simp]
theorem toList_nil : (nil : ClassTree α).toList = [] := rfl

@[simp]
theorem toList_node (a : α) (r : ClassTree α) (h : ℕ) :
    (node l a r h).toList = l.toList ++ a :: r.toList := rfl

@[simp]
theorem toList_update (a : α) (r : ClassTree α) :
    (update l a r).toList = l.toList ++ a :: r.toList := rfl

@[simp]
theorem toList_rotateRight (t : ClassTree α) : t.rotateRight.toList = t.toList := by
  rcases t with _ | ⟨_ | ⟨ll, la, lr, lh⟩, a, r, h⟩ <;> simp [rotateRight]

@[simp]
theorem toList_rotateLeft (t : ClassTree α) : t.rotateLeft.toList = t.toList := by
  rcases t with _ | ⟨l, a, _ | ⟨rl, ra, rr, rh⟩, h⟩ <;> simp [rotateLeft]

@[simp]
theorem toList_rebalance (a : α) (r : ClassTree α) :
    (rebalance l a r).toList = l.toList ++ a :: r.toList := by
  unfold rebalance
  split
  · rw [toList_rotateRight, toList_update]
    split <;> simp
  split
  · rw [toList_rotateLeft, toList_update]
    split <;> simp
  · exact toList_update l a r

theorem first_eq_head? (t : ClassTree α) : t.first = t.toList.head? := by
  induction t with
  | nil => rfl
  | node l a r h ihl =>
  cases l with
  | nil => rfl
  | node ll la lr lh =>
    rw [first, ihl, toList_node (node ll la lr lh), head?_append]
    cases hl : (node ll la lr lh).toList with
    | nil => simp at hl
    | cons => rfl

theorem toList_removeFirst (a : α) (r : ClassTree α) :
    (removeFirst a r l).1 :: (removeFirst a r l).2.toList = l.toList ++ a :: r.toList := by
  induction l generalizing a r with
  | nil => rfl
  | node ll la lr h ihl =>
    have ih := ihl la lr
    rw [removeFirst, toList_rebalance, ← cons_append, ih, toList_node]

theorem toList_splice (l r : ClassTree α) : (splice l r).toList = l.toList ++ r.toList := by
  unfold splice
  split
  · simp
  · simp
  · rw [toList_rebalance, toList_removeFirst, toList_node]

variable {t : ClassTree α} {is : α → Bool}

/-- **A removed entry was in the list, and the others stay in order.** -/
theorem remove_eq_some {t' : ClassTree α} {x : α} (h : t.remove is = some (x, t')) :
    is x = true ∧ ∃ before after, t.toList = before ++ x :: after ∧
      t'.toList = before ++ after := by
  induction t generalizing t' with
  | nil => cases h
  | node l a r ht ihl ihr =>
  rw [remove] at h
  by_cases ha : is a
  · rw [if_pos ha] at h
    cases h
    exact ⟨ha, l.toList, r.toList, rfl, toList_splice l r⟩
  rw [if_neg ha] at h
  cases hl : l.remove is with
  | some out =>
    obtain ⟨y, l'⟩ := out
    rw [hl] at h
    cases h
    obtain ⟨hx, before, after, h1, h2⟩ := ihl hl
    refine ⟨hx, before, after ++ a :: r.toList, ?_, ?_⟩
    · simp [h1]
    · simp [h2]
  | none =>
    rw [hl] at h
    cases hr : r.remove is with
    | none => rw [hr] at h; cases h
    | some out =>
    obtain ⟨y, r'⟩ := out
    rw [hr] at h
    cases h
    obtain ⟨hx, before, after, h1, h2⟩ := ihr hr
    refine ⟨hx, l.toList ++ a :: before, after, ?_, ?_⟩
    · simp [h1]
    · simp [h2]

theorem remove_eq_none (h : t.remove is = none) : ∀ x ∈ t.toList, is x = false := by
  induction t with
  | nil => intro x hx; cases hx
  | node l a r ht ihl ihr =>
  rw [remove] at h
  by_cases ha : is a
  · rw [if_pos ha] at h
    cases h
  rw [if_neg ha] at h
  cases hl : l.remove is with
  | some => rw [hl] at h; cases h
  | none =>
  rw [hl] at h
  cases hr : r.remove is with
  | some => rw [hr] at h; cases h
  | none =>
  intro x hx
  rcases mem_append.mp hx with hx | hx
  · exact ihl hl x hx
  · rcases mem_cons.mp hx with rfl | hx
    · exact Bool.eq_false_iff.mpr ha
    · exact ihr hr x hx

/-! ### Sums and the best entry -/

/-- **The sum saturates only if the true sum does.** -/
theorem sum_eq (bound : ℕ) (value : α → ℕ) (t : ClassTree α) :
    t.sum bound value = min (t.toList.map value).sum bound := by
  induction t with
  | nil => simp [sum]
  | node l a r h ihl ihr =>
    rw [sum, ihl, ihr, toList_node, map_append, sum_append, map_cons, sum_cons]
    omega

theorem clampInt_eq {bound x : Int} (h1 : -bound ≤ x) (h2 : x < bound) : clampInt bound x = x := by
  unfold clampInt
  omega

/-- The magnitude of a sum is at most the sum of the magnitudes. -/
theorem natAbs_sum_le (value : α → Int) (l : List α) :
    ((l.map value).sum.natAbs : Int) ≤ (l.map fun a => ((value a).natAbs : Int)).sum := by
  induction l with
  | nil => simp
  | cons =>
    rw [map_cons, sum_cons, map_cons, sum_cons]
    omega

/-- **The signed sum is exact where the sum of the magnitudes is in range.** -/
theorem sumInt_eq {bound : Int} {value : α → Int}
    (h : (t.toList.map fun a => ((value a).natAbs : Int)).sum < bound) :
    t.sumInt bound value = (t.toList.map value).sum := by
  induction t with
  | nil => rfl
  | node l a r ht ihl ihr =>
  rw [toList_node, map_append, sum_append, map_cons, sum_cons] at h
  have hl := natAbs_sum_le value l.toList
  have hr := natAbs_sum_le value r.toList
  have hpart : clampInt bound ((l.toList.map value).sum + value a) =
      (l.toList.map value).sum + value a := clampInt_eq (by omega) (by omega)
  rw [sumInt, ihl (by omega), ihr (by omega), hpart, clampInt_eq (by omega) (by omega),
    toList_node, map_append, sum_append, map_cons, sum_cons]
  omega

/-- What a search over `xs` found: nothing if there is nothing, or an entry of least rank. -/
def IsBest (rank : α → ℕ) (xs : List α) : Option α → Prop
  | none => xs = []
  | some x => x ∈ xs ∧ ∀ y ∈ xs, rank x ≤ rank y

variable {xs : List α} {best : Option α} {rank : α → ℕ}

/-- A candidate that is the best of `ys` improves on the best of `xs`, `rank` being what the
comparison compares. -/
theorem IsBest.improve (hb : ∀ a b, better a b = true ↔ rank a < rank b) {ys : List α} {c : α}
    (hx : IsBest rank xs best) (hy : IsBest rank ys (some c)) :
    IsBest rank (xs ++ ys) (improve better best c) := by
  obtain ⟨hc, hcmin⟩ := hy
  cases best with
  | none =>
    have hxs : xs = [] := hx
    subst hxs
    exact ⟨hc, hcmin⟩
  | some b =>
  obtain ⟨hbm, hbmin⟩ := hx
  rw [ClassTree.improve]
  by_cases hlt : better c b
  · rw [if_pos hlt]
    have hlt' := (hb c b).mp hlt
    refine ⟨mem_append_right _ hc, fun y hy => ?_⟩
    rcases mem_append.mp hy with hy | hy
    · exact Nat.le_trans (Nat.le_of_lt hlt') (hbmin y hy)
    · exact hcmin y hy
  rw [if_neg hlt]
  have hle : rank b ≤ rank c := Nat.not_lt.mp fun h => hlt ((hb c b).mpr h)
  refine ⟨mem_append_left _ hbm, fun y hy => ?_⟩
  rcases mem_append.mp hy with hy | hy
  · exact hbmin y hy
  · exact Nat.le_trans hle (hcmin y hy)

/-- One entry is the best of itself. -/
theorem isBest_singleton (rank : α → ℕ) (a : α) : IsBest rank [a] (some a) :=
  ⟨mem_singleton.mpr rfl, fun y hy => Nat.le_of_eq (by rw [mem_singleton.mp hy])⟩

/-- Going on with further candidates, one after the other. -/
theorem IsBest.foldl (hb : ∀ a b, better a b = true ↔ rank a < rank b) (hx : IsBest rank xs best)
    (ys : List α) : IsBest rank (xs ++ ys) (ys.foldl (ClassTree.improve better) best) := by
  induction ys generalizing xs best with
  | nil => rwa [append_nil]
  | cons y ys ih =>
    have h := ih (hx.improve hb (isBest_singleton rank y))
    rwa [append_assoc] at h

/-- The best of entries seen through a function. -/
theorem IsBest.map {β : Type*} {rank : β → ℕ} (f : α → β)
    (h : IsBest (fun a => rank (f a)) xs best) : IsBest rank (xs.map f) (best.map f) := by
  cases best with
  | none =>
    have hxs : xs = [] := h
    rw [hxs]
    rfl
  | some =>
  refine ⟨mem_map_of_mem h.1, fun y hy => ?_⟩
  obtain ⟨a, ha, rfl⟩ := mem_map.mp hy
  exact h.2 a ha

/-- **The search returns an entry that none beats.** -/
theorem findBest_isBest (hb : ∀ a b, better a b = true ↔ rank a < rank b) (t : ClassTree α) :
    IsBest rank t.toList (t.findBest better) := by
  induction t with
  | nil => rfl
  | node l a r ht ihl ihr =>
  have hleft : IsBest rank (l.toList ++ [a]) (improve better (l.findBest better) a) :=
    ihl.improve hb (isBest_singleton rank a)
  have hlist : (node l a r ht).toList = (l.toList ++ [a]) ++ r.toList := by simp
  rw [hlist, findBest]
  cases hr : r.findBest better with
  | none =>
    rw [hr] at ihr
    have hnil : r.toList = [] := ihr
    rwa [hnil, append_nil]
  | some =>
    rw [hr] at ihr
    exact hleft.improve hb ihr

end ClassTree
