/-
Sums over subtrees.

The hierarchy forms a sum over a node and everything below by walking down the children; a limit is
tested by walking up the parents. The two walks meet in one count: a node is above another exactly
if it is that node or one of its children is, and then only one is.

* `CgTree.within`: a node is on the walk from another to the root, with `within_split`;
* `CgTree.chargedUnder`: the charges made at a node and below, whatever the hierarchy keeps;
* `CgTree.subtreeSum_eq`: where nothing saturates, a sum over the subtree is of those charges;
* `CgTree.within_transport`: a change of the tree that keeps the parents keeps what is above.
-/
import Oxide.CgroupWorld

namespace Oxide

open OrdMap List Bool

namespace CgTree

variable {t t' : CgTree} {a x k : ℕ} {n m : CgNode} {charges : List (ℕ × ℕ)}

/-! ### The walk to the root -/

/-- Parents have smaller ids: once the fuel exceeds the id, more of it changes nothing. -/
theorem pathFrom_fuel (h : t.Formed) {fuel fuel' : ℕ} (hx : x < fuel) (hx' : x < fuel') :
    t.pathFrom fuel x = t.pathFrom fuel' x := by
  induction x using Nat.strong_induction_on generalizing fuel fuel' with
  | _ x ih =>
  obtain ⟨f, rfl⟩ := Nat.exists_eq_add_of_lt hx
  obtain ⟨f', rfl⟩ := Nat.exists_eq_add_of_lt hx'
  unfold pathFrom
  cases hn : t.nodes.get? x with
  | none => rfl
  | some n =>
  cases hp : n.parent with
  | none => simp only [hp]
  | some p =>
    have hlt := (h.parent x n p hn hp).1
    simp only [hp]
    exact congrArg _ (ih p hlt (by omega) (by omega))

theorem path_of_root (hn : t.nodes.get? x = some n) (hp : n.parent = none) :
    t.path x = [(x, n)] := by
  unfold path pathFrom
  simp only [hn, hp]

theorem path_of_parent (h : t.Formed) (hn : t.nodes.get? x = some n) {p : ℕ}
    (hp : n.parent = some p) : t.path x = (x, n) :: t.path p := by
  have hlt := (h.parent x n p hn hp).1
  rw [path, pathFrom]
  simp only [hn, hp]
  rw [pathFrom_fuel h hlt (Nat.lt_succ_self p)]
  rfl

/-- A walk visits nodes that are there. -/
theorem get?_of_mem_pathFrom {fuel : ℕ} (hm : (a, m) ∈ t.pathFrom fuel x) :
    t.nodes.get? a = some m := by
  induction fuel generalizing x with
  | zero => cases hm
  | succ fuel ih =>
  unfold pathFrom at hm
  split at hm
  · cases hm
  rename_i n hn
  rcases mem_cons.mp hm with heq | hm
  · cases heq
    exact hn
  · split at hm
    · cases hm
    · exact ih hm

/-- The node is the other one or above it. -/
def within (t : CgTree) (a x : ℕ) : Bool := (t.path x).any fun p => p.1 = a

theorem within_iff : t.within a x = true ↔ ∃ m, (a, m) ∈ t.path x := by
  rw [within, any_eq_true]
  constructor
  · rintro ⟨p, hp, hpa⟩
    exact ⟨p.2, of_decide_eq_true hpa ▸ hp⟩
  · rintro ⟨m, hm⟩
    exact ⟨(a, m), hm, decide_eq_true rfl⟩

theorem get?_of_within (h : t.within a x = true) : ∃ m, (a, m) ∈ t.path x ∧
    t.nodes.get? a = some m := by
  obtain ⟨m, hm⟩ := within_iff.mp h
  exact ⟨m, hm, get?_of_mem_pathFrom hm⟩

theorem within_of_root (hn : t.nodes.get? x = some n) (hp : n.parent = none) :
    t.within a x = decide (x = a) := by
  rw [within, path_of_root hn hp, any_cons, any_nil, Bool.or_false]

theorem within_of_parent (h : t.Formed) (hn : t.nodes.get? x = some n) {p : ℕ}
    (hp : n.parent = some p) : t.within a x = (decide (x = a) || t.within a p) := by
  unfold within
  rw [path_of_parent h hn hp, any_cons]

/-- What is above has no greater id. -/
theorem le_of_within (h : t.Formed) (hw : t.within a x = true) : a ≤ x := by
  induction x using Nat.strong_induction_on with
  | _ x ih =>
  cases hn : t.nodes.get? x with
  | none =>
    obtain ⟨m, hm⟩ := within_iff.mp hw
    unfold path pathFrom at hm
    simp [hn] at hm
  | some n =>
    cases hp : n.parent with
    | none =>
      rw [within_of_root hn hp] at hw
      exact (of_decide_eq_true hw).ge
    | some p =>
      rw [within_of_parent h hn hp, or_eq_true] at hw
      have hlt := (h.parent x n p hn hp).1
      rcases hw with heq | hw
      · exact (of_decide_eq_true heq).ge
      · exact (ih p hlt hw).trans hlt.le

theorem within_root (h : t.Formed) (hn : t.nodes.get? x = some n) : t.within ROOT x = true := by
  induction x using Nat.strong_induction_on generalizing n with
  | _ x ih =>
  cases hp : n.parent with
  | none =>
    rw [within_of_root hn hp]
    exact decide_eq_true (h.orphan x n hn hp)
  | some p =>
    obtain ⟨hlt, m, hm, -⟩ := h.parent x n p hn hp
    rw [within_of_parent h hn hp, ih p hlt hm, Bool.or_true]

/-- A node is listed once, by its parent. -/
theorem child_count (h : t.Formed) (ha : t.nodes.get? a = some n) (hx : t.nodes.get? x = some m) :
    (n.children.total fun c => (decide (x = c)).toNat) = (decide (m.parent = some a)).toNat := by
  by_cases hp : m.parent = some a
  · rw [decide_eq_true hp]
    obtain ⟨-, n', hn', hc⟩ := h.parent x m a hx hp
    cases ha.symm.trans hn'
    rw [← total_erase _ hc, decide_eq_true rfl]
    refine congrArg (true.toNat + ·) (total_eq_zero fun nm c hcc => ?_)
    obtain ⟨hnm, hcc⟩ := of_get?_erase hcc
    obtain ⟨m', hm', -, hname⟩ := h.child a n nm c ha hcc
    rw [decide_eq_false ?_]
    · rfl
    · rintro rfl
      cases hx.symm.trans hm'
      exact hnm hname.symm
  rw [decide_eq_false hp]
  refine total_eq_zero fun nm c hcc => ?_
  obtain ⟨m', hm', hp', -⟩ := h.child a n nm c ha hcc
  rw [decide_eq_false ?_]
  · rfl
  · rintro rfl
    cases hx.symm.trans hm'
    exact hp hp'

/-- **A node is above another exactly if it is that node or one of its children is**, and then only
one is. -/
theorem within_split (h : t.Formed) (ha : t.nodes.get? a = some n) (hx : t.nodes.get? x = some m) :
    (t.within a x).toNat =
      (decide (x = a)).toNat + n.children.total fun c => (t.within c x).toNat := by
  induction x using Nat.strong_induction_on generalizing m with
  | _ x ih =>
  -- the children of a node are not above it
  have hbelow : x ≤ a → (n.children.total fun c => (t.within c x).toNat) = 0 := by
    intro hle
    refine total_eq_zero fun nm c hcc => ?_
    obtain ⟨m', hm', hp', -⟩ := h.child a n nm c ha hcc
    have hlt := (h.parent c m' a hm' hp').1
    cases hw : t.within c x with
    | false => rfl
    | true => exact absurd (le_of_within h hw) (by omega)
  by_cases hxa : x = a
  · subst hxa
    rw [hbelow le_rfl, decide_eq_true rfl]
    have hself : t.within x x = true := by
      cases hp : m.parent with
      | none =>
        rw [within_of_root hx hp]
        exact decide_eq_true rfl
      | some => rw [within_of_parent h hx hp, decide_eq_true rfl, Bool.true_or]
    rw [hself]
    rfl
  have hcount := child_count h ha hx
  cases hp : m.parent with
  | none =>
    rw [hp] at hcount
    simp only [within_of_root hx hp, hcount]
    rfl
  | some p =>
  obtain ⟨hlt, q, hq, -⟩ := h.parent x m p hx hp
  rw [within_of_parent h hx hp, decide_eq_false hxa, Bool.false_or, ih p hlt hq]
  -- one more child on the walk: the one the walk comes from
  have hstep : (n.children.total fun c => (t.within c x).toNat) =
      (n.children.total fun c => (decide (x = c)).toNat) +
        n.children.total fun c => (t.within c p).toNat := by
    rw [← total_add]
    refine total_congr fun nm c hcc => ?_
    rw [within_of_parent h hx hp]
    by_cases hxc : x = c
    · have hno : t.within c p = false := by
        rw [eq_false_iff]
        intro hw
        have := le_of_within h hw
        omega
      rw [hno, Bool.or_false]
      rfl
    · rw [decide_eq_false hxc]
      exact (Nat.zero_add _).symm
  rw [hstep, hcount, hp]
  simp only [Option.some.injEq]
  exact (Nat.zero_add _).symm

/-! ### Charges below a node -/

/-- The bytes charged at a node. -/
def chargedAt (charges : List (ℕ × ℕ)) (k : ℕ) : ℕ :=
  (charges.map fun c => (decide (c.1 = k)).toNat * c.2).sum

/-- The bytes charged at a node and below. -/
def chargedUnder (t : CgTree) (charges : List (ℕ × ℕ)) (a : ℕ) : ℕ :=
  (charges.map fun c => (t.within a c.1).toNat * c.2).sum

/-- All the bytes charged. -/
def outstanding (charges : List (ℕ × ℕ)) : ℕ := (charges.map Prod.snd).sum

/-- Charges are to nodes that are there. -/
def Live (t : CgTree) (charges : List (ℕ × ℕ)) : Prop :=
  ∀ c ∈ charges, ∃ n, t.nodes.get? c.1 = some n

theorem chargedUnder_cons (c : ℕ × ℕ) :
    t.chargedUnder (c :: charges) a = (t.within a c.1).toNat * c.2 + t.chargedUnder charges a :=
  sum_cons

theorem chargedAt_cons (c : ℕ × ℕ) :
    chargedAt (c :: charges) k = (decide (c.1 = k)).toNat * c.2 + chargedAt charges k :=
  sum_cons

theorem selected_pos {p : Prop} [Decidable p] (h : p) (b s : ℕ) :
    (decide p).toNat * b + s = b + s := by
  rw [decide_eq_true h, toNat_true, Nat.one_mul]

theorem selected_neg {p : Prop} [Decidable p] (h : ¬ p) (b s : ℕ) :
    (decide p).toNat * b + s = s := by
  rw [decide_eq_false h, toNat_false, Nat.zero_mul, Nat.zero_add]

theorem outstanding_cons (c : ℕ × ℕ) : outstanding (c :: charges) = c.2 + outstanding charges :=
  sum_cons

theorem Live.tail {c : ℕ × ℕ} (h : t.Live (c :: charges)) : t.Live charges :=
  fun d hd => h d (mem_cons_of_mem c hd)

section

variable {α : Type} (p : α → Bool) (f : α → ℕ) (l : List α)

theorem sum_selected_le : (l.map fun c => (p c).toNat * f c).sum ≤ (l.map f).sum := by
  refine sum_le_sum fun c _ => ?_
  cases p c
  · rw [toNat_false, Nat.zero_mul]
    exact Nat.zero_le _
  · rw [toNat_true, Nat.one_mul]

theorem sum_selected_eq_zero (h : ∀ c ∈ l, p c = false) :
    (l.map fun c => (p c).toNat * f c).sum = 0 := by
  refine sum_eq_zero fun y hy => ?_
  obtain ⟨c, hc, rfl⟩ := mem_map.mp hy
  rw [h c hc, toNat_false, Nat.zero_mul]

end

theorem chargedUnder_le (t : CgTree) (charges : List (ℕ × ℕ)) (a : ℕ) :
    t.chargedUnder charges a ≤ outstanding charges :=
  sum_selected_le ..

/-- The root has everything below it. -/
theorem chargedUnder_root (h : t.Formed) (hl : t.Live charges) :
    t.chargedUnder charges ROOT = outstanding charges := by
  refine congrArg List.sum (map_congr_left fun c hc => ?_)
  obtain ⟨n, hn⟩ := hl c hc
  rw [within_root h hn, toNat_true, Nat.one_mul]

theorem chargedUnder_of_not_there (charges : List (ℕ × ℕ)) (ha : t.nodes.get? a = none) :
    t.chargedUnder charges a = 0 := by
  refine sum_eq_zero fun y hy => ?_
  obtain ⟨c, -, rfl⟩ := mem_map.mp hy
  cases hw : t.within a c.1 with
  | false => exact Nat.zero_mul _
  | true =>
    obtain ⟨m, -, hm⟩ := get?_of_within hw
    cases ha.symm.trans hm

/-- The charges below a node are its own and those below its children. -/
theorem chargedUnder_split (h : t.Formed) (ha : t.nodes.get? a = some n) (hl : t.Live charges) :
    t.chargedUnder charges a = chargedAt charges a + n.children.total (t.chargedUnder charges) := by
  induction charges with
  | nil =>
    have hzero := total_zero (M := ℕ) n.children
    exact hzero.symm.trans (Nat.zero_add _).symm
  | cons c charges ih =>
  obtain ⟨m, hm⟩ := hl c mem_cons_self
  have htotal : n.children.total (t.chargedUnder (c :: charges)) =
      (n.children.total fun x => (t.within x c.1).toNat) * c.2 +
        n.children.total (t.chargedUnder charges) := by
    rw [← total_mul, ← total_add]
    rfl
  rw [chargedUnder_cons, chargedAt_cons, ih hl.tail, within_split h ha hm, Nat.add_mul]
  omega

theorem foldl_satAdd {α : Type} (f : α → ℕ) (cs : List α) (b : ℕ)
    (h : b + (cs.map f).sum ≤ U64_MAX) :
    cs.foldl (fun b c => satAdd b (f c)) b = b + (cs.map f).sum := by
  induction cs generalizing b with
  | nil => rfl
  | cons c cs ih =>
  rw [map_cons, sum_cons, ← add_assoc] at h ⊢
  rw [foldl_cons, satAdd_eq (le_trans (Nat.le_add_right _ _) h)]
  exact ih (b + f c) h

/-- **A sum over a subtree is of the charges below the node**, where each node has the sum of its
own and nothing saturates. -/
theorem subtreeSum_eq (h : t.Formed) (hl : t.Live charges) {f : CgNode → ℕ}
    (hf : ∀ k n, t.nodes.get? k = some n → f n = chargedAt charges k)
    (hfit : outstanding charges ≤ U64_MAX) {fuel : ℕ} (hfuel : t.nextId ≤ a + fuel) :
    t.subtreeSum f satAdd fuel a = t.chargedUnder charges a := by
  induction fuel generalizing a with
  | zero =>
    refine (chargedUnder_of_not_there charges ?_).symm
    cases ha : t.nodes.get? a with
    | none => rfl
    | some n => exact absurd (h.bound a n ha) (by omega)
  | succ fuel ih =>
  unfold subtreeSum
  cases ha : t.nodes.get? a with
  | none => exact (chargedUnder_of_not_there charges ha).symm
  | some n =>
  have hsplit := chargedUnder_split h ha hl
  have hchildren : (n.children.values.map fun c => t.subtreeSum f satAdd fuel c).sum =
      n.children.total (t.chargedUnder charges) := by
    refine total_congr fun nm c hc => ?_
    obtain ⟨m, hm, hp, -⟩ := h.child a n nm c ha hc
    have hlt := (h.parent c m a hm hp).1
    exact ih (by omega)
  dsimp only
  rw [foldl_satAdd, hchildren, hf a n ha, hsplit]
  rw [hchildren, hf a n ha, ← hsplit]
  exact (chargedUnder_le t charges a).trans hfit

/-! ### Changes of the tree -/

/-- What is above a node stays above it if the nodes there stay and keep their parents. -/
theorem within_transport (h : t.Formed) (h' : t'.Formed) {P : ℕ → Prop}
    (hup : ∀ k n p, P k → t.nodes.get? k = some n → n.parent = some p → P p)
    (hkeep : ∀ k n, P k → t.nodes.get? k = some n →
      ∃ n', t'.nodes.get? k = some n' ∧ n'.parent = n.parent)
    (hx : P x) (hn : t.nodes.get? x = some n) : t'.within a x = t.within a x := by
  induction x using Nat.strong_induction_on generalizing n with
  | _ x ih =>
  obtain ⟨n', hn', hpp⟩ := hkeep x n hx hn
  cases hp : n.parent with
  | none =>
    rw [within_of_root hn hp, within_of_root hn' (hpp.trans hp)]
  | some p =>
    obtain ⟨hlt, m, hm, -⟩ := h.parent x n p hn hp
    rw [within_of_parent h hn hp, within_of_parent h' hn' (hpp.trans hp),
      ih p hlt (hup x n p hx hn hp) hm]

/-- The charges below every node are what they were. -/
theorem chargedUnder_congr (hw : ∀ c ∈ charges, t'.within a c.1 = t.within a c.1) :
    t'.chargedUnder charges a = t.chargedUnder charges a := by
  refine congrArg List.sum (map_congr_left fun c hc => ?_)
  rw [hw c hc]

end CgTree

end Oxide
