/-
The invariant of the buddy lists, and what the list primitives do to it.

Ownership is a function from pages to owners: a page belongs to a free block, is in transit
(`loose`) or is held by someone outside the lists. `AreaInv` ties the five records of a free
block to that function.

* **`AreaInv.publish`**: a loose block becomes free;
* **`AreaInv.retract`**: a free block becomes loose, from anywhere in its list;
* **`AreaInv.retype`**: a loose block of whole pageblocks changes its class.

No self-check of `pushFree`, `popFree` and `unlinkFree` fails in these, and no count goes below
zero.
-/
import Oxide.Buddy
import Oxide.IntrusiveList

namespace Oxide.Buddy

open DyadicBlock IntrusiveList Function FreeArea

variable {k : ListKey} {o p q v : ℕ}

/-- Who owns a page, seen from the buddy lists; `η` are the holders outside. -/
inductive Owner (η : Type)
  | loose
  | buddy (order pfn : ℕ)
  | held (h : η)

/-- Give the block of order `o` at `p` to `w`. -/
def assign {η : Type} (own : ℕ → Owner η) (o p : ℕ) (w : Owner η) : ℕ → Owner η :=
  fun q => if Covers o p q then w else own q

section

variable {η : Type} {own : ℕ → Owner η} {w w' : Owner η}

theorem assign_of_covers (h : Covers o p q) : assign own o p w q = w := if_pos h

theorem assign_of_not_covers (h : ¬ Covers o p q) : assign own o p w q = own q := if_neg h

@[simp]
theorem assign_self : assign own o p w p = w := if_pos (covers_self o p)

theorem assign_page (h : q ≠ p) : assign own 0 p w q = own q :=
  if_neg fun hc => h (covers_zero.mp hc)

/-- A block that neither was nor becomes `w'`. -/
theorem assign_eq_iff (hw : w ≠ w') (hown : ∀ q, Covers o p q → own q ≠ w') :
    assign own o p w q = w' ↔ own q = w' := by
  by_cases hq : Covers o p q
  · rw [assign_of_covers hq]
    exact iff_of_false hw (hown q hq)
  · rw [assign_of_not_covers hq]

/-- The free blocks once a loose block has become free. -/
theorem assign_buddy_iff {o' p' : ℕ} (hl : ∀ q, Covers o p q → own q = .loose) :
    assign own o p (.buddy o p) q = .buddy o' p' ↔
      Covers o p q ∧ o' = o ∧ p' = p ∨ own q = .buddy o' p' := by
  by_cases hq : Covers o p q
  · simp [assign_of_covers hq, hl q hq, hq, eq_comm]
  · simp [assign_of_not_covers hq, hq]

/-- The free blocks once a free block has become loose. -/
theorem assign_loose_buddy_iff {o' p' : ℕ} (hw : ∀ q, Covers o p q ↔ own q = .buddy o p) :
    assign own o p .loose q = .buddy o' p' ↔ own q = .buddy o' p' ∧ ¬ (o' = o ∧ p' = p) := by
  by_cases hq : Covers o p q
  · simp [assign_of_covers hq, (hw q).mp hq, eq_comm]
  rw [assign_of_not_covers hq, iff_self_and]
  rintro h ⟨rfl, rfl⟩
  exact hq ((hw q).mpr h)

theorem assign_ne (hw : w ≠ w') (hown : ∀ q, ¬ Covers o p q → own q ≠ w') :
    assign own o p w q ≠ w' := by
  by_cases hq : Covers o p q
  · rwa [assign_of_covers hq]
  · rw [assign_of_not_covers hq]
    exact hown q hq

end

namespace FreeArea

/-! ### What each write changes -/

variable (a : FreeArea)

section

variable (p v q : ℕ)

@[simp] theorem next_writeNext : (a.writeNext p v).next q = if q = p then v else a.next q := by
  by_cases h : q = p <;> simp [next, writeNext, writeNode, h]

@[simp] theorem prev_writeNext : (a.writeNext p v).prev q = a.prev q := by
  by_cases h : q = p <;> simp [prev, writeNext, writeNode, h]

@[simp] theorem next_writePrev : (a.writePrev p v).next q = a.next q := by
  by_cases h : q = p <;> simp [next, writePrev, writeNode, h]

@[simp] theorem prev_writePrev : (a.writePrev p v).prev q = if q = p then v else a.prev q := by
  by_cases h : q = p <;> simp [prev, writePrev, writeNode, h]

@[simp] theorem zi_writeNext : (a.writeNext p v).zi q = a.zi q := rfl

@[simp] theorem migratetype_writeNext : (a.writeNext p v).migratetype q = a.migratetype q := rfl

end

@[simp] theorem zi_writeHead (k : ListKey) (v q : ℕ) : (a.writeHead k v).zi q = a.zi q := rfl

@[simp] theorem migratetype_writeHead (k : ListKey) (v q : ℕ) :
    (a.writeHead k v).migratetype q = a.migratetype q := rfl

theorem mem_writeNext_of_ne (h : q ≠ p) : (a.writeNext p v).mem q = a.mem q := by
  simp [writeNext, writeNode, h]

theorem mem_writePrev_of_ne (h : q ≠ p) : (a.writePrev p v).mem q = a.mem q := by
  simp [writePrev, writeNode, h]

@[simp] theorem poison_writeNext (p v q : ℕ) :
    ((a.writeNext p v).mem q).poison = (a.mem q).poison := by
  by_cases h : q = p <;> simp [writeNext, writeNode, h]

@[simp] theorem poison_writePrev (p v q : ℕ) :
    ((a.writePrev p v).mem q).poison = (a.mem q).poison := by
  by_cases h : q = p <;> simp [writePrev, writeNode, h]

theorem setRange_eq {start stop : ℕ} (h : start < stop) (mt : MigrateType) :
    a.setRange start stop mt = { a with pageblocks := (a.setRange start stop mt).pageblocks } := by
  rw [setRange, if_neg (by omega)]

theorem migratetype_setRange (hal : Aligned o p) (ho : PAGEBLOCK_ORDER ≤ o) (mt : MigrateType)
    (q : ℕ) :
    (a.setRange p (p + 2 ^ o) mt).migratetype q =
      if Covers o p q then mt else a.migratetype q := by
  have hpos := Nat.two_pow_pos o
  rw [setRange, if_neg (by omega)]
  exact if_congr (hal.shift_between_iff ho) rfl rfl

/-- All pages of a block share their zone and class and exist. -/
def Uniform (o p : ℕ) : Prop :=
  ∀ q, Covers o p q → a.zi q = a.zi p ∧ a.migratetype q = a.migratetype p ∧ q < a.pfnMax

/-- The parts of the map that no list operation touches. -/
structure SameMap (a a' : FreeArea) : Prop where
  pfnMax : a'.pfnMax = a.pfnMax
  layout : a'.layout = a.layout
  pageblocks : a'.pageblocks = a.pageblocks

/-- The area after a block has been pushed on the list `k` and recorded. -/
def published (k : ListKey) (p : ℕ) : FreeArea :=
  let head := a.freeHeads k
  let a := a.stampBlock p k.order head PFN_NULL
  let a := if head ≠ PFN_NULL then a.writePrev head p else a
  let a := (a.writeHead k p).bitmapSet k.order (p >>> k.order)
  a.writeCount k (a.freeCount k + 1)

theorem publish_eq (hz : a.zi p = k.zone) (hmt : a.migratetype p = k.mt) :
    a.publish k.zone p k.order k.mt = .ok (a.published k p) := by
  rw [publish, pushFree, kassert_true hmt, hz]
  rfl

section

variable (k : ListKey) (p q : ℕ)

theorem next_published : (a.published k p).next q = if q = p then a.freeHeads k else a.next q := by
  by_cases hk : a.freeHeads k ≠ PFN_NULL
  · simp only [published, if_pos hk]
    refine (next_writePrev ..).trans ?_
    by_cases h : q = p <;> simp [next, stampBlock, writeNode, h]
  simp only [published, if_neg hk]
  by_cases h : q = p <;>
    simp [next, stampBlock, writeNode, writeHead, bitmapSet, bitmapWrite, writeCount, h]

theorem prev_published (hp : a.freeHeads k ≠ p) :
    (a.published k p).prev q = if q = p then PFN_NULL else
      if q = a.freeHeads k ∧ a.freeHeads k ≠ PFN_NULL then p else a.prev q := by
  by_cases hk : a.freeHeads k ≠ PFN_NULL
  · simp only [published, if_pos hk]
    refine (prev_writePrev ..).trans ?_
    by_cases h : q = p
    · subst h
      simp [Ne.symm hp, prev, stampBlock, writeNode]
    · by_cases h' : q = a.freeHeads k <;> simp [h, hk, prev, stampBlock, writeNode]
  simp only [published]
  by_cases h : q = p <;>
    simp [prev, stampBlock, writeNode, writeHead, bitmapSet, bitmapWrite, writeCount, h, hk]

theorem mem_published (hp : q ≠ p) (hk : a.freeHeads k ≠ PFN_NULL → q ≠ a.freeHeads k) :
    (a.published k p).mem q = a.mem q := by
  by_cases h0 : a.freeHeads k ≠ PFN_NULL
  · simp only [published, if_pos h0]
    exact (mem_writePrev_of_ne _ (hk h0)).trans (by simp [stampBlock, writeNode, hp])
  · simp only [published, if_neg h0]
    simp [stampBlock, writeNode, writeHead, bitmapSet, bitmapWrite, writeCount, hp]

theorem poison_published :
    ((a.published k p).mem q).poison = if q = p then POISON_MAGIC else (a.mem q).poison := by
  by_cases hk : a.freeHeads k ≠ PFN_NULL
  · simp only [published, if_pos hk]
    refine (poison_writePrev ..).trans ?_
    by_cases h : q = p <;> simp [stampBlock, writeNode, h]
  simp only [published, if_neg hk]
  by_cases h : q = p <;>
    simp [stampBlock, writeNode, writeHead, bitmapSet, bitmapWrite, writeCount, h]

theorem sameMap_published (p : ℕ) : SameMap a (a.published k p) := by
  unfold published
  dsimp only
  split <;> exact ⟨rfl, rfl, rfl⟩

theorem freeHeads_published (p : ℕ) : (a.published k p).freeHeads = update a.freeHeads k p := by
  unfold published
  dsimp only
  split <;> rfl

theorem freeCount_published (p : ℕ) :
    (a.published k p).freeCount = update a.freeCount k (a.freeCount k + 1) := by
  unfold published
  dsimp only
  split <;> rfl

theorem bitmaps_published (p o i : ℕ) :
    (a.published k p).bitmaps o i =
      if o = k.order ∧ i = p >>> k.order then true else a.bitmaps o i := by
  unfold published
  dsimp only
  split <;> rfl

/-- The area after the element `p` of the list `k` has been unlinked. -/
def unlinked (p : ℕ) : FreeArea :=
  let b := if a.prev p = PFN_NULL then a.writeHead k (a.next p)
    else a.writeNext (a.prev p) (a.next p)
  if a.next p ≠ PFN_NULL then b.writePrev (a.next p) (a.prev p) else b

/-- The area after the block has been forgotten as well. -/
def retracted (p : ℕ) : FreeArea :=
  ((a.unlinked k p).bitmapClear k.order (p >>> k.order)).writeCount k (a.freeCount k - 1)

theorem next_unlinked : (a.unlinked k p).next q =
    if a.prev p ≠ PFN_NULL ∧ q = a.prev p then a.next p else a.next q := by
  by_cases hp : a.prev p = PFN_NULL <;> by_cases hn : a.next p ≠ PFN_NULL
  · simp only [unlinked, if_pos hn, next_writePrev]
    simp [hp, next, writeHead]
  · simp only [unlinked, if_neg hn]
    simp [hp, next, writeHead]
  · simp only [unlinked, if_pos hn]
    simp [hp]
  · simp only [unlinked, if_neg hn]
    simp [hp]

theorem prev_unlinked : (a.unlinked k p).prev q =
    if a.next p ≠ PFN_NULL ∧ q = a.next p then a.prev p else a.prev q := by
  by_cases hp : a.prev p = PFN_NULL <;> by_cases hn : a.next p ≠ PFN_NULL
  · simp only [unlinked, if_pos hp, if_pos hn, prev_writePrev]
    simp [hn, prev, writeHead]
  · simp only [unlinked, if_pos hp]
    simp [hn, prev, writeHead]
  · simp only [unlinked, if_neg hp]
    simp [hn]
  · simp only [unlinked, if_neg hp]
    simp [hn]

theorem mem_unlinked (hp : a.prev p ≠ PFN_NULL → q ≠ a.prev p)
    (hn : a.next p ≠ PFN_NULL → q ≠ a.next p) : (a.unlinked k p).mem q = a.mem q := by
  by_cases hp0 : a.prev p = PFN_NULL <;> by_cases hn0 : a.next p ≠ PFN_NULL
  · simp only [unlinked, if_pos hp0, if_pos hn0]
    exact mem_writePrev_of_ne _ (hn hn0)
  · simp only [unlinked, if_pos hp0, if_neg hn0]
    rfl
  · simp only [unlinked, if_neg hp0, if_pos hn0]
    exact (mem_writePrev_of_ne _ (hn hn0)).trans (mem_writeNext_of_ne _ (hp hp0))
  · simp only [unlinked, if_neg hp0, if_neg hn0]
    exact mem_writeNext_of_ne _ (hp hp0)

theorem poison_unlinked : ((a.unlinked k p).mem q).poison = (a.mem q).poison := by
  unfold unlinked
  split <;> split <;> simp [writeHead]

theorem sameMap_retracted (p : ℕ) : SameMap a (a.retracted k p) := by
  unfold retracted unlinked
  split <;> split <;> exact ⟨rfl, rfl, rfl⟩

theorem freeHeads_unlinked (p : ℕ) : (a.unlinked k p).freeHeads =
    if a.prev p = PFN_NULL then update a.freeHeads k (a.next p) else a.freeHeads := by
  unfold unlinked
  split <;> split <;> rfl

theorem freeCount_unlinked (p : ℕ) : (a.unlinked k p).freeCount = a.freeCount := by
  unfold unlinked
  split <;> split <;> rfl

theorem bitmaps_unlinked (p : ℕ) : (a.unlinked k p).bitmaps = a.bitmaps := by
  unfold unlinked
  split <;> split <;> rfl

end

theorem forget_unlinked (p : ℕ) (hc : 1 ≤ a.freeCount k) :
    (a.unlinked k p).forget k.zone p k.order k.mt = .ok (a.retracted k p) := by
  have hcount : ((a.unlinked k p).bitmapClear k.order (p >>> k.order)).freeCount k =
      a.freeCount k := congrFun (a.freeCount_unlinked k p) k
  rw [forget, hcount, counterSub_of_le hc]
  rfl

namespace SameMap

variable {a a' a'' : FreeArea}

theorem refl (a : FreeArea) : SameMap a a := ⟨rfl, rfl, rfl⟩

variable (h : SameMap a a')
include h

theorem trans (h' : SameMap a' a'') : SameMap a a'' :=
  ⟨h'.pfnMax.trans h.pfnMax, h'.layout.trans h.layout, h'.pageblocks.trans h.pageblocks⟩

theorem zi (q : ℕ) : a'.zi q = a.zi q := by rw [FreeArea.zi, h.layout]; rfl

theorem migratetype (q : ℕ) : a'.migratetype q = a.migratetype q := by
  rw [FreeArea.migratetype, h.pageblocks]; rfl

theorem uniform (hu : a.Uniform o p) : a'.Uniform o p := by
  intro q hq
  rw [h.zi, h.zi, h.migratetype, h.migratetype, h.pfnMax]
  exact hu q hq

end SameMap

end FreeArea

/-! ### The invariant -/

/-- The block at `p` is whole, aligned and of one kind, and belongs to `w`. -/
structure BlockAt {η : Type} (a : FreeArea) (own : ℕ → Owner η) (o p : ℕ) (w : Owner η) :
    Prop where
  order_le : o ≤ MAX_ORDER
  aligned : Aligned o p
  uniform : a.Uniform o p
  whole : ∀ x, Covers o p x → own x = w

theorem BlockAt.congr {η : Type} {a a' : FreeArea} {own own' : ℕ → Owner η} {w : Owner η}
    (h : BlockAt a own o p w) (hmax : a'.pfnMax = a.pfnMax) (hzi : ∀ q, a'.zi q = a.zi q)
    (hmt : ∀ q, own q = w → a'.migratetype q = a.migratetype q)
    (hown : ∀ q, own q = w → own' q = w) : BlockAt a' own' o p w := by
  refine ⟨h.order_le, h.aligned, fun q hq => ?_, fun x hx => hown x (h.whole x hx)⟩
  rw [hzi, hzi, hmt q (h.whole q hq), hmt p (h.whole p (covers_self o p)), hmax]
  exact h.uniform q hq

/-- The five records of every free block agree with the ownership of the pages. -/
structure AreaInv {η : Type} (a : FreeArea) (own : ℕ → Owner η) : Prop where
  tiles : a.layout.Tiles a.pfnMax
  bound : a.pfnMax ≤ PFN_NULL
  block : ∀ {q o p}, own q = .buddy o p → Covers o p q ∧ BlockAt a own o p (.buddy o p)
  bits : ∀ o i, a.bitmaps o i = true ↔ own (i * 2 ^ o) = .buddy o (i * 2 ^ o)
  poison : ∀ {o p}, own p = .buddy o p → (a.mem p).poison = POISON_MAGIC
  lists : ∃ L : ListKey → List ℕ, ListFamily PFN_NULL a.next a.prev a.freeHeads L ∧
    (∀ k, a.freeCount k = (L k).length) ∧
    ∀ k p, p ∈ L k ↔ own p = .buddy k.order p ∧ a.zi p = k.zone ∧ a.migratetype p = k.mt

/-- A loose block that the list `k` can take. -/
structure LooseBlock {η : Type} (a : FreeArea) (own : ℕ → Owner η) (k : ListKey) (p : ℕ) : Prop
    extends BlockAt a own k.order p .loose where
  zone : a.zi p = k.zone
  mt : a.migratetype p = k.mt

namespace AreaInv

variable {η : Type} {a a' : FreeArea} {own own' : ℕ → Owner η} {o p q : ℕ} (h : AreaInv a own)
include h

theorem order_le (hq : own q = .buddy o p) : o ≤ MAX_ORDER := (h.block hq).2.order_le

theorem aligned (hq : own q = .buddy o p) : Aligned o p := (h.block hq).2.aligned

theorem covers (hq : own q = .buddy o p) : Covers o p q := (h.block hq).1

theorem whole (hq : own q = .buddy o p) (x : ℕ) (hx : Covers o p x) : own x = .buddy o p :=
  (h.block hq).2.whole x hx

theorem uniform (hq : own q = .buddy o p) : a.Uniform o p := (h.block hq).2.uniform

/-- A page with its bit set at some order belongs to that free block. -/
theorem own_of_bit (hb : a.bitmaps o (q >>> o) = true) : own q = .buddy o (blockOf o q) := by
  have hown := (h.bits o (q >>> o)).mp hb
  have heq : q >>> o * 2 ^ o = blockOf o q := by rw [blockOf, Nat.shiftLeft_eq]
  rw [heq] at hown
  exact h.whole hown q (covers_blockOf o q)

theorem bit_of_own (hp : own q = .buddy o p) : a.bitmaps o (q >>> o) = true := by
  have hb := (h.aligned hp).covers_iff.mp (h.covers hp)
  rw [h.bits, ← Nat.shiftLeft_eq, ← blockOf, hb]
  exact h.whole hp p (covers_self o p)

/-- The buddy lists do not see changes among pages that are not free. -/
theorem congr (hm : a.SameMap a') (hbits : a'.bitmaps = a.bitmaps)
    (hheads : a'.freeHeads = a.freeHeads) (hcount : a'.freeCount = a.freeCount)
    (hmem : ∀ q o p, own q = .buddy o p → a'.mem q = a.mem q)
    (hown : ∀ q o p, own' q = .buddy o p ↔ own q = .buddy o p) : AreaInv a' own' := by
  obtain ⟨L, hL, hlen, hmemL⟩ := h.lists
  have hlinks : ∀ k, ∀ q ∈ L k, a'.mem q = a.mem q := by
    intro k q hq
    exact hmem q _ _ ((hmemL k q).mp hq).1
  have hfam : ListFamily PFN_NULL a'.next a'.prev a'.freeHeads L := by
    rw [hheads]
    refine ⟨fun k => ?_, hL.head_eq, hL.nodup, hL.null_notMem, hL.disjoint⟩
    refine (hL.linked k).congr (fun q hq h0 => ?_) (fun q hq => ?_)
    · have hq' := (List.mem_cons.mp hq).resolve_left h0
      exact congrArg FreeNode.next (hlinks k q hq')
    · exact congrArg FreeNode.prev (hlinks k q hq)
  refine ⟨by rw [hm.layout, hm.pfnMax]; exact h.tiles, by rw [hm.pfnMax]; exact h.bound,
    fun hq => (h.block ((hown ..).mp hq)).imp_right fun hb => hb.congr hm.pfnMax hm.zi
      (fun q _ => hm.migratetype q) fun q => (hown ..).mpr, fun o i => ?_, fun hq => ?_,
    L, hfam, fun k => by rw [hcount]; exact hlen k, fun k p => ?_⟩
  · rw [hbits, hown]
    exact h.bits o i
  · have hq' := (hown ..).mp hq
    rw [hmem _ _ _ hq']
    exact h.poison hq'
  · rw [hown, hm.zi, hm.migratetype]
    exact hmemL k p

/-! ### A loose block becomes free -/

/-- **Publishing** a loose block makes it free: no self-check fails, and only list nodes and the
block's own header are written. -/
theorem publish (hb : LooseBlock a own k p) :
    a.publish k.zone p k.order k.mt = .ok (a.published k p) ∧
      AreaInv (a.published k p) (assign own k.order p (.buddy k.order p)) ∧
      ∀ q, (∀ o p', own q ≠ .buddy o p') → q ≠ p → (a.published k p).mem q = a.mem q := by
  obtain ⟨L, hL, hlen, hmemL⟩ := h.lists
  obtain ⟨⟨ho, hal, huni, hloose⟩, hz, hmt⟩ := hb
  have hpl : own p = .loose := hloose p (covers_self _ p)
  have hnew : ∀ k', p ∉ L k' := by
    intro k' hk'
    have := ((hmemL k' p).mp hk').1
    cases hpl.symm.trans this
  have hhead : a.freeHeads k ≠ PFN_NULL → ∃ o', own (a.freeHeads k) = .buddy o' (a.freeHeads k) :=
    fun h0 => ⟨_, ((hmemL k _).mp (hL.head_mem h0)).1⟩
  have hp0 : p ≠ PFN_NULL := by
    have := (huni p (covers_self _ p)).2.2
    have := h.bound
    omega
  have hhp : a.freeHeads k ≠ p := by
    intro he
    obtain ⟨o', ho'⟩ := hhead (he ▸ hp0)
    rw [he, hpl] at ho'
    cases ho'
  refine ⟨a.publish_eq hz hmt, ?_, fun q hq hqp => a.mem_published k p q hqp (fun h0 he => ?_)⟩
  swap
  · obtain ⟨o', ho'⟩ := hhead h0
    exact hq o' _ (he ▸ ho')
  have hm := a.sameMap_published k p
  have hiff : ∀ {q o p'}, assign own k.order p (.buddy k.order p) q = .buddy o p' ↔
      Covers k.order p q ∧ o = k.order ∧ p' = p ∨ own q = .buddy o p' := assign_buddy_iff hloose
  refine ⟨by rw [hm.layout, hm.pfnMax]; exact h.tiles, by rw [hm.pfnMax]; exact h.bound,
    fun hq => ?_, fun o i => ?_, fun {o p'} hq => ?_, update L k (p :: L k), ?_, fun k' => ?_,
    fun k' p' => ?_⟩
  · obtain ⟨hc, rfl, rfl⟩ | hq := hiff.mp hq
    · exact ⟨hc, ho, hal, hm.uniform huni, fun _ => assign_of_covers⟩
    · exact (h.block hq).imp_right fun hb => hb.congr hm.pfnMax hm.zi
        (fun q _ => hm.migratetype q) fun q hq => hiff.mpr (.inr hq)
  · -- bits
    rw [a.bitmaps_published, hiff]
    by_cases hnew' : o = k.order ∧ i = p >>> k.order
    · obtain ⟨rfl, rfl⟩ := hnew'
      rw [hal.shift_eq]
      simp [covers_self]
    rw [if_neg hnew', h.bits, or_iff_right]
    rintro ⟨-, rfl, hpi⟩
    exact hnew' ⟨rfl, eq_shiftRight hpi⟩
  · rw [a.poison_published]
    split
    · rfl
    obtain ⟨-, -, rfl⟩ | hq := hiff.mp hq
    · contradiction
    · exact h.poison hq
  · -- the list gains its new head
    rw [a.freeHeads_published]
    refine hL.push hp0 hnew ?_ ?_ (fun h0 => ?_) (fun q hq => ?_) (fun q hq hqk => ?_)
    · rw [a.next_published, if_pos rfl]
    · rw [a.prev_published k p p hhp, if_pos rfl]
    · rw [a.prev_published k p _ hhp, if_neg hhp, if_pos ⟨rfl, h0⟩]
    · rw [a.next_published, if_neg hq]
    · rw [a.prev_published k p q hhp, if_neg hq, if_neg (fun hc => hqk hc.1)]
  · rw [a.freeCount_published]
    by_cases hk : k' = k
    · subst hk
      rw [update_self, update_self, List.length_cons, hlen]
    · rw [update_of_ne hk, update_of_ne hk, hlen]
  rw [hm.zi, hm.migratetype]
  by_cases hpp : p' = p
  · subst hpp
    by_cases hk : k' = k
    · subst hk
      simp [hz, hmt]
    rw [update_of_ne hk]
    refine iff_of_false (hnew k') (fun ⟨h1, h2, h3⟩ => hk ?_)
    cases k
    simp_all
  have hmem : p' ∈ update L k (p :: L k) k' ↔ p' ∈ L k' := by
    by_cases hk : k' = k
    · subst hk
      rw [update_self, List.mem_cons, or_iff_right hpp]
    · rw [update_of_ne hk]
  rw [hmem, hmemL, hiff, or_iff_right fun hh => hpp hh.2.2]

/-! ### A free block becomes loose -/

/-- The neighbours of a free block on its list are free blocks of its kind. -/
theorem unlinkFree_eq (hp : own p = .buddy o p) :
    a.unlinkFree p o (a.migratetype p) = .ok (a.unlinked ⟨a.zi p, a.migratetype p, o⟩ p) := by
  obtain ⟨L, hL, -, hmemL⟩ := h.lists
  have hpl : p ∈ L ⟨a.zi p, a.migratetype p, o⟩ := (hmemL _ p).mpr ⟨hp, rfl, rfl⟩
  have hlt : ∀ q, q ∈ L ⟨a.zi p, a.migratetype p, o⟩ →
      q < a.pfnMax ∧ a.zi q = a.zi p ∧ a.migratetype q = a.migratetype p := by
    intro q hq
    obtain ⟨h1, h2, h3⟩ := (hmemL _ q).mp hq
    exact ⟨(h.uniform h1 q (covers_self _ q)).2.2, h2, h3⟩
  have hnext : a.next p = PFN_NULL ∨ a.next p < a.pfnMax := by
    by_cases hn : a.next p = PFN_NULL
    · exact .inl hn
    · exact .inr (hlt _ (hL.nxt_mem hpl hn).1).1
  have hprev : a.prev p = PFN_NULL ∨ a.prev p < a.pfnMax := by
    by_cases hn : a.prev p = PFN_NULL
    · exact .inl hn
    · exact .inr (hlt _ (hL.prv_mem hpl hn)).1
  have hnc : a.next p ≠ PFN_NULL →
      a.zi (a.next p) = a.zi p ∧ a.migratetype (a.next p) = a.migratetype p :=
    fun hn => (hlt _ (hL.nxt_mem hpl hn).1).2
  by_cases hp0 : a.prev p = PFN_NULL
  · have hhead := hL.head_of_prv hpl hp0
    by_cases hn : a.next p ≠ PFN_NULL
    · simp [unlinkFree, unlinked, hnext.resolve_left hn, hp0, hn, hhead, hnc hn]
    · simp [unlinkFree, unlinked, hnext, hp0, hn, hhead]
  have hpc := (hlt _ (hL.prv_mem hpl hp0)).2
  by_cases hn : a.next p ≠ PFN_NULL
  · simp [unlinkFree, unlinked, hnext.resolve_left hn, hprev.resolve_left hp0, hp0, hn, hpc, hnc hn]
  · simp [unlinkFree, unlinked, hnext, hprev.resolve_left hp0, hp0, hn, hpc]

/-- Popping a populated list is unlinking its head. -/
theorem popFree_eq (hk : a.freeHeads k ≠ PFN_NULL) :
    a.popFree k.zone k.order k.mt = .ok (a.freeHeads k, a.unlinked k (a.freeHeads k)) ∧
      own (a.freeHeads k) = .buddy k.order (a.freeHeads k) ∧ a.zi (a.freeHeads k) = k.zone ∧
      a.migratetype (a.freeHeads k) = k.mt := by
  obtain ⟨L, hL, -, hmemL⟩ := h.lists
  have hpl := hL.head_mem hk
  refine ⟨?_, (hmemL k _).mp hpl⟩
  obtain ⟨z, mt, o⟩ := k
  have hprev := hL.prv_head hk
  have hself := hL.nxt_ne_self hpl hprev
  by_cases hn : a.next (a.freeHeads ⟨z, mt, o⟩) ≠ PFN_NULL
  · obtain ⟨hmem, hback⟩ := hL.nxt_mem hpl hn
    obtain ⟨h1, h2, h3⟩ := (hmemL _ _).mp hmem
    have hlt := (h.uniform h1 _ (covers_self _ _)).2.2
    simp [popFree, unlinked, hprev, hn, hlt, hself, h2, h3, hback]
    rfl
  · simp [popFree, unlinked, hprev, not_not.mp hn]

/-- **Retracting** a free block, from anywhere in its list, makes it loose. -/
theorem retract (hp : own p = .buddy k.order p) (hz : a.zi p = k.zone)
    (hmt : a.migratetype p = k.mt) :
    1 ≤ a.freeCount k ∧ AreaInv (a.retracted k p) (assign own k.order p .loose) ∧
      ((a.retracted k p).mem p).poison = POISON_MAGIC ∧
      ∀ q, (∀ o p', own q ≠ .buddy o p') → (a.retracted k p).mem q = a.mem q := by
  obtain ⟨L, hL, hlen, hmemL⟩ := h.lists
  have hpl : p ∈ L k := (hmemL k p).mpr ⟨hp, hz, hmt⟩
  have hal := h.aligned hp
  have hiff : ∀ {q o p'}, assign own k.order p .loose q = .buddy o p' ↔
      own q = .buddy o p' ∧ ¬ (o = k.order ∧ p' = p) :=
    assign_loose_buddy_iff fun q => ⟨h.whole hp q, h.covers⟩
  have hm := a.sameMap_retracted k p
  have hcount : 1 ≤ a.freeCount k := by
    rw [hlen]
    exact List.length_pos_of_mem hpl
  refine ⟨hcount, ?_, (a.poison_unlinked k p p).trans (h.poison hp),
    fun q hq => a.mem_unlinked k p q (fun h0 he => ?_) (fun h0 he => ?_)⟩
  · refine ⟨by rw [hm.layout, hm.pfnMax]; exact h.tiles, by rw [hm.pfnMax]; exact h.bound,
      fun hq => ?_, fun o i => ?_, fun {o p'} hq => ?_, update L k ((L k).erase p), ?_,
      fun k' => ?_, fun k' p' => ?_⟩
    · obtain ⟨hq, hne⟩ := hiff.mp hq
      obtain ⟨hc, hb⟩ := h.block hq
      exact ⟨hc, hb.order_le, hb.aligned, hm.uniform hb.uniform,
        fun x hx => hiff.mpr ⟨hb.whole x hx, hne⟩⟩
    · -- bits
      show (if o = k.order ∧ i = p >>> k.order then false else (a.unlinked k p).bitmaps o i) =
        true ↔ _
      rw [a.bitmaps_unlinked, hiff]
      by_cases hnew' : o = k.order ∧ i = p >>> k.order
      · obtain ⟨rfl, rfl⟩ := hnew'
        rw [hal.shift_eq]
        simp
      rw [if_neg hnew', h.bits, and_iff_left]
      rintro ⟨rfl, hpi⟩
      exact hnew' ⟨rfl, eq_shiftRight hpi⟩
    · exact (a.poison_unlinked k p p').trans (h.poison (hiff.mp hq).1)
    · -- the list loses the element
      refine hL.remove hpl (fun h0 => ?_) (fun h0 => ?_) (fun q hq => ?_) (fun q hq => ?_)
        (a.freeHeads_unlinked k p)
      · exact (a.next_unlinked k p _).trans (if_pos ⟨h0, rfl⟩)
      · exact (a.prev_unlinked k p _).trans (if_pos ⟨h0, rfl⟩)
      · exact (a.next_unlinked k p q).trans (if_neg (fun hc => hq hc.2))
      · exact (a.prev_unlinked k p q).trans (if_neg (fun hc => hq hc.2))
    · show update (a.unlinked k p).freeCount k (a.freeCount k - 1) k' = _
      rw [a.freeCount_unlinked]
      by_cases hk : k' = k
      · subst hk
        rw [update_self, update_self, List.length_erase_of_mem hpl, hlen]
      · rw [update_of_ne hk, update_of_ne hk, hlen]
    rw [hm.zi, hm.migratetype]
    by_cases hpp : p' = p
    · subst hpp
      refine iff_of_false (fun hmem => ?_) (by simp)
      by_cases hk : k' = k
      · subst hk
        rw [update_self] at hmem
        exact (hL.nodup k').not_mem_erase hmem
      · rw [update_of_ne hk] at hmem
        exact hk (hL.disjoint k' k p' hmem hpl)
    have hmem : p' ∈ update L k ((L k).erase p) k' ↔ p' ∈ L k' := by
      by_cases hk : k' = k
      · subst hk
        rw [update_self, List.mem_erase_of_ne hpp]
      · rw [update_of_ne hk]
    rw [hmem, hmemL, hiff, and_iff_left fun hh => hpp hh.2]
  · exact hq _ _ (he ▸ ((hmemL k _).mp (hL.prv_mem hpl h0)).1)
  · exact hq _ _ (he ▸ ((hmemL k _).mp (hL.nxt_mem hpl h0).1).1)

/-! ### Retyping -/

/-- **Retyping** a loose block of whole pageblocks. -/
theorem retype (mt : MigrateType) (ho : PAGEBLOCK_ORDER ≤ o) (hal : Aligned o p)
    (hloose : ∀ q, Covers o p q → own q = .loose) :
    AreaInv (a.setRange p (p + 2 ^ o) mt) own ∧
      (∀ q, Covers o p q → (a.setRange p (p + 2 ^ o) mt).migratetype q = mt) ∧
      ∀ q, ¬ Covers o p q → (a.setRange p (p + 2 ^ o) mt).migratetype q = a.migratetype q := by
  have hset := a.setRange_eq (Nat.lt_add_of_pos_right (Nat.two_pow_pos o) : p < p + 2 ^ o) mt
  have hmt := a.migratetype_setRange hal ho mt
  have hold : ∀ q o' p', own q = .buddy o' p' →
      (a.setRange p (p + 2 ^ o) mt).migratetype q = a.migratetype q := by
    intro q o' p' hq
    rw [hmt, if_neg (fun hc => ?_)]
    cases (hloose q hc).symm.trans hq
  refine ⟨?_, fun q hq => (hmt q).trans (if_pos hq), fun q hq => (hmt q).trans (if_neg hq)⟩
  obtain ⟨L, hL, hlen, hmemL⟩ := h.lists
  refine ⟨?_, ?_, fun hq => ?_, ?_, ?_, L, ?_, ?_, fun k x => ?_⟩
  · rw [hset]; exact h.tiles
  · rw [hset]; exact h.bound
  · refine (h.block hq).imp_right fun hb => hb.congr ?_ ?_ (fun x => hold x _ _) fun _ => id
    · rw [hset]
    · rw [hset]; exact fun _ => rfl
  · rw [hset]; exact h.bits
  · rw [hset]; exact h.poison
  · rw [hset]; exact hL
  · rw [hset]; exact hlen
  rw [hmemL]
  have hzi : (a.setRange p (p + 2 ^ o) mt).zi x = a.zi x := by rw [hset]; rfl
  rw [hzi]
  refine and_congr_right fun hx => ?_
  rw [hold x _ _ hx]

end AreaInv

end Oxide.Buddy
