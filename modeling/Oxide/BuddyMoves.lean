/-
What the buddy operations do: whole blocks move between the lists and their callers.

`Move` is the common frame: pages held outside keep their contents, their class and their
holder, and no mergeable pair of free blocks appears.

* **`AreaInv.takeBlock_spec`**: an allocation hands out one aligned uniform block, or there
  was none large enough in the zone;
* **`AreaInv.returnToBuddy_spec`**: a freed block becomes part of one free block;
* **`AreaInv.detachPage_spec`**: one page leaves the block that held it.

Each states how many free pages every list loses or gains.
-/
import Oxide.BuddyLists
import Mathlib.Algebra.BigOperators.Group.List.Basic

namespace Oxide.Buddy

open DyadicBlock Function List FreeArea

variable {η : Type}
variable {mt : MigrateType} {zone : ZoneType} {d order split : ℕ}

/-! ### Counting free pages -/

namespace FreeArea

/-- Free pages of one zone and class. -/
def classPages (a : FreeArea) (zone : ZoneType) (mt : MigrateType) : ℕ :=
  ((List.range (MAX_ORDER + 1)).map fun o => a.freeCount ⟨zone, mt, o⟩ <<< o).sum

theorem zoneFreePages_eq (a : FreeArea) (zone : ZoneType) :
    a.zoneFreePages zone = (MigrateType.all.map (a.classPages zone)).sum := rfl

end FreeArea

theorem sum_map_add_of_eq {ι : Type} [DecidableEq ι] {l : List ι} (hl : l.Nodup) {f g : ι → ℕ}
    {i : ι} (hi : i ∈ l) (hd : g i = f i + d) (hne : ∀ j ∈ l, j ≠ i → g j = f j) :
    (l.map g).sum = (l.map f).sum + d := by
  have hp := perm_cons_erase hi
  have hrest : (l.erase i).map g = (l.erase i).map f :=
    map_congr_left fun j hj => hne j (mem_of_mem_erase hj) (hl.mem_erase_iff.mp hj).1
  rw [(hp.map g).sum_nat, (hp.map f).sum_nat, map_cons, map_cons, sum_cons, sum_cons, hrest, hd]
  omega

namespace FreeArea

variable {a a' : FreeArea}

/-- One more block on the list `k`. -/
theorem classPages_add {k : ListKey} (ho : k.order ≤ MAX_ORDER)
    (hk : a'.freeCount k = a.freeCount k + 1)
    (hne : ∀ k', k' ≠ k → a'.freeCount k' = a.freeCount k') (z : ZoneType) (mt : MigrateType) :
    a'.classPages z mt = a.classPages z mt + if z = k.zone ∧ mt = k.mt then 2 ^ k.order else 0 := by
  by_cases h : z = k.zone ∧ mt = k.mt
  · obtain ⟨rfl, rfl⟩ := h
    rw [if_pos ⟨rfl, rfl⟩]
    refine sum_map_add_of_eq nodup_range (i := k.order) (mem_range.mpr (by omega)) ?_ ?_
    · rw [hk]
      simp only [Nat.shiftLeft_eq]
      ring
    · intro o _ hoo
      rw [hne ⟨k.zone, k.mt, o⟩ (fun he => hoo (congrArg ListKey.order he))]
  rw [if_neg h, classPages]
  congr 1
  refine map_congr_left fun o _ => ?_
  rw [hne ⟨z, mt, o⟩ (fun he => h ⟨congrArg ListKey.zone he, congrArg ListKey.mt he⟩)]

theorem zoneFreePages_add
    (h : ∀ z m, a'.classPages z m = a.classPages z m + if z = zone ∧ m = mt then d else 0)
    (z : ZoneType) : a'.zoneFreePages z = a.zoneFreePages z + if z = zone then d else 0 := by
  rw [zoneFreePages_eq, zoneFreePages_eq]
  refine sum_map_add_of_eq (i := mt) (by decide) (by cases mt <;> decide) ?_ ?_
  · rw [h]
    simp
  · intro m _ hm
    rw [h, if_neg (fun hc => hm hc.2), Nat.add_zero]

end FreeArea

/-! ### The common frame -/

/-- The sibling of `p` cannot be merged with it. -/
def Unmergeable (a : FreeArea) (own : ℕ → Owner η) (o p : ℕ) : Prop :=
  own (buddyOf o p) = .buddy o (buddyOf o p) → a.zi (buddyOf o p) = a.zi p →
    a.migratetype (buddyOf o p) ≠ a.migratetype p

/-- No free block has a free sibling it could merge with. -/
def Coalesced (a : FreeArea) (own : ℕ → Owner η) : Prop :=
  ∀ o p, o < MAX_ORDER → own p = .buddy o p → Unmergeable a own o p

theorem Coalesced.of_own {a : FreeArea} {own own' : ℕ → Owner η} (hc : Coalesced a own)
    (hown : ∀ q o p, own' q = .buddy o p → own q = .buddy o p) : Coalesced a own' :=
  fun o p hlt hp hb => hc o p hlt (hown _ _ _ hp) (hown _ _ _ hb)

/-- Blocks move between the lists and the loose pages; what is held outside stays as it is. -/
structure Move (a : FreeArea) (own : ℕ → Owner η) (a' : FreeArea) (own' : ℕ → Owner η) :
    Prop where
  pfnMax : a'.pfnMax = a.pfnMax
  layout : a'.layout = a.layout
  held : ∀ q h, own' q = .held h ↔ own q = .held h
  mem : ∀ q h, own q = .held h → a'.mem q = a.mem q
  mt : ∀ q h, own q = .held h → a'.migratetype q = a.migratetype q
  coalesced : Coalesced a own → Coalesced a' own'

namespace Move

variable {a a' a'' : FreeArea} {own own' own'' : ℕ → Owner η}

theorem refl (a : FreeArea) (own : ℕ → Owner η) : Move a own a own :=
  ⟨rfl, rfl, fun _ _ => Iff.rfl, fun _ _ _ => rfl, fun _ _ _ => rfl, id⟩

theorem trans (h : Move a own a' own') (h' : Move a' own' a'' own'') : Move a own a'' own'' := by
  refine ⟨h'.pfnMax.trans h.pfnMax, h'.layout.trans h.layout,
    fun q w => (h'.held q w).trans (h.held q w), fun q w hq => ?_, fun q w hq => ?_,
    fun hc => h'.coalesced (h.coalesced hc)⟩
  · exact (h'.mem q w ((h.held q w).mpr hq)).trans (h.mem q w hq)
  · exact (h'.mt q w ((h.held q w).mpr hq)).trans (h.mt q w hq)

theorem zi (h : Move a own a' own') (q : ℕ) : a'.zi q = a.zi q := by
  rw [FreeArea.zi, h.layout]; rfl

end Move

/-- A block of the zone's free pages has left the lists: it is loose now. -/
structure Detached (a : FreeArea) (own : ℕ → Owner η) (a' : FreeArea) (own' : ℕ → Owner η)
    (zone : ZoneType) (order p : ℕ) : Prop where
  inv : AreaInv a' own'
  move : Move a own a' own'
  order_le : order ≤ MAX_ORDER
  aligned : Aligned order p
  loose : ∀ q, own' q = .loose ↔ own q = .loose ∨ Covers order p q
  wasFree : ∀ q, Covers order p q → ∃ o' p', own q = .buddy o' p'
  uniform : a'.Uniform order p
  zone : a'.zi p = zone

/-- As `Detached`, for a block whose first page still carries its list header. -/
structure Took (a : FreeArea) (own : ℕ → Owner η) (a' : FreeArea) (own' : ℕ → Owner η)
    (zone : ZoneType) (order p : ℕ) : Prop extends Detached a own a' own' zone order p where
  poison : (a'.mem p).poison = POISON_MAGIC

/-- Every list of the class `mt` in the given orders is empty. -/
def FreeArea.Dry (a : FreeArea) (zone : ZoneType) (mt : MigrateType) (orders : List ℕ) : Prop :=
  ∀ o ∈ orders, a.freeCount ⟨zone, mt, o⟩ = 0

/-- Where a block came from, and what that says about its class. -/
inductive TakeKind (a a' : FreeArea) (zone : ZoneType) (order : ℕ) (requested : MigrateType)
    (p : ℕ) : Prop
  | preferred (mt : a'.migratetype p = requested)
      (pages : a.classPages zone requested = a'.classPages zone requested + 2 ^ order)
      (others : ∀ k : ListKey, k.mt ≠ requested → a'.freeCount k = a.freeCount k)
  | claimed (dry : a.Dry zone requested (ordersFrom order))
      (claim : ∃ f ∈ requested.fallbacks, ¬ a.Dry zone f (ordersFrom (max order PAGEBLOCK_ORDER)))
      (mt : a'.migratetype p = requested)
      (pages : 2 ^ PAGEBLOCK_ORDER ≤ a'.classPages zone requested + 2 ^ order)
  | stolen (dry : a.Dry zone requested (ordersFrom order))
      (unclaimed : ∀ f ∈ requested.fallbacks, a.Dry zone f (ordersFrom (max order PAGEBLOCK_ORDER)))
      (unclaimed' : ∀ f ∈ requested.fallbacks,
        a'.Dry zone f (ordersFrom (max order PAGEBLOCK_ORDER)))
      (mt : a'.migratetype p ≠ requested)
      (pages : a'.classPages zone requested = a.classPages zone requested)

namespace LooseBlock

variable {a : FreeArea} {own : ℕ → Owner η} {o p : ℕ} (h : LooseBlock a own ⟨zone, mt, o + 1⟩ p)
include h

theorem lower : LooseBlock a own ⟨zone, mt, o⟩ p :=
  ⟨⟨Nat.le_of_succ_le h.order_le, h.aligned.mono (Nat.le_succ o),
    fun q hq => h.uniform q (covers_succ.mpr (.inl hq)),
    fun q hq => h.whole q (covers_succ.mpr (.inl hq))⟩, h.zone, h.mt⟩

theorem upper : LooseBlock a own ⟨zone, mt, o⟩ (p + 2 ^ o) := by
  obtain ⟨hz, hmt, -⟩ := h.uniform (p + 2 ^ o) (covers_succ.mpr (.inr (covers_self _ _)))
  refine ⟨⟨Nat.le_of_succ_le h.order_le, h.aligned.upperHalf, fun q hq => ?_,
    fun q hq => h.whole q (covers_succ.mpr (.inr hq))⟩, hz.trans h.zone, hmt.trans h.mt⟩
  obtain ⟨h1, h2, h3⟩ := h.uniform q (covers_succ.mpr (.inr hq))
  exact ⟨h1.trans hz.symm, h2.trans hmt.symm, h3⟩

end LooseBlock

namespace AreaInv

variable {a a' : FreeArea} {own own' : ℕ → Owner η} {o p q : ℕ} {k : ListKey}

theorem freeHeads_eq_null (h : AreaInv a own) : a.freeHeads k = PFN_NULL ↔ a.freeCount k = 0 := by
  obtain ⟨L, hL, hlen, -⟩ := h.lists
  rw [hL.head_eq_null, hlen, length_eq_zero_iff]

/-- Publishing as a move: the sibling must not be free beside the block. -/
theorem publish_move (h : AreaInv a own) (hb : LooseBlock a own k p)
    (hbuddy : k.order < MAX_ORDER → Unmergeable a own k.order p) :
    Move a own (a.published k p) (assign own k.order p (.buddy k.order p)) := by
  obtain ⟨-, -, hmem⟩ := h.publish hb
  obtain ⟨⟨-, hal, -, hloose⟩, -⟩ := hb
  have hm := a.sameMap_published k p
  refine ⟨hm.pfnMax, hm.layout,
    fun q w => assign_eq_iff (by simp) fun q hq => by simp [hloose q hq],
    fun q w hq => hmem q (by simp [hq]) ?_, fun q w _ => hm.migratetype q,
    fun hc o' p' hlt hp' hb' => ?_⟩
  · rintro rfl
    rw [hloose q (covers_self _ q)] at hq
    cases hq
  -- a mergeable pair would have to contain the new block
  rw [hm.zi, hm.zi, hm.migratetype, hm.migratetype]
  by_cases hcp : Covers k.order p p'
  · rw [assign_of_covers hcp] at hp'
    cases hp'
    rw [assign_of_not_covers (fun hcb => hal.not_covers_buddyOf hcb ?_)] at hb'
    · exact hbuddy hlt hb'
    · exact covers_self _ _
  rw [assign_of_not_covers hcp] at hp'
  by_cases hcb : Covers k.order p (buddyOf o' p')
  · rw [assign_of_covers hcb] at hb'
    obtain ⟨rfl, hpe⟩ := Owner.buddy.inj hb'
    have hp'' : p' = buddyOf k.order p := by rw [hpe, buddyOf_buddyOf]
    rw [← hpe, hp'']
    intro hz' he
    exact hbuddy hlt (hp'' ▸ hp') hz'.symm he.symm
  · rw [assign_of_not_covers hcb] at hb'
    exact hc o' p' hlt hp' hb'

section

variable (h : AreaInv a own) (hp : own p = .buddy k.order p) (hz : a.zi p = k.zone)
  (hmt : a.migratetype p = k.mt)

include h hp hz hmt

theorem retract_move : Move a own (a.retracted k p) (assign own k.order p .loose) := by
  obtain ⟨-, -, -, hmem⟩ := h.retract hp hz hmt
  have hm := a.sameMap_retracted k p
  have hcov : ∀ q, Covers k.order p q → own q = .buddy k.order p := h.whole hp
  refine ⟨hm.pfnMax, hm.layout, fun q w => assign_eq_iff (by simp) fun q hq => by simp [hcov q hq],
    fun q w hq => hmem q (by simp [hq]), fun q w _ => hm.migratetype q,
    fun hc o' p' hlt hp' hb' => ?_⟩
  have hown : ∀ {q w}, assign own k.order p .loose q = w → w ≠ .loose → own q = w := by
    intro q w hq hw
    by_cases hq' : Covers k.order p q
    · exact absurd ((assign_of_covers hq').symm.trans hq).symm hw
    · rwa [assign_of_not_covers hq'] at hq
  rw [hm.zi, hm.zi, hm.migratetype, hm.migratetype]
  exact hc o' p' hlt (hown hp' (by simp)) (hown hb' (by simp))

theorem looseBlock_retracted : LooseBlock (a.retracted k p) (assign own k.order p .loose) k p :=
  have hm := a.sameMap_retracted k p
  ⟨⟨h.order_le hp, h.aligned hp, hm.uniform (h.uniform hp), fun _ hq => assign_of_covers hq⟩,
    (hm.zi p).trans hz, (hm.migratetype p).trans hmt⟩

end

theorem classPages_published (ho : k.order ≤ MAX_ORDER) (z : ZoneType) (m : MigrateType) :
    (a.published k p).classPages z m =
      a.classPages z m + if z = k.zone ∧ m = k.mt then 2 ^ k.order else 0 := by
  refine classPages_add ho ?_ (fun k' hk' => ?_) z m
  · rw [a.freeCount_published, update_self]
  · rw [a.freeCount_published, update_of_ne hk']

theorem classPages_retracted (ho : k.order ≤ MAX_ORDER) (hc : 1 ≤ a.freeCount k) (z : ZoneType)
    (m : MigrateType) :
    a.classPages z m = (a.retracted k p).classPages z m +
      if z = k.zone ∧ m = k.mt then 2 ^ k.order else 0 := by
  have hcount : (a.retracted k p).freeCount = update a.freeCount k (a.freeCount k - 1) := by
    show update (a.unlinked k p).freeCount k _ = _
    rw [a.freeCount_unlinked]
  refine classPages_add ho ?_ (fun k' hk' => ?_) z m
  · rw [hcount, update_self]
    omega
  · rw [hcount, update_of_ne hk']

/-! ### Splitting -/

/-- Publishing a loose block beside its sibling leaves the sibling loose. -/
theorem publish_sibling (h : AreaInv a own) {x y : ℕ} (hx : LooseBlock a own k x)
    (hy : LooseBlock a own k y) (hxy : buddyOf k.order x = y) :
    Move a own (a.published k x) (assign own k.order x (.buddy k.order x)) ∧
      LooseBlock (a.published k x) (assign own k.order x (.buddy k.order x)) k y := by
  have hm := a.sameMap_published k x
  refine ⟨h.publish_move hx fun _ hb => ?_, ⟨hy.order_le, hy.aligned, hm.uniform hy.uniform,
    fun q hq => ?_⟩, (hm.zi y).trans hy.zone, (hm.migratetype y).trans hy.mt⟩
  · rw [hxy, hy.whole y (covers_self _ y)] at hb
    cases hb
  · rw [assign_of_not_covers fun hq' => hx.aligned.not_covers_buddyOf hq' (hxy ▸ hq)]
    exact hy.whole q hq

/-- Splitting a loose block keeps its first `2 ^ order` pages loose and frees the rest. -/
theorem splitDown_spec (h : AreaInv a own) (ho : order ≤ split)
    (hb : LooseBlock a own ⟨zone, mt, split⟩ p) :
    ∃ a' own', splitDown zone p order mt split a = .ok a' ∧ AreaInv a' own' ∧
      Move a own a' own' ∧ a.SameMap a' ∧ a'.mem p = a.mem p ∧
      (∀ q, own' q = .loose ↔ own q = .loose ∧ (Covers split p q → Covers order p q)) ∧
      (∀ k : ListKey, k.zone ≠ zone ∨ k.mt ≠ mt ∨ split ≤ k.order →
        a'.freeCount k = a.freeCount k) ∧
      ∀ z m, a'.classPages z m + (if z = zone ∧ m = mt then 2 ^ order else 0) =
        a.classPages z m + if z = zone ∧ m = mt then 2 ^ split else 0 := by
  induction split generalizing a own with
  | zero =>
    obtain rfl : order = 0 := by omega
    exact ⟨a, own, rfl, h, Move.refl a own, .refl a, rfl, by simp, fun _ _ => rfl, fun _ _ => rfl⟩
  | succ split ih =>
  by_cases hlt : order < split + 1
  · -- publish the upper half, then split the lower one
    have hU := hb.upper
    obtain ⟨hpub, hinv, hmem⟩ := h.publish hU
    obtain ⟨hmove, hL⟩ := h.publish_sibling hU hb.lower hb.aligned.buddyOf_upper
    have hm := a.sameMap_published ⟨zone, mt, split⟩ (p + 2 ^ split)
    obtain ⟨a', own', hrun, hinv', hmove', hm', hmemp, hl', hc', hp'⟩ := ih hinv (by omega) hL
    refine ⟨a', own', ?_, hinv', hmove.trans hmove', hm.trans hm', ?_, fun q => ?_,
      fun k' hk' => ?_,
      fun z m => ?_⟩
    · rw [splitDown, if_pos hlt]
      exact (congrArg (· >>= _) hpub).trans hrun
    · rw [hmemp]
      exact hmem p (by simp [hb.whole p (covers_self _ p)])
        (Nat.ne_of_lt (Nat.lt_add_of_pos_right (Nat.two_pow_pos _)))
    · rw [hl', covers_succ]
      have hsub : Covers order p q → Covers split p q := fun hq => hq.lt_of_lt (by omega)
      by_cases hq : Covers split (p + 2 ^ split) q
      · rw [assign_of_covers hq]
        refine iff_of_false (by simp) (fun hc => ?_)
        exact not_covers_both (hsub (hc.2 (.inr hq))) hq
      · rw [assign_of_not_covers hq]
        tauto
    · rw [hc' k' (hk'.imp_right (Or.imp_right (by omega))), a.freeCount_published, update_of_ne]
      rintro rfl
      rcases hk' with hk' | hk' | hk'
      · exact hk' rfl
      · exact hk' rfl
      · simp at hk'
    rw [hp', classPages_published hU.order_le]
    split
    · ring
    · rfl
  · obtain rfl : order = split + 1 := by omega
    refine ⟨a, own, ?_, h, Move.refl a own, .refl a, rfl, by simp, fun _ _ => rfl, fun _ _ => rfl⟩
    rw [splitDown, if_neg hlt]

/-! ### Taking a block -/

theorem retype_move (h : AreaInv a own) (mt : MigrateType) (ho : PAGEBLOCK_ORDER ≤ o)
    (hal : Aligned o p) (hloose : ∀ q, Covers o p q → own q = .loose) :
    Move a own (a.setRange p (p + 2 ^ o) mt) own := by
  obtain ⟨-, -, hkeep⟩ := h.retype mt ho hal hloose
  have hset := a.setRange_eq (Nat.lt_add_of_pos_right (Nat.two_pow_pos o) : p < p + 2 ^ o) mt
  have hout : ∀ q, own q ≠ .loose → ¬ Covers o p q := fun q hq hc => hq (hloose q hc)
  refine ⟨by rw [hset], by rw [hset], fun _ _ => Iff.rfl, fun q w _ => by rw [hset],
    fun q w hq => hkeep q (hout q (by simp [hq])), fun hc o' p' hlt hp' hb' => ?_⟩
  rw [hkeep _ (hout _ (by simp [hb'])), hkeep _ (hout _ (by simp [hp'])), hset]
  exact hc o' p' hlt hp' hb'

/-- The head of a populated list, popped and forgotten. -/
theorem pop_forget (h : AreaInv a own) (hk : a.freeHeads k ≠ PFN_NULL) :
    a.popFree k.zone k.order k.mt = .ok (a.freeHeads k, a.unlinked k (a.freeHeads k)) ∧
      (a.unlinked k (a.freeHeads k)).forget k.zone (a.freeHeads k) k.order k.mt =
        .ok (a.retracted k (a.freeHeads k)) := by
  obtain ⟨hpop, hown, hz, hmt⟩ := h.popFree_eq hk
  exact ⟨hpop, a.forget_unlinked _ (h.retract hown hz hmt).1⟩

/-- Splitting a loose block that was one free block before hands out its first pages. -/
theorem took_of_split {a1 : FreeArea} {own1 : ℕ → Owner η} (h : AreaInv a own)
    (hp : own p = .buddy split p) (ho : order ≤ split) (hmove : Move a own a1 own1)
    (hl1 : ∀ q, own1 q = .loose ↔ own q = .loose ∨ Covers split p q) (hm : a1.SameMap a')
    (hmove' : Move a1 own1 a' own') (hinv : AreaInv a' own') (huni : a1.Uniform split p)
    (hpoison : (a'.mem p).poison = POISON_MAGIC)
    (hl : ∀ q, own' q = .loose ↔ own1 q = .loose ∧ (Covers split p q → Covers order p q)) :
    Took a own a' own' (a.zi p) order p where
  inv := hinv
  move := hmove.trans hmove'
  order_le := ho.trans (h.order_le hp)
  aligned := (h.aligned hp).mono ho
  loose q := by
    have hsub : Covers order p q → Covers split p q := fun hq => hq.lt_of_lt ho
    have hno : own q = .loose → ¬ Covers split p q := by
      intro hq hc
      cases (h.whole hp q hc).symm.trans hq
    rw [hl, hl1]
    tauto
  wasFree q hq := ⟨_, _, h.whole hp q (hq.lt_of_lt ho)⟩
  uniform := hm.uniform fun q hq => huni q (hq.lt_of_lt ho)
  zone := (hmove.trans hmove').zi p
  poison := hpoison

theorem assign_loose_iff (own : ℕ → Owner η) (o p q : ℕ) :
    assign own o p .loose q = .loose ↔ own q = .loose ∨ Covers o p q := by
  by_cases hc : Covers o p q
  · rw [assign_of_covers hc]
    simp [hc]
  · rw [assign_of_not_covers hc]
    simp [hc]

/-- **Taking** the head of a list and splitting it. -/
theorem takeFromOrder_spec (h : AreaInv a own) (hk : a.freeHeads k ≠ PFN_NULL)
    (ho : order ≤ k.order) :
    ∃ p a' own', a.takeFromOrder k.zone order k.order k.mt = .ok (p, a') ∧
      Took a own a' own' k.zone order p ∧ a'.migratetype p = k.mt ∧
      (∀ k' : ListKey, k'.zone ≠ k.zone ∨ k'.mt ≠ k.mt ∨ k.order < k'.order →
        a'.freeCount k' = a.freeCount k') ∧
      ∀ z m, a.classPages z m =
        a'.classPages z m + if z = k.zone ∧ m = k.mt then 2 ^ order else 0 := by
  obtain ⟨-, hown, hz, hmt⟩ := h.popFree_eq hk
  obtain ⟨hpop, hforget⟩ := h.pop_forget hk
  set p := a.freeHeads k
  obtain ⟨hcount, hinv, hpoison, -⟩ := h.retract hown hz hmt
  have hm := a.sameMap_retracted k p
  obtain ⟨a', own', hrun, hinv', hmove', hm', hmemp, hl', hc', hpages⟩ := hinv.splitDown_spec ho
    (h.looseBlock_retracted hown hz hmt)
  refine ⟨p, a', own', ?_, ?_, ?_, fun k' hk' => ?_, fun z m => ?_⟩
  · simp [takeFromOrder, hpop, hforget, hrun]
  · rw [← hz]
    exact took_of_split h hown ho (h.retract_move hown hz hmt) (assign_loose_iff own _ p) hm' hmove'
      hinv' (hm.uniform (h.uniform hown)) (by rwa [hmemp]) hl'
  · rw [hm'.migratetype, hm.migratetype, hmt]
  · have hne : k' ≠ k := by
      rintro rfl
      simp at hk'
    rw [hc' k' (hk'.imp_right (Or.imp_right le_of_lt))]
    show update (a.unlinked k p).freeCount k _ k' = _
    rw [update_of_ne hne, a.freeCount_unlinked]
  · have h1 := classPages_retracted (p := p) (h.order_le hown) hcount z m
    have h2 := hpages z m
    rw [h1, ← h2]

theorem mem_ordersFrom {lo : ℕ} : o ∈ ordersFrom lo ↔ lo ≤ o ∧ o ≤ MAX_ORDER := by
  rw [ordersFrom, mem_range'_1]
  omega

end AreaInv

theorem FreeArea.Dry.classPages {a : FreeArea} (h : a.Dry zone mt (ordersFrom 0)) :
    a.classPages zone mt = 0 := by
  refine sum_eq_zero fun x hx => ?_
  obtain ⟨o, ho, rfl⟩ := mem_map.mp hx
  rw [h o (AreaInv.mem_ordersFrom.mpr ⟨Nat.zero_le o, ?_⟩), Nat.zero_shiftLeft]
  exact Nat.lt_succ_iff.mp (mem_range.mp ho)

theorem FreeArea.zoneFreePages_of_dry {a : FreeArea}
    (h : ∀ mt, a.Dry zone mt (ordersFrom 0)) : a.zoneFreePages zone = 0 := by
  refine sum_eq_zero fun x hx => ?_
  obtain ⟨mt, -, rfl⟩ := mem_map.mp hx
  exact (h mt).classPages

namespace AreaInv

variable {η : Type} {a a' : FreeArea} {own own' : ℕ → Owner η} {o p : ℕ} {k : ListKey}

variable {orders : List ℕ}

theorem populated_some (h : a.populated zone mt orders = some o) :
    o ∈ orders ∧ a.freeHeads ⟨zone, mt, o⟩ ≠ PFN_NULL :=
  ⟨mem_of_find?_eq_some h, by simpa using List.find?_some h⟩

section

variable (h : AreaInv a own)
include h

theorem dry_of_populated (hp : a.populated zone mt orders = none) : a.Dry zone mt orders := by
  intro o ho
  rw [← h.freeHeads_eq_null]
  simpa using List.find?_eq_none.mp hp o ho

theorem not_dry_of_populated (hp : a.populated zone mt orders = some o) :
    ¬ a.Dry zone mt orders := by
  intro hd
  obtain ⟨ho, hne⟩ := populated_some hp
  exact hne (h.freeHeads_eq_null.mpr (hd o ho))

/-- **Claiming** a fallback block: all of it changes class before it is split. -/
theorem claimFallback_spec {requested fallback : MigrateType}
    (hp : a.populated zone fallback (ordersFrom (max order PAGEBLOCK_ORDER)).reverse = some o) :
    ∃ p a' own', a.claimFallback zone order requested fallback = .ok (some p, a') ∧
      Took a own a' own' zone order p ∧ a'.migratetype p = requested ∧
      2 ^ PAGEBLOCK_ORDER ≤ a'.classPages zone requested + 2 ^ order ∧
      ∀ z, a.zoneFreePages z = a'.zoneFreePages z + if z = zone then 2 ^ order else 0 := by
  obtain ⟨hmem, hk⟩ := populated_some hp
  rw [mem_reverse, mem_ordersFrom] at hmem
  have ho : order ≤ o := (Nat.le_max_left _ _).trans hmem.1
  have ho9 : PAGEBLOCK_ORDER ≤ o := (Nat.le_max_right _ _).trans hmem.1
  obtain ⟨-, hown, hz, hmt⟩ := h.popFree_eq hk
  obtain ⟨hpop, hforget⟩ := h.pop_forget hk
  set p := a.freeHeads ⟨zone, fallback, o⟩
  obtain ⟨hcount, hinv, hpoison, -⟩ := h.retract hown hz hmt
  have hm := a.sameMap_retracted ⟨zone, fallback, o⟩ p
  have hal : Aligned o p := h.aligned hown
  have hloose : ∀ q, Covers o p q → assign own o p .loose q = .loose :=
    fun q hq => assign_of_covers hq
  -- the whole block is loose, so its pageblocks may change class
  obtain ⟨hinv1, hnew, -⟩ := hinv.retype requested ho9 hal hloose
  have hmove1 := hinv.retype_move requested ho9 hal hloose
  have hset := (a.retracted ⟨zone, fallback, o⟩ p).setRange_eq
    (Nat.lt_add_of_pos_right (Nat.two_pow_pos o) : p < p + 2 ^ o) requested
  set a1 := (a.retracted ⟨zone, fallback, o⟩ p).setRange p (p + 2 ^ o) requested
  have huni : a1.Uniform o p := by
    intro q hq
    obtain ⟨h1, -, h3⟩ := h.uniform hown q hq
    rw [hmove1.zi, hmove1.zi, hm.zi, hm.zi, hnew q hq, hnew p (covers_self _ p), hmove1.pfnMax,
      hm.pfnMax]
    exact ⟨h1, rfl, h3⟩
  have hb1 : LooseBlock a1 (assign own o p .loose) ⟨zone, requested, o⟩ p := ⟨⟨hmem.2, hal, huni,
    hloose⟩, (hmove1.zi p).trans ((hm.zi p).trans hz), hnew p (covers_self _ p)⟩
  obtain ⟨a', own', hrun, hinv', hmove', hm', hmemp, hl', hc', hpages⟩ :=
    hinv1.splitDown_spec ho hb1
  have hcount1 : ∀ z m, a1.classPages z m = (a.retracted ⟨zone, fallback, o⟩ p).classPages z m := by
    intro z m
    rw [hset]
    rfl
  have hret := classPages_retracted (p := p) hmem.2 hcount
  refine ⟨p, a', own', ?_, ?_, ?_, ?_, fun z => ?_⟩
  · simp [claimFallback, hp, hpop, hforget, a1, hrun]
  · have hpoison' : (a'.mem p).poison = POISON_MAGIC := by
      rwa [hmemp, hset]
    have htook := took_of_split h hown ho ((h.retract_move hown hz hmt).trans hmove1)
      (assign_loose_iff own _ p) hm' hmove' hinv' huni hpoison' hl'
    rwa [hz] at htook
  · rw [hm'.migratetype, hnew p (covers_self _ p)]
  · have := hpages zone requested
    rw [if_pos ⟨rfl, rfl⟩, if_pos ⟨rfl, rfl⟩] at this
    rw [this]
    exact (Nat.pow_le_pow_right (by decide) ho9).trans (Nat.le_add_left _ _)
  -- what the fallback class loses the requested class gains, but for the block itself
  have hle : 2 ^ order ≤ 2 ^ o := Nat.pow_le_pow_right (by decide) ho
  have hgain : ∀ z m, a'.classPages z m =
      a1.classPages z m + if z = zone ∧ m = requested then 2 ^ o - 2 ^ order else 0 := by
    intro z m
    have := hpages z m
    by_cases hc : z = zone ∧ m = requested
    · rw [if_pos hc, if_pos hc] at this
      rw [if_pos hc]
      omega
    · rw [if_neg hc, if_neg hc] at this
      rw [if_neg hc]
      omega
  have e1 := zoneFreePages_add hret z
  have e2 := zoneFreePages_add hgain z
  have e3 : a1.zoneFreePages z = (a.retracted ⟨zone, fallback, o⟩ p).zoneFreePages z := by
    exact congrArg List.sum (map_congr_left fun m _ => hcount1 z m)
  rw [e1, e2, e3]
  by_cases hzz : z = zone
  · simp only [hzz, if_true]
    omega
  · simp only [hzz, if_false]

theorem claimFallbacks_spec (zone : ZoneType) (order : ℕ) (requested : MigrateType)
    (fs : List MigrateType) :
    (a.claimFallbacks zone order requested fs = .ok (none, a) ∧
      ∀ f ∈ fs, a.Dry zone f (ordersFrom (max order PAGEBLOCK_ORDER))) ∨
    ∃ p a' own', a.claimFallbacks zone order requested fs = .ok (some p, a') ∧
      Took a own a' own' zone order p ∧ a'.migratetype p = requested ∧
      2 ^ PAGEBLOCK_ORDER ≤ a'.classPages zone requested + 2 ^ order ∧
      (∃ f ∈ fs, ¬ a.Dry zone f (ordersFrom (max order PAGEBLOCK_ORDER))) ∧
      ∀ z, a.zoneFreePages z = a'.zoneFreePages z + if z = zone then 2 ^ order else 0 := by
  induction fs with
  | nil => exact .inl ⟨rfl, by simp⟩
  | cons f fs ih =>
  have hrev : ∀ f, a.Dry zone f (ordersFrom (max order PAGEBLOCK_ORDER)).reverse ↔
      a.Dry zone f (ordersFrom (max order PAGEBLOCK_ORDER)) := by
    intro f
    simp only [FreeArea.Dry, mem_reverse]
  cases hp : a.populated zone f (ordersFrom (max order PAGEBLOCK_ORDER)).reverse with
  | some =>
    obtain ⟨p, a', own', hrun, htook, hmt, hpages, hzone⟩ :=
      h.claimFallback_spec hp
    refine .inr ⟨p, a', own', ?_, htook, hmt, hpages, ⟨f, by simp, ?_⟩, hzone⟩
    · simp [claimFallbacks, hrun, pure, Except.pure]
    · rw [← hrev]
      exact h.not_dry_of_populated hp
  | none =>
    have hdry := (hrev f).mp (h.dry_of_populated hp)
    have hrun : a.claimFallback zone order requested f = .ok (none, a) := by
      rw [claimFallback, hp]
    obtain ⟨hrest, hall⟩ | ⟨p, a', own', hrest, htook, hmt, hpages, ⟨f', hf', hnd⟩, hzone⟩ :=
      ih
    · refine .inl ⟨?_, ?_⟩
      · simp [claimFallbacks, hrun, hrest]
      intro f' hf'
      rcases mem_cons.mp hf' with rfl | hf'
      · exact hdry
      · exact hall f' hf'
    · refine .inr ⟨p, a', own', ?_, htook, hmt, hpages, ⟨f', mem_cons_of_mem f hf', hnd⟩, hzone⟩
      simp [claimFallbacks, hrun, hrest]

theorem stealFallbacks_spec (zone : ZoneType) (order : ℕ) (fs : List MigrateType) :
    (a.stealFallbacks zone order fs = .ok (none, a) ∧ ∀ f ∈ fs, a.Dry zone f (ordersFrom order)) ∨
    ∃ f ∈ fs, ∃ o p a' own', a.populated zone f (ordersFrom order) = some o ∧
      a.stealFallbacks zone order fs = .ok (some p, a') ∧
      Took a own a' own' zone order p ∧ a'.migratetype p = f ∧
      (∀ k : ListKey, k.zone ≠ zone ∨ k.mt ≠ f ∨ o < k.order → a'.freeCount k = a.freeCount k) ∧
      ∀ z m, a.classPages z m = a'.classPages z m + if z = zone ∧ m = f then 2 ^ order else 0 := by
  induction fs with
  | nil => exact .inl ⟨rfl, by simp⟩
  | cons f fs ih =>
  cases hp : a.populated zone f (ordersFrom order) with
  | some o =>
    obtain ⟨hmem, hk⟩ := populated_some hp
    obtain ⟨p, a', own', hrun, htook, hmt, hcount, hpages⟩ :=
      h.takeFromOrder_spec hk (mem_ordersFrom.mp hmem).1
    refine .inr ⟨f, by simp, o, p, a', own', hp, ?_, htook, hmt, hcount, hpages⟩
    simp only [stealFallbacks, hp]
    exact congrArg (· >>= _) hrun
  | none =>
    have hdry := h.dry_of_populated hp
    obtain ⟨hrest, hall⟩ | ⟨f', hf', o, p, a', own', hp', hrest, hspec⟩ := ih
    · refine .inl ⟨?_, ?_⟩
      · simp only [stealFallbacks, hp, hrest]
      intro f' hf'
      rcases mem_cons.mp hf' with rfl | hf'
      · exact hdry
      · exact hall f' hf'
    · refine .inr ⟨f', mem_cons_of_mem f hf', o, p, a', own', hp', ?_, hspec⟩
      simp only [stealFallbacks, hp, hrest]

/-- **Allocation** from one zone: a block of the zone is handed out, or every list of the zone
is empty from that order up. -/
theorem takeBlock_spec (zone : ZoneType) (order : ℕ) (requested : MigrateType) :
    (a.takeBlock zone order requested = .ok (none, a) ∧ ∀ mt, a.Dry zone mt (ordersFrom order)) ∨
    ∃ p a' own', a.takeBlock zone order requested = .ok (some p, a') ∧
      Took a own a' own' zone order p ∧ TakeKind a a' zone order requested p ∧
      ∀ z, a.zoneFreePages z = a'.zoneFreePages z + if z = zone then 2 ^ order else 0 := by
  cases hp : a.populated zone requested (ordersFrom order) with
  | some =>
    obtain ⟨hmem, hk⟩ := populated_some hp
    obtain ⟨p, a', own', hrun, htook, hmt, hcount, hpages⟩ :=
      h.takeFromOrder_spec hk (mem_ordersFrom.mp hmem).1
    refine .inr ⟨p, a', own', ?_, htook, .preferred hmt ?_ (fun k hk => hcount k (.inr (.inl hk))),
      zoneFreePages_add hpages⟩
    · simp only [takeBlock, hp]
      exact congrArg (· >>= _) hrun
    · simpa using hpages zone requested
  | none =>
  have hdry := h.dry_of_populated hp
  have hfs : ∀ f ∈ requested.fallbacks, f ≠ requested :=
    fun f hf => MigrateType.ne_of_mem_fallbacks hf
  obtain ⟨hclaim, hun⟩ | ⟨p, a', own', hclaim, htook, hmt, hpages, hsrc, hzone⟩ :=
    h.claimFallbacks_spec zone order requested requested.fallbacks
  · obtain ⟨hsteal, hall⟩ | ⟨f, hf, o, p, a', own', hp', hsteal, htook, hmt, hcount, hpages⟩ :=
      h.stealFallbacks_spec zone order requested.fallbacks
    · refine .inl ⟨?_, fun mt => ?_⟩
      · simp only [takeBlock, hp, hclaim, ok_bind, hsteal]
      · rcases MigrateType.eq_or_mem_fallbacks requested mt with rfl | hm
        · exact hdry
        · exact hall mt hm
    refine .inr ⟨p, a', own', ?_, htook, ?_, zoneFreePages_add hpages⟩
    · simp only [takeBlock, hp, hclaim, ok_bind, hsteal]
    refine .stolen hdry hun (fun f' hf' o' ho' => ?_) (hmt ▸ hfs f hf) ?_
    · -- the stolen block was smaller than a claimable one
      have hlt : o < o' := by
        by_contra hle
        obtain ⟨hmem, hk⟩ := populated_some hp'
        rw [mem_ordersFrom] at hmem ho'
        refine hk (h.freeHeads_eq_null.mpr (hun f hf o (mem_ordersFrom.mpr ⟨?_, hmem.2⟩)))
        omega
      rw [hcount ⟨zone, f', o'⟩ (.inr (.inr hlt))]
      exact hun f' hf' o' ho'
    · have := hpages zone requested
      rw [if_neg (fun hc => hfs f hf hc.2.symm)] at this
      omega
  · refine .inr ⟨p, a', own', ?_, htook, .claimed hdry hsrc hmt hpages, hzone⟩
    simp only [takeBlock, hp, hclaim]
    rfl

end

/-! ### Returning a block -/

/-- Two uniform siblings of one kind are one uniform block. -/
theorem uniform_parent (hal : Aligned o p) (h : a.Uniform o p) (h' : a.Uniform o (buddyOf o p))
    (hz : a.zi (buddyOf o p) = a.zi p) (hmt : a.migratetype (buddyOf o p) = a.migratetype p) :
    a.Uniform (o + 1) (min p (buddyOf o p)) ∧ a.zi (min p (buddyOf o p)) = a.zi p ∧
      a.migratetype (min p (buddyOf o p)) = a.migratetype p := by
  have key : ∀ q, Covers (o + 1) (min p (buddyOf o p)) q →
      a.zi q = a.zi p ∧ a.migratetype q = a.migratetype p ∧ q < a.pfnMax := by
    intro q hq
    rcases hal.covers_parent.mp hq with hq | hq
    · exact h q hq
    · obtain ⟨h1, h2, h3⟩ := h' q hq
      exact ⟨h1.trans hz, h2.trans hmt, h3⟩
  obtain ⟨h1, h2, -⟩ := key _ (covers_self _ _)
  refine ⟨fun q hq => ?_, h1, h2⟩
  obtain ⟨h3, h4, h5⟩ := key q hq
  exact ⟨h3.trans h1.symm, h4.trans h2.symm, h5⟩

/-- The loose block of order `o` at `p` has grown to the one of order `o'` at `p'`. -/
structure Grown (a : FreeArea) (own : ℕ → Owner η) (o p : ℕ) (a' : FreeArea)
    (own' : ℕ → Owner η) (o' p' : ℕ) : Prop where
  inv : AreaInv a' own'
  move : Move a own a' own'
  order_le : o' ≤ MAX_ORDER
  aligned : Aligned o' p'
  uniform : a'.Uniform o' p'
  zone : a'.zi p' = a.zi p
  mt : a'.migratetype p' = a.migratetype p
  sub : ∀ q, Covers o p q → Covers o' p' q
  wasFree : ∀ q, Covers o' p' q → Covers o p q ∨ ∃ o₁ p₁, own q = .buddy o₁ p₁
  loose : ∀ q, own' q = .loose ↔ own q = .loose ∨ Covers o' p' q
  unmergeable : o' < MAX_ORDER → Unmergeable a' own' o' p'
  pages : ∀ z m, a.classPages z m + (if z = a.zi p ∧ m = a.migratetype p then 2 ^ o else 0) =
    a'.classPages z m + if z = a.zi p ∧ m = a.migratetype p then 2 ^ o' else 0

variable (h : AreaInv a own)
include h

theorem grown_refl (hb : LooseBlock a own ⟨a.zi p, a.migratetype p, o⟩ p)
    (hun : o < MAX_ORDER → Unmergeable a own o p) : Grown a own o p a own o p :=
  ⟨h, Move.refl a own, hb.order_le, hb.aligned, hb.uniform, rfl, rfl, fun _ => id, fun _ => .inl,
    fun q => ⟨.inl, fun hq => hq.elim id (hb.whole q)⟩, hun, fun _ _ => rfl⟩

/-- One round of coalescing: the free sibling `b` joins the loose block. -/
theorem grown_cons {b o' p' : ℕ} (hb : b = buddyOf o p) (hal : Aligned o p)
    (hown : own b = .buddy o b) (hz : a.zi b = a.zi p) (hmt : a.migratetype b = a.migratetype p)
    (hg : Grown (a.retracted ⟨a.zi p, a.migratetype p, o⟩ b) (assign own o b .loose) (o + 1)
      (min p b) a' own' o' p') (hzP : a.zi (min p b) = a.zi p)
    (hmtP : a.migratetype (min p b) = a.migratetype p) : Grown a own o p a' own' o' p' := by
  subst hb
  have hm := a.sameMap_retracted ⟨a.zi p, a.migratetype p, o⟩ (buddyOf o p)
  have hmove := h.retract_move (k := ⟨a.zi p, a.migratetype p, o⟩) hown hz hmt
  have hcount := (h.retract (k := ⟨a.zi p, a.migratetype p, o⟩) hown hz hmt).1
  refine ⟨hg.inv, hmove.trans hg.move, hg.order_le, hg.aligned, hg.uniform, ?_, ?_, fun q hq => ?_,
    fun q hq => ?_, fun q => ?_, hg.unmergeable, fun z m => ?_⟩
  · rw [hg.zone, hm.zi, hzP]
  · rw [hg.mt, hm.migratetype, hmtP]
  · exact hg.sub q (hal.covers_parent.mpr (.inl hq))
  · rcases hg.wasFree q hq with hq | ⟨o1, p1, hq⟩
    · rcases hal.covers_parent.mp hq with hq | hq
      · exact .inl hq
      · exact .inr ⟨_, _, h.whole hown q hq⟩
    by_cases hc : Covers o (buddyOf o p) q
    · exact .inr ⟨_, _, h.whole hown q hc⟩
    · rw [assign_of_not_covers hc] at hq
      exact .inr ⟨o1, p1, hq⟩
  · rw [hg.loose, assign_loose_iff]
    have : Covers o (buddyOf o p) q → Covers o' p' q :=
      fun hq => hg.sub q (hal.covers_parent.mpr (.inr hq))
    tauto
  have h1 := hg.pages z m
  rw [hm.zi, hm.migratetype, hzP, hmtP] at h1
  have h2 := classPages_retracted (p := buddyOf o p) (h.order_le hown) hcount z m
  rw [h2, ← h1]
  split
  · ring
  · rfl

/-- Coalescing grows a loose block by its free siblings until none is left. -/
theorem coalesce_spec {n : ℕ} (hn : n + o = MAX_ORDER)
    (hb : LooseBlock a own ⟨a.zi p, a.migratetype p, o⟩ p) :
    ∃ p' o' a' own', coalesce (a.zi p) (a.migratetype p) n p o a = .ok (p', o', a') ∧
      Grown a own o p a' own' o' p' := by
  induction n generalizing a own o p with
  | zero => exact ⟨p, o, a, own, rfl, grown_refl h hb (by omega)⟩
  | succ n ih =>
  by_cases hrange : buddyOf o p + 2 ^ o > a.pfnMax
  · refine ⟨p, o, a, own, if_pos hrange, grown_refl h hb (fun _ hb => ?_)⟩
    have hpos := Nat.two_pow_pos o
    have hlast := (h.uniform hb (buddyOf o p + 2 ^ o - 1) ⟨by omega, by omega⟩).2.2
    omega
  by_cases hbad : a.zi (buddyOf o p) ≠ a.zi p ∨ a.migratetype (buddyOf o p) ≠ a.migratetype p ∨
      a.bitmaps o (buddyOf o p >>> o) = false
  · refine ⟨p, o, a, own, ?_, grown_refl h hb (fun _ hb hz' hmt' => ?_)⟩
    · exact (if_neg hrange).trans (if_pos hbad)
    · rw [h.bit_of_own hb] at hbad
      simp [hz', hmt'] at hbad
  -- the sibling is free and of the same kind: take it off its list and go one order up
  obtain ⟨hzb, hmtb, hbit⟩ : a.zi (buddyOf o p) = a.zi p ∧
      a.migratetype (buddyOf o p) = a.migratetype p ∧
      a.bitmaps o (buddyOf o p >>> o) = true := by
    simpa [not_or] using hbad
  have hown := h.own_of_bit hbit
  have hal : Aligned o p := hb.aligned
  rw [hal.buddyOf.blockOf] at hown
  obtain ⟨hcount, hinv, -, -⟩ :=
    h.retract (k := ⟨a.zi p, a.migratetype p, o⟩) hown hzb hmtb
  have hm := a.sameMap_retracted ⟨a.zi p, a.migratetype p, o⟩ (buddyOf o p)
  have hunlink := h.unlinkFree_eq hown
  rw [hzb, hmtb] at hunlink
  have hforget := a.forget_unlinked (buddyOf o p) hcount
  obtain ⟨huniP, hzP, hmtP⟩ := uniform_parent hal hb.uniform (h.uniform hown) hzb hmtb
  have hlooseP : ∀ q, Covers (o + 1) (min p (buddyOf o p)) q →
      assign own o (buddyOf o p) .loose q = .loose := by
    intro q hq
    rw [assign_loose_iff]
    exact (hal.covers_parent.mp hq).imp_left (hb.whole q)
  obtain ⟨p', o', a', own', hrun, hg⟩ := ih hinv (by omega)
    ⟨⟨by show o + 1 ≤ _; omega, hal.parent, hm.uniform huniP, hlooseP⟩, rfl, rfl⟩
  refine ⟨p', o', a', own', ?_, grown_cons h rfl hal hown hzb hmtb hg hzP hmtP⟩
  rw [hm.zi, hm.migratetype, hzP, hmtP] at hrun
  refine (if_neg hrange).trans ((if_neg hbad).trans ?_)
  rw [hunlink]
  exact (congrArg (· >>= _) hforget).trans hrun

/-- **Freeing**: the block is free again, merged as far as possible. -/
theorem returnToBuddy_spec (hb : LooseBlock a own ⟨a.zi p, a.migratetype p, o⟩ p) :
    ∃ a' own', a.returnToBuddy p o = .ok a' ∧ AreaInv a' own' ∧ Move a own a' own' ∧
      (∀ q, own' q = .loose ↔ own q = .loose ∧ ¬ Covers o p q) ∧
      ∀ z m, a'.classPages z m =
        a.classPages z m + if z = a.zi p ∧ m = a.migratetype p then 2 ^ o else 0 := by
  obtain ⟨p', o', a1, own1, hrun, hg⟩ := h.coalesce_spec (Nat.sub_add_cancel hb.order_le) hb
  have hb' : LooseBlock a1 own1 ⟨a.zi p, a.migratetype p, o'⟩ p' := ⟨⟨hg.order_le, hg.aligned,
    hg.uniform, fun q hq => (hg.loose q).mpr (.inr hq)⟩, hg.zone, hg.mt⟩
  obtain ⟨hpub, hinv, -⟩ := hg.inv.publish hb'
  have hmove := hg.inv.publish_move hb' hg.unmergeable
  refine ⟨_, _, ?_, hinv, hg.move.trans hmove, fun q => ?_, fun z m => ?_⟩
  · rwa [returnToBuddy, hrun]
  · by_cases hc : Covers o' p' q
    · rw [assign_of_covers hc]
      refine iff_of_false (by simp) (fun hq => ?_)
      rcases hg.wasFree q hc with hq' | ⟨o1, p1, hq'⟩
      · exact hq.2 hq'
      · rw [hq'] at hq
        exact absurd hq.1 (by simp)
    · rw [assign_of_not_covers hc, hg.loose]
      have : ¬ Covers o p q := fun hq => hc (hg.sub q hq)
      tauto
  · rw [classPages_published hg.order_le]
    exact (hg.pages z m).symm

/-! ### Detaching one page -/

/-- Of the loose block of the list `k` at `blk` only the page `p` is still loose. -/
structure Isolated (a : FreeArea) (own : ℕ → Owner η) (k : ListKey) (blk p : ℕ) (a' : FreeArea)
    (own' : ℕ → Owner η) : Prop where
  inv : AreaInv a' own'
  move : Move a own a' own'
  sameMap : a.SameMap a'
  loose : ∀ q, own' q = .loose ↔ own q = .loose ∧ (Covers k.order blk q → q = p)
  pages : ∀ z m, a'.classPages z m + (if z = k.zone ∧ m = k.mt then 1 else 0) =
    a.classPages z m + if z = k.zone ∧ m = k.mt then 2 ^ k.order else 0

/-- Splitting a loose block around one of its pages leaves only that page loose. -/
theorem splitAround_spec {blk : ℕ} (hb : LooseBlock a own ⟨zone, mt, o⟩ blk) (hp : Covers o blk p) :
    ∃ a' own', splitAround zone mt p o blk a = .ok a' ∧
      Isolated a own ⟨zone, mt, o⟩ blk p a' own' := by
  induction o generalizing a own blk with
  | zero =>
    obtain rfl := covers_zero.mp hp
    exact ⟨a, own, rfl, h, Move.refl a own, .refl a, by simp, fun _ _ => rfl⟩
  | succ o ih =>
  -- `x` is the half that is published, `y` the one that holds the page
  have hstep : ∀ x y, LooseBlock a own ⟨zone, mt, o⟩ x → LooseBlock a own ⟨zone, mt, o⟩ y →
      buddyOf o x = y → Covers o y p →
      (∀ q, Covers (o + 1) blk q ↔ Covers o x q ∨ Covers o y q) →
      (a.publish zone x o mt >>= splitAround zone mt p o y) = splitAround zone mt p (o + 1) blk a →
      ∃ a' own', splitAround zone mt p (o + 1) blk a = .ok a' ∧
        Isolated a own ⟨zone, mt, o + 1⟩ blk p a' own' := by
    intro x y hx hy hxy hyp hcov hrun
    obtain ⟨hpub, hinv, -⟩ := h.publish hx
    obtain ⟨hmove, hy'⟩ := h.publish_sibling hx hy hxy
    obtain ⟨a', own', hrun', hinv', hmove', hm', hl', hpages⟩ := ih hinv hy' hyp
    refine ⟨a', own', ?_, hinv', hmove.trans hmove', (a.sameMap_published _ x).trans hm',
      fun q => ?_, fun z m => ?_⟩
    · rw [← hrun]
      exact (congrArg (· >>= _) hpub).trans hrun'
    · rw [hl', hcov]
      by_cases hX : Covers o x q
      · rw [assign_of_covers hX]
        refine iff_of_false (by simp) (fun hc => ?_)
        obtain rfl := hc.2 (.inl hX)
        exact hx.aligned.not_covers_buddyOf hX (hxy ▸ hyp)
      · rw [assign_of_not_covers hX]
        tauto
    rw [hpages, classPages_published hx.order_le]
    split
    · ring
    · rfl
  have hal := hb.aligned
  by_cases hup : blk + 2 ^ o ≤ p
  · refine hstep blk (blk + 2 ^ o) hb.lower hb.upper hal.buddyOf_lower ?_ (fun q => covers_succ)
      (if_pos hup).symm
    exact ⟨hup, by have := hp.2; omega⟩
  · exact hstep (blk + 2 ^ o) blk hb.upper hb.lower hal.buddyOf_upper ⟨hp.1, by omega⟩
      (fun q => covers_succ.trans or_comm) (if_neg hup).symm

theorem containingOrder_some (hp : a.containingOrder p = some o) :
    own p = .buddy o (blockOf o p) := by
  have hbit : a.bitmaps o (p >>> o) = true := by simpa using List.find?_some hp
  exact h.own_of_bit hbit

/-- No block holds the page exactly when the page is not free. -/
theorem containingOrder_none : a.containingOrder p = none ↔ ∀ o b, own p ≠ .buddy o b := by
  rw [containingOrder, List.find?_eq_none]
  constructor
  · intro hno o b hown
    exact hno o (mem_ordersFrom.mpr ⟨Nat.zero_le o, h.order_le hown⟩) (h.bit_of_own hown)
  · intro hno o _ hbit
    exact hno o _ (h.own_of_bit hbit)

/-- **Detaching** a free page from the block that holds it. -/
theorem detachPage_spec (hp : own p = .buddy o (blockOf o p)) :
    ∃ a' own', a.detachPage p o = .ok a' ∧ Detached a own a' own' (a.zi p) 0 p ∧ a.SameMap a' ∧
      ∀ z m, a.classPages z m =
        a'.classPages z m + if z = a.zi p ∧ m = a.migratetype p then 1 else 0 := by
  have hcov := covers_blockOf o p
  have hblk := h.whole hp _ (covers_self o (blockOf o p))
  obtain ⟨hzp, hmtp, hltp⟩ := h.uniform hp p hcov
  set k : ListKey := ⟨a.zi (blockOf o p), a.migratetype (blockOf o p), o⟩ with hk
  obtain ⟨hcount, hinv, -, -⟩ := h.retract (k := k) hblk rfl rfl
  have hmove := h.retract_move (k := k) hblk rfl rfl
  have hm := a.sameMap_retracted k (blockOf o p)
  obtain ⟨a', own', hrun, hinv', hmove', hm', hl', hpages⟩ := hinv.splitAround_spec
    (h.looseBlock_retracted hblk rfl rfl) hcov
  refine ⟨a', own', ?_, ⟨hinv', hmove.trans hmove', Nat.zero_le _, aligned_zero p, fun q => ?_,
    fun q hq => ?_, fun q hq => ?_, ?_⟩, hm.trans hm', fun z m => ?_⟩
  · rw [detachPage, h.unlinkFree_eq hblk]
    exact (congrArg (· >>= _) (a.forget_unlinked _ hcount)).trans hrun
  · rw [hl', covers_zero]
    rw [assign_loose_iff]
    have hno : own q = .loose → ¬ Covers o (blockOf o p) q := by
      intro hq hc
      cases (h.whole hp q hc).symm.trans hq
    constructor
    · rintro ⟨hq | hq, himp⟩
      · exact .inl hq
      · exact .inr (himp hq)
    · rintro (hq | rfl)
      · exact ⟨.inl hq, fun hc => absurd hc (hno hq)⟩
      · exact ⟨.inr hcov, fun _ => rfl⟩
  · obtain rfl := covers_zero.mp hq
    exact ⟨_, _, hp⟩
  · obtain rfl := covers_zero.mp hq
    exact ⟨rfl, rfl, by rwa [(hmove.trans hmove').pfnMax]⟩
  · exact (hmove.trans hmove').zi p
  · rw [hzp, hmtp]
    have h1 := classPages_retracted (p := blockOf o p) (h.order_le hp) hcount z m
    rw [h1, ← hpages z m]

end AreaInv

end Oxide.Buddy
