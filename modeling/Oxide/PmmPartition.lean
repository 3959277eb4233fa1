/-
What holds in every state the memory manager can reach.

The free lists are read as the code reads them, by following the links from the heads.

* **`Sys.run_partition`**: every seeded page has exactly one owner: a live block, a free list, a
  pageset or the reserved pages; the counters add up and never run below zero;
* **`Sys.run_coherent`**: lists, bitmaps, counts and the pageblock map agree;
* **`Sys.run_coalesced`**: no two free halves of one class remain unmerged, so free memory is
  covered by as few blocks as possible.
-/
import Oxide.PmmSystem
import Mathlib.Data.List.ProdSigma

namespace Oxide.Buddy

open DyadicBlock IntrusiveList List
open Pmm (UsableRegion)

variable {own : ℕ → Owner Holder}

/-! ### Reading the lists -/

/-- The blocks on a free list, in order. -/
def FreeArea.freeBlocks (a : FreeArea) (k : ListKey) : List ℕ :=
  follow a.next (a.freeCount k) (a.freeHeads k)

/-- The pages in a pageset, in order. -/
def Pmm.cachedPfns (s : Pmm) (k : PcpKey) : List ℕ :=
  follow s.area.next (s.pcp k).count (s.pcp k).head

def ListKey.all : List ListKey :=
  ((ZoneType.all ×ˢ MigrateType.all) ×ˢ List.range (MAX_ORDER + 1)).map
    fun x => ⟨x.1.1, x.1.2, x.2⟩

def PcpKey.all : List PcpKey := ZoneType.all.flatMap Pmm.keysOf

theorem ListKey.nodup_all : ListKey.all.Nodup := by
  refine List.Nodup.map (fun x y h => ?_)
    ((List.Nodup.product (by decide) (by decide)).product nodup_range)
  simp only [ListKey.mk.injEq] at h
  exact Prod.ext (Prod.ext h.1 h.2.1) h.2.2

theorem ListKey.mem_all {k : ListKey} : k ∈ ListKey.all ↔ k.order ≤ MAX_ORDER := by
  have hz : ∀ z : ZoneType, z ∈ ZoneType.all := fun z => by cases z <;> decide
  have hm : ∀ m : MigrateType, m ∈ MigrateType.all := fun m => by cases m <;> decide
  obtain ⟨z, m, o⟩ := k
  simp only [ListKey.all, mem_map, ListKey.mk.injEq]
  constructor
  · rintro ⟨⟨⟨z', m'⟩, o'⟩, hx, -, -, rfl⟩
    exact Nat.lt_succ_iff.mp (mem_range.mp (pair_mem_product.mp hx).2)
  intro ho
  refine ⟨((z, m), o), pair_mem_product.mpr ⟨pair_mem_product.mpr ⟨hz z, hm m⟩, ?_⟩, rfl, rfl, rfl⟩
  exact mem_range.mpr (Nat.lt_succ_iff.mpr ho)

theorem PcpKey.mem_all (k : PcpKey) : k ∈ PcpKey.all :=
  mem_flatMap.mpr ⟨k.zone, by cases k.zone <;> decide, mem_keysOf.mpr rfl⟩

theorem PcpKey.nodup_all : PcpKey.all.Nodup := by
  rw [PcpKey.all, nodup_flatMap]
  have hne : ZoneType.all.Pairwise (· ≠ ·) := by decide
  refine ⟨fun z _ => nodup_keysOf z, hne.imp fun {z z'} hz k hk hk' => ?_⟩
  exact hz ((mem_keysOf.mp hk).symm.trans (mem_keysOf.mp hk'))

/-- The free list of `k`, as the links have it. -/
theorem AreaInv.mem_freeBlocks {η : Type} {a : FreeArea} {own : ℕ → Owner η} (h : AreaInv a own)
    {k : ListKey} {p : ℕ} :
    p ∈ a.freeBlocks k ↔ own p = .buddy k.order p ∧ a.zi p = k.zone ∧ a.migratetype p = k.mt := by
  obtain ⟨L, hL, hlen, hmem⟩ := h.lists
  rw [FreeArea.freeBlocks, hlen, (hL.sList k).follow_eq]
  exact hmem k p

theorem AreaInv.nodup_freeBlocks {η : Type} {a : FreeArea} {own : ℕ → Owner η}
    (h : AreaInv a own) (k : ListKey) : (a.freeBlocks k).Nodup := by
  obtain ⟨L, hL, hlen, -⟩ := h.lists
  rw [FreeArea.freeBlocks, hlen, (hL.sList k).follow_eq]
  exact hL.nodup k

theorem PagesInv.cachedPfns {s : Pmm} (h : PagesInv s.area s.pcp s.pcpBitmap own) (k : PcpKey) :
    (s.cachedPfns k).Nodup ∧ ∀ q, q ∈ s.cachedPfns k ↔ own q = .held (.cached k) := by
  obtain ⟨l, hl, hmem⟩ := h.cached k
  have he : s.cachedPfns k = l := by
    rw [Pmm.cachedPfns, ← hl.length, hl.linked.follow_eq]
  rw [he]
  exact ⟨hl.nodup, hmem⟩

/-! ### One owner for every page -/

theorem countP_eq_one {α : Type} [DecidableEq α] {l : List α} (hl : l.Nodup) {P : α → Bool} {x : α}
    (hx : x ∈ l) (hP : ∀ y ∈ l, (P y = true ↔ y = x)) : l.countP P = 1 := by
  rw [← count_eq_one_of_mem hl hx]
  exact countP_congr fun y hy => by simp [hP y hy]

theorem sum_eq_one {ι : Type} [DecidableEq ι] {l : List ι} (hl : l.Nodup) {f : ι → ℕ} {i : ι}
    (hi : i ∈ l) (h1 : f i = 1) (h0 : ∀ j ∈ l, j ≠ i → f j = 0) : (l.map f).sum = 1 := by
  rw [sum_map_add_of_eq hl (d := 1) hi (by rw [h1]) h0]
  simp

/-- How many of the owners have the page, counted over everything the manager and its callers
keep. -/
def Sys.owners (s : Sys) (q : ℕ) : ℕ :=
  s.live.countP (fun b => decide (Covers b.1 b.2 q)) + (ListKey.all.map fun k =>
      (s.pmm.area.freeBlocks k).countP fun p => decide (Covers k.order p q)).sum +
    (PcpKey.all.map fun k => (s.pmm.cachedPfns k).count q).sum +
    s.reserved.count q

section

variable {s : Pmm} {own : ℕ → Owner Holder} {live : List (ℕ × ℕ)} {resv : List ℕ} {q : ℕ}
  (h : Inv s own live resv)
include h

/-- The live blocks that hold a page. -/
theorem Inv.countP_live :
    live.countP (fun b => decide (Covers b.1 b.2 q)) =
      match own q with
      | .held (.live _ _) => 1
      | _ => 0 := by
  have hiff : ∀ b ∈ live, (decide (Covers b.1 b.2 q) = true ↔ own q = .held (.live b.1 b.2)) := by
    intro b hb
    rw [decide_eq_true_iff]
    exact ⟨(h.liveAt hb).2.whole q, fun hq => (h.pages.live q _ _ hq).1⟩
  by_cases hq : ∃ o p, own q = .held (.live o p)
  · obtain ⟨o, p, hq⟩ := hq
    have hmem : (o, p) ∈ live := by
      rw [h.ghost.liveMem]
      exact (h.pages.live q o p hq).2.whole p (covers_self o p)
    rw [hq]
    refine countP_eq_one h.ghost.liveNodup hmem fun b hb => ?_
    rw [hiff b hb, hq]
    simp [Prod.ext_iff, eq_comm]
  have hzero : live.countP (fun b => decide (Covers b.1 b.2 q)) = 0 := by
    rw [countP_eq_zero]
    exact fun b hb hc => hq ⟨b.1, b.2, (hiff b hb).mp hc⟩
  rw [hzero]
  split
  · rename_i o p hown
    exact absurd ⟨o, p, hown⟩ hq
  · rfl

/-- The free lists that hold a page. -/
theorem Inv.sum_free :
    (ListKey.all.map fun k =>
      (s.area.freeBlocks k).countP fun p => decide (Covers k.order p q)).sum =
      match own q with
      | .buddy _ _ => 1
      | _ => 0 := by
  have ha := h.pages.area
  have hcov : ∀ {k p}, p ∈ s.area.freeBlocks k → Covers k.order p q → own q = .buddy k.order p :=
    fun hp hc => ha.whole (ha.mem_freeBlocks.mp hp).1 q hc
  by_cases hq : ∃ o b, own q = .buddy o b
  · obtain ⟨o, b, hq⟩ := hq
    have hb := ha.whole hq b (covers_self o b)
    rw [hq]
    refine sum_eq_one ListKey.nodup_all (i := ⟨s.area.zi b, s.area.migratetype b, o⟩)
      (ListKey.mem_all.mpr (ha.order_le hq)) ?_ (fun k _ hk => ?_)
    · refine countP_eq_one (ha.nodup_freeBlocks _) (ha.mem_freeBlocks.mpr ⟨hb, rfl, rfl⟩)
        fun p hp => ?_
      rw [decide_eq_true_iff]
      constructor
      · intro hc
        have := hcov hp hc
        rw [hq] at this
        simpa [eq_comm] using this
      · rintro rfl
        exact ha.covers hq
    rw [countP_eq_zero]
    intro p hp hc
    have hown := hcov hp (of_decide_eq_true hc)
    rw [hq] at hown
    obtain ⟨rfl, rfl⟩ : o = k.order ∧ b = p := by simpa using hown
    obtain ⟨-, hz, hm⟩ := ha.mem_freeBlocks.mp hp
    exact hk (by rw [hz, hm])
  have hzero : ∀ k, ((s.area.freeBlocks k).countP fun p => decide (Covers k.order p q)) = 0 := by
    intro k
    rw [countP_eq_zero]
    exact fun p hp hc => hq ⟨_, _, hcov hp (of_decide_eq_true hc)⟩
  rw [sum_eq_zero (by simp [hzero])]
  split
  · rename_i o b hown
    exact absurd ⟨o, b, hown⟩ hq
  · rfl

/-- The pagesets that hold a page. -/
theorem Inv.sum_cached :
    (PcpKey.all.map fun k => (s.cachedPfns k).count q).sum =
      match own q with
      | .held (.cached _) => 1
      | _ => 0 := by
  by_cases hq : ∃ k, own q = .held (.cached k)
  · obtain ⟨k, hq⟩ := hq
    rw [hq]
    refine sum_eq_one PcpKey.nodup_all (PcpKey.mem_all k) ?_ (fun k' _ hk => ?_)
    · exact count_eq_one_of_mem (h.pages.cachedPfns k).1 (((h.pages.cachedPfns k).2 q).mpr hq)
    · rw [count_eq_zero, (h.pages.cachedPfns k').2, hq]
      simpa [eq_comm] using hk
  have hzero : ∀ k, (s.cachedPfns k).count q = 0 := by
    intro k
    rw [count_eq_zero, (h.pages.cachedPfns k).2]
    exact fun hk => hq ⟨k, hk⟩
  rw [sum_eq_zero (by simp [hzero])]
  split
  · rename_i k hown
    exact absurd ⟨k, hown⟩ hq
  · rfl

theorem Inv.count_reserved :
    resv.count q = match own q with
      | .held .reserved => 1
      | _ => 0 := by
  by_cases hq : own q = .held .reserved
  · rw [count_eq_one_of_mem h.ghost.resvNodup ((h.ghost.resvMem q).mpr hq), hq]
  rw [count_eq_zero.mpr (fun hm => hq ((h.ghost.resvMem q).mp hm))]
  split
  · rename_i hown
    exact absurd hown hq
  · rfl

/-- The counters add up to the pages seeded at construction. -/
theorem Inv.free_add_allocated :
    (ZoneType.all.map s.pcpFree).sum ≤ s.allocated ∧
      s.freePages + s.allocatedPages = s.initialFree := by
  have hc := h.counters
  have hman : (ZoneType.all.map s.managed).sum = (ZoneType.all.map s.zoneFree).sum +
      (ZoneType.all.map (livePages s.area.layout live)).sum := by
    have hfun : s.managed = fun z => s.zoneFree z + livePages s.area.layout live z :=
      funext hc.managed
    rw [hfun, sum_map_add]
  have h1 := hc.allocated
  have h2 := hc.initialFree
  rw [Pmm.freePages, Pmm.allocatedPages]
  omega

end

namespace Sys

variable {regions : List UsableRegion} {mem : ℕ → FreeNode} {limits : Option ZoneLimits}
  {pmm : Pmm} {xs : List Action} {s : Sys}

theorem GoodWith.owners (h : s.GoodWith regions own) (q : ℕ) :
    s.owners q = if UsableRegion.covers regions q = true then 1 else 0 := by
  have hout := h.outside q
  rw [Sys.owners, h.inv.countP_live, h.inv.sum_free, h.inv.sum_cached, h.inv.count_reserved]
  have hl := h.inv.ghost.notLoose q
  have hs := h.inv.ghost.notStaged q
  cases hown : own q with
  | loose => exact absurd hown hl
  | buddy => simp_all
  | held w => cases w <;> simp_all

theorem good_of_run (h : Pmm.initZoned mem regions limits = .ok (.ok pmm))
    (hv : Along Action.Valid xs (start pmm)) (hrun : run xs (start pmm) = .ok s) :
    s.Good regions := by
  rcases (good_start h).run hv with ⟨-, s', hs', hg⟩ | ⟨-, hs'⟩
  · rw [hrun] at hs'
    obtain rfl : s = s' := by simpa using hs'
    exact hg
  · cases hrun.symm.trans hs'

/-- **The partition of memory.**  In every state a run reaches, each seeded page has exactly one
owner among the live blocks, the free lists, the pagesets and the reserved pages, and the other
pages have none; free and allocated pages add up to the pages seeded; and no run, whether or not
it fails a self-check, takes more from a counter than there is. -/
theorem run_partition (h : Pmm.initZoned mem regions limits = .ok (.ok pmm))
    (hv : Along Action.Valid xs (start pmm)) :
    (∀ s, run xs (start pmm) = .ok s →
      (∀ q, s.owners q = if UsableRegion.covers regions q = true then 1 else 0) ∧
      (ZoneType.all.map s.pmm.pcpFree).sum ≤ s.pmm.allocated ∧
      s.pmm.freePages + s.pmm.allocatedPages = s.pmm.initialFree) ∧
    ∀ counter, run xs (start pmm) ≠ .error (.underflow counter) := by
  constructor
  · intro s hrun
    obtain ⟨own, hg⟩ := good_of_run h hv hrun
    exact ⟨hg.owners, hg.inv.free_add_allocated⟩
  · rcases (good_start h).run hv with ⟨-, s', hrun, -⟩ | ⟨-, hrun⟩
    · simp [hrun]
    · simp [hrun, wrongMigratetype]

/-- The first of eight pages after a page has been handed out. -/
theorem eightPages_owner : ∃ pmm s, eightPages = .ok (.ok pmm) ∧
    run (onePage 0) (start pmm) = .ok s ∧ s.owners 0 = 1 := by
  obtain ⟨pmm, s, hpmm, hrun⟩ := eightPages_serves
  have hpart := run_partition hpmm (onePage_valid 0 (start pmm))
  exact ⟨pmm, s, hpmm, hrun, (hpart.1 s hrun).1 0⟩

end Sys

/-! ### Lists and bitmaps -/

/-- Lists, bitmaps, counts, zones and the pageblock map agree. -/
structure Pmm.Coherent (s : Pmm) : Prop where
  /-- A set bit is a block on exactly one list: that of its zone, its class and its order. -/
  bit_iff : ∀ o p, Aligned o p → (s.area.bitmaps o (p >>> o) = true ↔
    ∀ k, p ∈ s.area.freeBlocks k ↔ k = ⟨s.area.zi p, s.area.migratetype p, o⟩)
  bit_of_mem : ∀ k p, p ∈ s.area.freeBlocks k →
    Aligned k.order p ∧ s.area.bitmaps k.order (p >>> k.order) = true
  /-- Each list is finite, acyclic and linked both ways, and ends with the null page. -/
  linked : ∀ k, Linked PFN_NULL s.area.next s.area.prev PFN_NULL (s.area.freeBlocks k) ∧
    s.area.freeHeads k = (s.area.freeBlocks k).head?.getD PFN_NULL ∧
    (s.area.freeBlocks k).Nodup ∧ PFN_NULL ∉ s.area.freeBlocks k ∧
    (s.area.freeBlocks k).length = s.area.freeCount k
  inZone : ∀ k p, p ∈ s.area.freeBlocks k → ∀ q, Covers k.order p q →
    s.area.layout.indexOf q = some k.zone
  oneOrder : ∀ q o o', s.area.bitmaps o (q >>> o) = true → s.area.bitmaps o' (q >>> o') = true →
    o = o'
  notCached : ∀ q o, s.area.bitmaps o (q >>> o) = true → s.pcpBitmap q = false

theorem Inv.coherent {s : Pmm} {live : List (ℕ × ℕ)} {resv : List ℕ} (h : Inv s own live resv) :
    s.Coherent := by
  have ha := h.pages.area
  have hbit : ∀ {o p}, Aligned o p → (s.area.bitmaps o (p >>> o) = true ↔ own p = .buddy o p) := by
    intro o p hal
    rw [ha.bits, hal.shift_eq]
  refine ⟨fun o p hal => ?_, fun k p hp => ?_, fun k => ?_, fun k p hp q hq => ?_,
    fun q o o' hb hb' => ?_, fun q o hb => ?_⟩
  · rw [hbit hal]
    constructor
    · intro hp k
      rw [ha.mem_freeBlocks, hp]
      obtain ⟨z, m, o'⟩ := k
      simp only [Owner.buddy.injEq, and_true, ListKey.mk.injEq]
      constructor
      · rintro ⟨rfl, rfl, rfl⟩
        exact ⟨rfl, rfl, rfl⟩
      · rintro ⟨rfl, rfl, rfl⟩
        exact ⟨rfl, rfl, rfl⟩
    · intro hk
      exact (ha.mem_freeBlocks.mp ((hk _).mpr rfl)).1
  · have hp' := (ha.mem_freeBlocks.mp hp).1
    have hal := ha.aligned hp'
    exact ⟨hal, (hbit hal).mpr hp'⟩
  · obtain ⟨L, hL, hlen, -⟩ := ha.lists
    have he : s.area.freeBlocks k = L k := by
      rw [FreeArea.freeBlocks, hlen, (hL.sList k).follow_eq]
    rw [he]
    exact ⟨hL.linked k, hL.head_eq k, hL.nodup k, hL.null_notMem k, (hlen k).symm⟩
  · obtain ⟨hp', hz, -⟩ := ha.mem_freeBlocks.mp hp
    obtain ⟨hzq, -, hlt⟩ := ha.uniform hp' q hq
    rw [ha.tiles.indexOf_zi hlt]
    exact congrArg some (hzq.trans hz)
  · have h1 := ha.own_of_bit hb
    have h2 := ha.own_of_bit hb'
    rw [h1] at h2
    exact (Owner.buddy.inj h2).1
  · rw [← Bool.not_eq_true, h.pages.marked]
    rintro ⟨k, hk⟩
    cases (ha.own_of_bit hb).symm.trans hk

/-! ### Coalescing -/

section

variable {η : Type} {a : FreeArea} {own : ℕ → Owner η}

/-- In coalesced lists, an aligned block of free pages of one kind lies in one free block. -/
theorem AreaInv.inside_one_block (h : AreaInv a own) (hc : Coalesced a own) {z : ZoneType}
    {m : MigrateType} {o p : ℕ} (ho : o ≤ MAX_ORDER) (hal : Aligned o p)
    (hfree : ∀ q, Covers o p q → (∃ o' b, own q = .buddy o' b) ∧ a.zi q = z ∧ a.migratetype q = m) :
    ∃ o' b, ∀ q, Covers o p q → own q = .buddy o' b := by
  -- by induction on the order: the two halves lie in one block each
  induction o generalizing p with
  | zero =>
    obtain ⟨⟨o', b, hown⟩, -⟩ := hfree p (covers_self 0 p)
    exact ⟨o', b, fun q hq => by rw [covers_zero.mp hq, hown]⟩
  | succ o ih =>
  have hlow : ∀ q, Covers o p q → Covers (o + 1) p q := fun q hq => covers_succ.mpr (.inl hq)
  have hupp : ∀ q, Covers o (p + 2 ^ o) q → Covers (o + 1) p q :=
    fun q hq => covers_succ.mpr (.inr hq)
  have hal' := hal.mono (Nat.le_succ o)
  obtain ⟨o1, b1, h1⟩ := ih (by omega) hal' (fun q hq => hfree q (hlow q hq))
  obtain ⟨o2, b2, h2⟩ := ih (by omega) hal.upperHalf (fun q hq => hfree q (hupp q hq))
  have hp := h1 p (covers_self o p)
  have hu := h2 _ (covers_self o (p + 2 ^ o))
  -- a block that holds one half and is larger holds the other
  have hbig : ∀ {o' b q}, own q = .buddy o' b → Covers (o + 1) p q → o < o' →
      ∃ o' b, ∀ q, Covers (o + 1) p q → own q = .buddy o' b := by
    intro o' b q hq hcq hlt
    refine ⟨o', b, fun x hx => h.whole hq x ?_⟩
    exact covers_of_meet hal (h.aligned hq) hlt hcq (h.covers hq) hx
  by_cases hlt1 : o < o1
  · exact hbig hp (hlow p (covers_self o p)) hlt1
  by_cases hlt2 : o < o2
  · exact hbig hu (hupp _ (covers_self o _)) hlt2
  -- otherwise the halves are free blocks themselves, and should have been merged
  obtain rfl : o1 = o := by
    have := order_le_of_covers (fun q hq => h.covers (h1 q hq))
    omega
  obtain rfl : o2 = o1 := by
    have := order_le_of_covers (fun q hq => h.covers (h2 q hq))
    omega
  obtain rfl := eq_of_meet (h.aligned hp) hal' (h.covers hp) (covers_self _ p)
  obtain rfl := eq_of_meet (h.aligned hu) hal.upperHalf (h.covers hu) (covers_self _ _)
  obtain ⟨-, hzp, hmp⟩ := hfree _ (hlow _ (covers_self _ _))
  obtain ⟨-, hzu, hmu⟩ := hfree _ (hupp _ (covers_self _ _))
  exact absurd (hmu.trans hmp.symm)
    (h.coalesced_iff.mp hc _ _ (by omega) hal hp hu (hzu.trans hzp.symm))

end

/-! ### Fewest blocks -/

/-- A page on the free lists of zone `z` and class `m`. -/
def Pmm.FreeOf (s : Pmm) (z : ZoneType) (m : MigrateType) (q : ℕ) : Prop :=
  s.globallyFree q = true ∧ s.area.zi q = z ∧ s.area.migratetype q = m

instance (s : Pmm) (z : ZoneType) (m : MigrateType) (q : ℕ) : Decidable (s.FreeOf z m q) :=
  inferInstanceAs (Decidable (_ ∧ _ ∧ _))

/-- `[lo, hi)` is a maximal run of free pages of one zone and one class. -/
structure Pmm.MaximalRun (s : Pmm) (z : ZoneType) (m : MigrateType) (lo hi : ℕ) : Prop where
  free : ∀ q, lo ≤ q → q < hi → s.FreeOf z m q
  left : ∀ q, q + 1 = lo → ¬ s.FreeOf z m q
  right : ¬ s.FreeOf z m hi

/-- Aligned blocks that make up `[lo, hi)`. -/
structure BlockCover (lo hi : ℕ) (bs : List (ℕ × ℕ)) : Prop where
  inside : ∀ b ∈ bs, b.1 ≤ MAX_ORDER ∧ Aligned b.1 b.2 ∧ lo ≤ b.2 ∧ b.2 + 2 ^ b.1 ≤ hi
  covers : ∀ q, lo ≤ q → q < hi → ∃ b ∈ bs, Covers b.1 b.2 q

/-- The blocks of the free lists of `z` and `m` that start in `[lo, hi)`. -/
def Pmm.blocksIn (s : Pmm) (z : ZoneType) (m : MigrateType) (lo hi : ℕ) : List (ℕ × ℕ) :=
  (List.range (MAX_ORDER + 1)).flatMap fun o =>
    ((s.area.freeBlocks ⟨z, m, o⟩).filter fun p => decide (lo ≤ p ∧ p < hi)).map fun p => (o, p)

section

variable {s : Pmm} {own : ℕ → Owner Holder} {live : List (ℕ × ℕ)} {resv : List ℕ} {z : ZoneType}
  {m : MigrateType} {lo hi : ℕ} (h : Inv s own live resv)
include h

theorem Inv.mem_blocksIn {o p : ℕ} :
    (o, p) ∈ s.blocksIn z m lo hi ↔
      own p = .buddy o p ∧ s.area.zi p = z ∧ s.area.migratetype p = m ∧ lo ≤ p ∧ p < hi := by
  simp only [Pmm.blocksIn, mem_flatMap, mem_range, mem_map, mem_filter,
    h.pages.area.mem_freeBlocks, decide_eq_true_iff, Prod.mk.injEq]
  constructor
  · rintro ⟨o', -, p', ⟨⟨hown, hz, hm⟩, hr⟩, rfl, rfl⟩
    exact ⟨hown, hz, hm, hr⟩
  · rintro ⟨hown, hz, hm, hr⟩
    exact ⟨o, Nat.lt_succ_iff.mpr (h.pages.area.order_le hown), p, ⟨⟨hown, hz, hm⟩, hr⟩, rfl, rfl⟩

theorem Inv.nodup_blocksIn : (s.blocksIn z m lo hi).Nodup := by
  rw [Pmm.blocksIn, nodup_flatMap]
  refine ⟨fun o _ => ?_, nodup_range.imp fun {o o'} hne b hb hb' => ?_⟩
  · exact ((h.pages.area.nodup_freeBlocks _).filter _).map fun p p' he => (Prod.mk.inj he).2
  · obtain ⟨_, -, rfl⟩ := mem_map.mp hb
    obtain ⟨_, -, he⟩ := mem_map.mp hb'
    exact hne (Prod.mk.inj he).1.symm

theorem Inv.freeOf_iff {q : ℕ} :
    s.FreeOf z m q ↔ (∃ o b, own q = .buddy o b) ∧ s.area.zi q = z ∧ s.area.migratetype q = m := by
  rw [Pmm.FreeOf, Inv.globallyFree_iff h.pages.area]

/-- The free blocks that meet a maximal run make it up. -/
theorem Inv.blocksIn_cover (hr : s.MaximalRun z m lo hi) :
    BlockCover lo hi (s.blocksIn z m lo hi) := by
  have ha := h.pages.area
  -- all pages of a free block are of one kind, so it cannot stick out of the run
  have hkind : ∀ {o b q x},
      own q = .buddy o b → s.FreeOf z m q → Covers o b x → s.FreeOf z m x := by
    intro o b q x hq hf hx
    obtain ⟨-, hz, hm⟩ := h.freeOf_iff.mp hf
    obtain ⟨hzq, hmq, -⟩ := ha.uniform hq q (ha.covers hq)
    obtain ⟨hzx, hmx, -⟩ := ha.uniform hq x hx
    exact h.freeOf_iff.mpr ⟨⟨o, b, ha.whole hq x hx⟩, (hzx.trans hzq.symm).trans hz,
      (hmx.trans hmq.symm).trans hm⟩
  have hin : ∀ {o b q}, own q = .buddy o b → lo ≤ q → q < hi → lo ≤ b ∧ b + 2 ^ o ≤ hi := by
    intro o b q hq h1 h2
    have hf := hr.free q h1 h2
    have hcov := ha.covers hq
    constructor
    · by_contra hlt
      exact hr.left (lo - 1) (by omega) (hkind hq hf ⟨by omega, by have := hcov.2; omega⟩)
    · by_contra hgt
      exact hr.right (hkind hq hf ⟨by have := hcov.1; omega, by omega⟩)
  refine ⟨fun ⟨o, p⟩ hb => ?_, fun q h1 h2 => ?_⟩
  · obtain ⟨hown, -, -, h1, h2⟩ := h.mem_blocksIn.mp hb
    exact ⟨ha.order_le hown, ha.aligned hown, hin hown h1 h2⟩
  obtain ⟨⟨o, b, hq⟩, hz, hm⟩ := h.freeOf_iff.mp (hr.free q h1 h2)
  obtain ⟨hb1, hb2⟩ := hin hq h1 h2
  obtain ⟨hzq, hmq, -⟩ := ha.uniform hq q (ha.covers hq)
  have hpos := Nat.two_pow_pos o
  refine ⟨(o, b), h.mem_blocksIn.mpr ⟨ha.whole hq b (covers_self o b), hzq.symm.trans hz,
    hmq.symm.trans hm, hb1, by omega⟩, ha.covers hq⟩

/-- No other aligned blocks make up the run in smaller number. -/
theorem Inv.blocksIn_minimal (hc : Coalesced s.area own) (hr : s.MaximalRun z m lo hi)
    {bs : List (ℕ × ℕ)} (hbs : BlockCover lo hi bs) :
    (s.blocksIn z m lo hi).length ≤ bs.length := by
  have ha := h.pages.area
  -- send each free block to a block of the cover that holds its first page
  have hex : ∀ b : ℕ × ℕ, ∃ c, b ∈ s.blocksIn z m lo hi → c ∈ bs ∧ Covers c.1 c.2 b.2 := by
    intro b
    by_cases hb : b ∈ s.blocksIn z m lo hi
    · obtain ⟨-, -, -, h1, h2⟩ := h.mem_blocksIn.mp hb
      obtain ⟨c, hc, hcov⟩ := hbs.covers b.2 h1 h2
      exact ⟨c, fun _ => ⟨hc, hcov⟩⟩
    · exact ⟨b, fun hb' => absurd hb' hb⟩
  choose f hf using hex
  -- that block lies in one free block, so it comes from no other
  have hinj : ∀ b ∈ s.blocksIn z m lo hi, ∀ b' ∈ s.blocksIn z m lo hi, f b = f b' → b = b' := by
    intro b hb b' hb' he
    obtain ⟨hm1, hcov⟩ := hf b hb
    obtain ⟨-, hcov'⟩ := hf b' hb'
    rw [← he] at hcov'
    obtain ⟨hle, hal, hlo, hhi⟩ := hbs.inside _ hm1
    obtain ⟨o', p', hone⟩ := ha.inside_one_block hc hle hal (fun q hq =>
      h.freeOf_iff.mp (hr.free q (by have := hq.1; omega) (by have := hq.2; omega)))
    have e1 := (h.mem_blocksIn.mp hb).1
    have e2 := (h.mem_blocksIn.mp hb').1
    rw [hone _ hcov] at e1
    rw [hone _ hcov'] at e2
    obtain ⟨rfl, h3⟩ : o' = b.1 ∧ p' = b.2 := by simpa using e1
    obtain ⟨h4, h5⟩ : b.1 = b'.1 ∧ p' = b'.2 := by simpa using e2
    exact Prod.ext h4 (h3.symm.trans h5)
  have hnd : ((s.blocksIn z m lo hi).map f).Nodup :=
    List.Nodup.map_on (fun b hb b' hb' he => hinj b hb b' hb' he) h.nodup_blocksIn
  have hsub : (s.blocksIn z m lo hi).map f ⊆ bs := by
    intro c hc
    obtain ⟨b, hb, rfl⟩ := mem_map.mp hc
    exact (hf b hb).1
  have hlen := (hnd.subperm hsub).length_le
  rwa [length_map] at hlen

end

namespace Sys

variable {regions : List UsableRegion} {mem : ℕ → FreeNode} {limits : Option ZoneLimits}
  {pmm : Pmm} {xs : List Action} {s : Sys}

/-- **Coherence** of lists, bitmaps, counts and the pageblock map in every state reached. -/
theorem run_coherent (h : Pmm.initZoned mem regions limits = .ok (.ok pmm))
    (hv : Along Action.Valid xs (start pmm)) (hrun : run xs (start pmm) = .ok s) :
    s.pmm.Coherent := by
  obtain ⟨own, hg⟩ := good_of_run h hv hrun
  exact hg.inv.coherent

theorem eightPages_coherent : ∃ pmm s, eightPages = .ok (.ok pmm) ∧
    run (onePage 0) (start pmm) = .ok s ∧ s.pmm.Coherent := by
  obtain ⟨pmm, s, hpmm, hrun⟩ := eightPages_serves
  exact ⟨pmm, s, hpmm, hrun, run_coherent hpmm (onePage_valid 0 (start pmm)) hrun⟩

/-- **Coalescing.**  Over regions that do not touch, no state reached has two free halves of one
zone and one class, and each maximal run of free pages of one zone and one class is made up by
its free blocks, fewer than which would not do. -/
theorem run_coalesced (h : Pmm.initZoned mem regions limits = .ok (.ok pmm))
    (hap : regions.Pairwise UsableRegion.Apart) (hv : Along Action.Valid xs (start pmm))
    (hrun : run xs (start pmm) = .ok s) :
    (∀ o p, o < MAX_ORDER → Aligned o p → s.pmm.area.bitmaps o (p >>> o) = true →
      s.pmm.area.bitmaps o (buddyOf o p >>> o) = true →
      s.pmm.area.zi (buddyOf o p) = s.pmm.area.zi p →
      s.pmm.area.migratetype (buddyOf o p) ≠ s.pmm.area.migratetype p) ∧
    ∀ z m lo hi, s.pmm.MaximalRun z m lo hi →
      BlockCover lo hi (s.pmm.blocksIn z m lo hi) ∧
      ∀ bs, BlockCover lo hi bs → (s.pmm.blocksIn z m lo hi).length ≤ bs.length := by
  obtain ⟨own, hg⟩ := good_of_run h hv hrun
  have hc := hg.coalesced hap
  have ha := hg.inv.pages.area
  refine ⟨fun o p hlt hal hb hb' hz => ?_, fun z m lo hi hr => ⟨hg.inv.blocksIn_cover hr,
    fun bs hbs => hg.inv.blocksIn_minimal hc hr hbs⟩⟩
  rw [ha.bits, hal.shift_eq] at hb
  rw [ha.bits, hal.buddyOf.shift_eq] at hb'
  exact hc o p hlt hb hb' hz

/-- One of the eight pages is handed out; the other seven are a maximal run, of fewest blocks. -/
theorem eightPages_coalesced : ∃ pmm s, eightPages = .ok (.ok pmm) ∧
    run (onePage 0) (start pmm) = .ok s ∧ s.pmm.MaximalRun .normal .unmovable 1 8 ∧
    BlockCover 1 8 (s.pmm.blocksIn .normal .unmovable 1 8) ∧
    ∀ bs, BlockCover 1 8 bs → (s.pmm.blocksIn .normal .unmovable 1 8).length ≤ bs.length := by
  obtain ⟨pmm, s, hpmm, hrun⟩ := eightPages_serves
  have hfree : (eightPagesPmm?.bind fun pmm => (run (onePage 0) (start pmm)).toOption).any (fun s =>
      decide (∀ q ∈ range 9, s.pmm.FreeOf .normal .unmovable q ↔ 1 ≤ q ∧ q < 8)) = true := by
    decide +kernel
  rw [eightPages_eq hpmm, Option.bind_some, hrun] at hfree
  have hfree := of_decide_eq_true hfree
  have hmax : s.pmm.MaximalRun .normal .unmovable 1 8 := by
    refine ⟨fun q h1 h2 => (hfree q (by simp; omega)).mpr ⟨h1, h2⟩, fun q hq h => ?_, fun h => ?_⟩
    · have := (hfree q (by simp; omega)).mp h
      omega
    · have := (hfree 8 (by simp)).mp h
      omega
  have hco := run_coalesced hpmm (pairwise_singleton _ _) (onePage_valid 0 (start pmm)) hrun
  exact ⟨pmm, s, hpmm, hrun, hmax, hco.2 _ _ _ _ hmax⟩

/-- **The counters of every zone are exact** in every state reached: its free pages are those on its
lists and in its pagesets, and it manages those and the pages of its live blocks. -/
theorem run_counters (h : Pmm.initZoned mem regions limits = .ok (.ok pmm))
    (hv : Along Action.Valid xs (start pmm)) (hrun : run xs (start pmm) = .ok s) :
    Counters s.pmm s.live := by
  obtain ⟨own, hg⟩ := good_of_run h hv hrun
  exact hg.inv.counters

theorem eightPages_counters : ∃ pmm s, eightPages = .ok (.ok pmm) ∧
    run (onePage 0) (start pmm) = .ok s ∧ Counters s.pmm s.live := by
  obtain ⟨pmm, s, hpmm, hrun⟩ := eightPages_serves
  exact ⟨pmm, s, hpmm, hrun, run_counters hpmm (onePage_valid 0 (start pmm)) hrun⟩

end Sys

end Oxide.Buddy
