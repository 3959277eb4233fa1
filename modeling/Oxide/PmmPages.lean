/-
Who holds each page: the page-level invariant of the memory manager.

Outside the buddy lists a page is `outside` the seeded memory, `staged` on a private list,
`cached` in a pageset, part of a `live` allocation or permanently `reserved`. `PagesInv` says
that the pagesets, their bitmap and the live blocks agree with that map.

* **`PageList`**: a singly linked pageset list in page memory, with its pops and pushes;
* **`PagesInv.takeBatch_spec`**: a batch leaves a pageset for a private list;
* **`PagesInv.drainLoop_spec`**: a private list is returned to the buddy lists;
* **`PagesInv.fillLoop_spec`**: a private list enters a pageset.
-/
import Oxide.Pmm

namespace Oxide.Buddy

open DyadicBlock IntrusiveList Function List FreeArea

variable {xs : List ℕ}

/-! ### Lists of single pages -/

/-- Only page contents differ, and only where `T` allows it. -/
structure MemOnly (a a' : FreeArea) (T : ℕ → Prop) : Prop where
  eq : a' = { a with mem := a'.mem }
  mem : ∀ q, ¬ T q → a'.mem q = a.mem q

namespace MemOnly

variable {a a' a'' : FreeArea} {T T' : ℕ → Prop}

theorem refl (a : FreeArea) (T : ℕ → Prop) : MemOnly a a T := ⟨rfl, fun _ _ => rfl⟩

section

variable (h : MemOnly a a' T)
include h

theorem trans (h' : MemOnly a' a'' T) : MemOnly a a'' T := by
  refine ⟨?_, fun q hq => (h'.mem q hq).trans (h.mem q hq)⟩
  rw [h'.eq, h.eq]

theorem imp (hT : ∀ q, T q → T' q) : MemOnly a a' T' :=
  ⟨h.eq, fun q hq => h.mem q (fun ht => hq (hT q ht))⟩

theorem sameMap : a.SameMap a' := by
  rw [h.eq]
  exact ⟨rfl, rfl, rfl⟩

theorem zoneFreePages (z : ZoneType) : a'.zoneFreePages z = a.zoneFreePages z := by
  rw [h.eq]
  rfl

/-- The buddy lists survive writes to pages that are not free. -/
theorem areaInv {η : Type} {own own' : ℕ → Owner η} (hinv : AreaInv a own)
    (hT : ∀ q o p, own q = .buddy o p → ¬ T q)
    (hown : ∀ q o p, own' q = .buddy o p ↔ own q = .buddy o p) : AreaInv a' own' := by
  refine hinv.congr h.sameMap ?_ ?_ ?_ (fun q o p hq => h.mem q (hT q o p hq)) hown
  all_goals rw [h.eq]

theorem coalesced {η : Type} {own own' : ℕ → Owner η}
    (hown : ∀ q o p, own' q = .buddy o p ↔ own q = .buddy o p) (hc : Coalesced a own) :
    Coalesced a' own' := by
  intro o p hlt hp hb
  rw [h.sameMap.zi, h.sameMap.zi, h.sameMap.migratetype, h.sameMap.migratetype]
  exact hc o p hlt ((hown ..).mp hp) ((hown ..).mp hb)

end

theorem stampBlock (a : FreeArea) (p order next prev : ℕ) (hp : T p) :
    MemOnly a (a.stampBlock p order next prev) T := by
  refine ⟨rfl, fun q hq => ?_⟩
  have hne : q ≠ p := fun he => hq (he ▸ hp)
  simp [FreeArea.stampBlock, FreeArea.writeNode, hne]

end MemOnly

/-- `list` holds the pages `l`, each with the header of a free single page. -/
structure PageList (a : FreeArea) (list : PcpList) (l : List ℕ) : Prop where
  linked : SList PFN_NULL a.next list.head l
  nodup : l.Nodup
  length : l.length = list.count
  lt : ∀ q ∈ l, q < a.pfnMax
  poison : ∀ q ∈ l, (a.mem q).poison = POISON_MAGIC
  order : ∀ q ∈ l, (a.mem q).order = 0

namespace PageList

variable {a a' : FreeArea} {list : PcpList} {l : List ℕ} {q : ℕ}

theorem empty (a : FreeArea) : PageList a .empty [] :=
  ⟨rfl, nodup_nil, rfl, by simp, by simp, by simp⟩

theorem congr (h : PageList a list l) (hmax : a'.pfnMax = a.pfnMax)
    (hmem : ∀ q ∈ l, a'.mem q = a.mem q) : PageList a' list l := by
  refine ⟨h.linked.congr fun q hq => congrArg FreeNode.next (hmem q hq), h.nodup, h.length,
    fun q hq => ?_, fun q hq => ?_, fun q hq => ?_⟩
  · rw [hmax]
    exact h.lt q hq
  · rw [hmem q hq]
    exact h.poison q hq
  · rw [hmem q hq]
    exact h.order q hq

theorem pop_nil (h : PageList a list []) : list.pop a = .ok none := by
  have hcount : list.count = 0 := h.length.symm
  rw [PcpList.pop, if_pos hcount]

/-- Popping a populated list passes its checks and yields the first page. -/
theorem pop_cons (h : PageList a list (q :: l)) :
    ∃ list', list.pop a = .ok (some (q, list')) ∧ PageList a list' l := by
  obtain ⟨hhead, hq0, hrest⟩ := h.linked
  have hcount : list.count = l.length + 1 := h.length.symm
  have hlt := h.lt q (by simp)
  have hnext : a.next q = PFN_NULL ∨ a.next q < a.pfnMax := by
    cases l with
    | nil => exact .inl hrest
    | cons x => exact .inr (hrest.1 ▸ h.lt x (by simp))
  have hself : a.next q ≠ q := by
    cases l with
    | nil => exact fun he => absurd (he ▸ hrest : q = PFN_NULL) hq0
    | cons x =>
    intro he
    have hx : q = x := he ▸ hrest.1
    exact (nodup_cons.mp h.nodup).1 (by simp [hx])
  refine ⟨⟨a.next q, l.length⟩, ?_, ⟨hrest, (nodup_cons.mp h.nodup).2, rfl,
    fun x hx => h.lt x (by simp [hx]), fun x hx => h.poison x (by simp [hx]),
    fun x hx => h.order x (by simp [hx])⟩⟩
  simp only [PcpList.pop, hhead, kassert_true hlt, kassert_true hnext, kassert_true hself, hcount]
  rfl

theorem push (h : PageList a list l) (hq : q ∉ l) (hlt : q < a.pfnMax) (hb : a.pfnMax ≤ PFN_NULL) :
    PageList (list.push a q).2 (list.push a q).1 (q :: l) := by
  have hne : ∀ x ∈ l, x ≠ q := fun x hx he => hq (he ▸ hx)
  have hold : PageList (list.push a q).2 list l := h.congr rfl (fun x hx => by
    simp [PcpList.push, stampBlock, writeNode, hne x hx])
  have hnode : (list.push a q).2.mem q = ⟨POISON_MAGIC, 0, list.head, PFN_NULL⟩ := by
    simp [PcpList.push, stampBlock, writeNode]
  refine ⟨⟨rfl, by omega, ?_⟩, nodup_cons.mpr ⟨hq, h.nodup⟩, ?_, ?_, ?_, ?_⟩
  · rw [FreeArea.next, hnode]
    exact hold.linked
  · rw [length_cons, h.length]
    rfl
  · exact forall_mem_cons.mpr ⟨hlt, hold.lt⟩
  · exact forall_mem_cons.mpr ⟨by rw [hnode], hold.poison⟩
  · exact forall_mem_cons.mpr ⟨by rw [hnode], hold.order⟩

theorem push_memOnly (list : PcpList) (a : FreeArea) {T : ℕ → Prop} (hq : T q) :
    MemOnly a (list.push a q).2 T :=
  MemOnly.stampBlock a q 0 list.head PFN_NULL hq

/-- Moving pages, one by one, from the front of one list to the front of another. -/
theorem takeLoop_spec {out : PcpList} {ys zs : List ℕ} (h : PageList a list (xs ++ ys))
    (hout : PageList a out zs) (hd : ∀ q ∈ xs ++ ys, q ∉ zs) (hb : a.pfnMax ≤ PFN_NULL) :
    ∃ list' out' a', PcpList.takeLoop xs.length list out a = .ok (list', out', a') ∧
      PageList a' list' ys ∧ PageList a' out' (xs.reverse ++ zs) ∧
      MemOnly a a' (fun q => q ∈ xs) := by
  induction xs generalizing a list out zs with
  | nil => exact ⟨list, out, a, rfl, h, hout, MemOnly.refl a _⟩
  | cons q xs ih =>
  obtain ⟨list1, hpop, hlist1⟩ := h.pop_cons
  have hqz : q ∉ zs := hd q (by simp)
  have hqrest : q ∉ xs ++ ys := (nodup_cons.mp h.nodup).1
  have hpush := hout.push hqz (h.lt q (by simp)) hb
  have hmem : MemOnly a (out.push a q).2 (fun x => x = q) := push_memOnly out a rfl
  have hlist2 : PageList (out.push a q).2 list1 (xs ++ ys) := hlist1.congr hmem.sameMap.pfnMax
    (fun x hx => hmem.mem x (fun he => hqrest (he ▸ hx)))
  obtain ⟨list', out', a', hrun, hl', ho', hm'⟩ := ih hlist2 hpush (fun x hx hmemx => by
      rcases mem_cons.mp hmemx with rfl | hxz
      · exact hqrest hx
      · exact hd x (by simpa using Or.inr (mem_append.mp hx)) hxz) hb
  refine ⟨list', out', a', ?_, hl', ?_, ?_⟩
  · rwa [length_cons, PcpList.takeLoop, hpop]
  · rwa [reverse_cons, append_assoc]
  · exact (hmem.imp fun x hx => by simp [hx]).trans (hm'.imp fun x hx => by simp [hx])

end PageList

/-! ### Holders -/

/-- The holders of pages outside the buddy lists. -/
inductive Holder
  | outside
  | staged
  | cached (k : PcpKey)
  | live (order pfn : ℕ)
  | reserved

/-- The list of the pageset `k` holds exactly the pages cached under `k`. -/
def CachedAt (a : FreeArea) (list : PcpList) (own : ℕ → Owner Holder) (k : PcpKey) : Prop :=
  ∃ l, PageList a list l ∧ ∀ q, q ∈ l ↔ own q = .held (.cached k)

/-- The block at `p` is live. -/
abbrev LiveAt (a : FreeArea) (own : ℕ → Owner Holder) (o p : ℕ) : Prop :=
  BlockAt a own o p (.held (.live o p))

/-- The buddy lists, the pagesets and the live blocks agree with the map of owners. -/
structure PagesInv (a : FreeArea) (pcp : PcpKey → PcpList) (bm : ℕ → Bool)
    (own : ℕ → Owner Holder) : Prop where
  area : AreaInv a own
  cached : ∀ k, CachedAt a (pcp k) own k
  kind : ∀ q k, own q = .held (.cached k) → a.zi q = k.zone ∧ a.migratetype q = k.mt
  marked : ∀ q, bm q = true ↔ ∃ k, own q = .held (.cached k)
  live : ∀ q o p, own q = .held (.live o p) → Covers o p q ∧ LiveAt a own o p

theorem CachedAt.congr {a a' : FreeArea} {list : PcpList} {own own' : ℕ → Owner Holder}
    {k : PcpKey} (h : CachedAt a list own k) (hmax : a'.pfnMax = a.pfnMax)
    (hmem : ∀ q, own q = .held (.cached k) → a'.mem q = a.mem q)
    (hown : ∀ q, own' q = .held (.cached k) ↔ own q = .held (.cached k)) :
    CachedAt a' list own' k := by
  obtain ⟨l, hl, hmeml⟩ := h
  exact ⟨l, hl.congr hmax fun q hq => hmem q ((hmeml q).mp hq),
    fun q => (hmeml q).trans (hown q).symm⟩

namespace PagesInv

variable {a a' : FreeArea} {pcp pcp' : PcpKey → PcpList} {bm bm' : ℕ → Bool}
  {own own' : ℕ → Owner Holder} {s : Pmm} {q o p : ℕ} {k key : PcpKey}

/-- Moves of the buddy lists do not disturb what is held outside them. -/
theorem move (h : PagesInv a pcp bm own) (hinv : AreaInv a' own') (hm : Move a own a' own') :
    PagesInv a' pcp bm own' := by
  refine ⟨hinv, fun k => (h.cached k).congr hm.pfnMax (fun q hq => hm.mem q _ hq)
    (fun q => hm.held q _), fun q k hq => ?_, fun q => ?_, fun q o p hq => ?_⟩
  · have hq' := (hm.held q _).mp hq
    rw [hm.zi, hm.mt q _ hq']
    exact h.kind q k hq'
  · rw [h.marked]
    exact exists_congr fun k => (hm.held q _).symm
  · obtain ⟨hc, hl⟩ := h.live q o p ((hm.held q _).mp hq)
    exact ⟨hc, hl.congr hm.pfnMax hm.zi (fun q hq => hm.mt q _ hq)
      (fun q hq => (hm.held q _).mpr hq)⟩

/-- A block changes hands as a whole, outside the buddy lists and the pagesets, and may be
written to. -/
theorem reassign {w : Owner Holder} (w' : Owner Holder) (h : PagesInv a pcp bm own)
    (hm : MemOnly a a' (Covers o p)) (hw : ∀ q, Covers o p q → own q = w)
    (hold : (∀ o p, w ≠ .buddy o p) ∧ (∀ k, w ≠ .held (.cached k)) ∧
      ∀ o' p', w = .held (.live o' p') → o' = o ∧ p' = p)
    (hnew : (∀ o p, w' ≠ .buddy o p) ∧ (∀ k, w' ≠ .held (.cached k)) ∧
      ∀ o' p', w' = .held (.live o' p') →
        o' = o ∧ p' = p ∧ o ≤ MAX_ORDER ∧ Aligned o p ∧ a.Uniform o p) :
    PagesInv a' pcp bm (assign own o p w') := by
  have hiff : ∀ {v}, w ≠ v → w' ≠ v → ∀ q, (assign own o p w' q = v ↔ own q = v) :=
    fun h1 h2 q => assign_eq_iff h2 fun q hq => (hw q hq).trans_ne h1
  have hs := hm.sameMap
  refine ⟨hm.areaInv h.area (fun q o' p' hq hc => hold.1 o' p' ((hw q hc).symm.trans hq))
    (fun q o' p' => hiff (hold.1 o' p') (hnew.1 o' p') q), fun k => ?_, fun q k hq => ?_,
    fun q => ?_, fun q o' p' hq => ?_⟩
  · exact (h.cached k).congr hs.pfnMax
      (fun q hq => hm.mem q fun hc => hold.2.1 k ((hw q hc).symm.trans hq))
      (hiff (hold.2.1 k) (hnew.2.1 k))
  · rw [hs.zi, hs.migratetype]
    exact h.kind q k ((hiff (hold.2.1 k) (hnew.2.1 k) q).mp hq)
  · rw [h.marked]
    exact exists_congr fun k => (hiff (hold.2.1 k) (hnew.2.1 k) q).symm
  by_cases hc : Covers o p q
  · rw [assign_of_covers hc] at hq
    obtain ⟨rfl, rfl, ho, hal, huni⟩ := hnew.2.2 o' p' hq
    exact ⟨hc, ho, hal, hs.uniform huni, fun x hx => (assign_of_covers hx).trans hq⟩
  rw [assign_of_not_covers hc] at hq
  obtain ⟨hcov, hlive⟩ := h.live q o' p' hq
  -- a live block that meets the reassigned one would be that block
  refine ⟨hcov, hlive.congr hs.pfnMax hs.zi (fun q _ => hs.migratetype q) (fun x hx => ?_)⟩
  by_cases hcx : Covers o p x
  · obtain ⟨rfl, rfl⟩ := hold.2.2 o' p' ((hw x hcx).symm.trans hx)
    exact absurd hcov hc
  · rwa [assign_of_not_covers hcx]

/-- Pages of one owner, neither free nor live, go to another, and the pagesets follow. -/
theorem transfer {S : ℕ → Prop} {w w' : Owner Holder} (h : PagesInv a pcp bm own)
    (hm : MemOnly a a' S) (hold : ∀ q, S q → own q = w) (hnew : ∀ q, S q → own' q = w')
    (hrest : ∀ q, ¬ S q → own' q = own q) (hbuddy : ∀ o p, w ≠ .buddy o p ∧ w' ≠ .buddy o p)
    (hlive : ∀ o p, w ≠ .held (.live o p) ∧ w' ≠ .held (.live o p))
    (hbits : ∀ q, ¬ S q → bm' q = bm q)
    (hbit : ∀ q, S q → (bm' q = true ↔ ∃ k, w' = .held (.cached k)))
    (hkind : ∀ q k, S q → w' = .held (.cached k) → a.zi q = k.zone ∧ a.migratetype q = k.mt)
    (hlists : ∀ k, w ≠ .held (.cached k) → w' ≠ .held (.cached k) → pcp' k = pcp k)
    (hlist : ∀ k, w = .held (.cached k) ∨ w' = .held (.cached k) → CachedAt a' (pcp' k) own' k) :
    PagesInv a' pcp' bm' own' := by
  have hiff : ∀ {v}, w ≠ v ∧ w' ≠ v → ∀ q, (own' q = v ↔ own q = v) := by
    intro v hv q
    by_cases hq : S q
    · rw [hnew q hq, hold q hq]
      exact iff_of_false hv.2 hv.1
    · rw [hrest q hq]
  have hs := hm.sameMap
  refine ⟨hm.areaInv h.area (fun q o p hq hS => (hbuddy o p).1 ((hold q hS).symm.trans hq))
    (fun q o p => hiff (hbuddy o p) q), fun k => ?_, fun q k hq => ?_, fun q => ?_,
    fun q o p hq => ?_⟩
  · by_cases hk : w = .held (.cached k) ∨ w' = .held (.cached k)
    · exact hlist k hk
    rw [not_or] at hk
    rw [hlists k hk.1 hk.2]
    exact (h.cached k).congr hs.pfnMax
      (fun q hq => hm.mem q fun hS => hk.1 ((hold q hS).symm.trans hq)) (hiff hk)
  · rw [hs.zi, hs.migratetype]
    by_cases hS : S q
    · exact hkind q k hS ((hnew q hS).symm.trans hq)
    · exact h.kind q k ((hrest q hS).symm.trans hq)
  · by_cases hS : S q
    · rw [hbit q hS, hnew q hS]
    · rw [hbits q hS, hrest q hS]
      exact h.marked q
  · obtain ⟨hcov, hl⟩ := h.live q o p ((hiff (hlive o p) q).mp hq)
    exact ⟨hcov, hl.congr hs.pfnMax hs.zi (fun q _ => hs.migratetype q)
      (fun q => (hiff (hlive o p) q).mpr)⟩

theorem grant (h : PagesInv a pcp bm own) (hl : ∀ q, Covers o p q → own q = .loose)
    (ho : o ≤ MAX_ORDER) (hal : Aligned o p) (huni : a.Uniform o p) :
    PagesInv a pcp bm (assign own o p (.held (.live o p))) := by
  refine h.reassign _ (MemOnly.refl a _) hl (by simp) ⟨by simp, by simp, fun o' p' he => ?_⟩
  obtain ⟨rfl, rfl⟩ : o = o' ∧ p = p' := by simpa using he
  exact ⟨rfl, rfl, ho, hal, huni⟩

theorem release (h : PagesInv a pcp bm own) (hp : own p = .held (.live o p)) :
    PagesInv a pcp bm (assign own o p .loose) := by
  refine h.reassign _ (MemOnly.refl a _) (h.live p o p hp).2.whole ⟨by simp, by simp, ?_⟩ (by simp)
  intro o' p' he
  obtain ⟨rfl, rfl⟩ : o = o' ∧ p = p' := by simpa using he
  exact ⟨rfl, rfl⟩

theorem write {T : ℕ → Prop} (h : PagesInv a pcp bm own) (hm : MemOnly a a' T)
    (hT : ∀ q, T q → (∀ o p, own q ≠ .buddy o p) ∧ ∀ k, own q ≠ .held (.cached k)) :
    PagesInv a' pcp bm own := by
  have hs := hm.sameMap
  refine ⟨hm.areaInv h.area (fun q o p hq hq' => (hT q hq').1 o p hq) (fun _ _ _ => Iff.rfl),
    fun k => (h.cached k).congr hs.pfnMax (fun q hq => hm.mem q fun hq' => (hT q hq').2 k hq)
      (fun _ => Iff.rfl), fun q k hq => ?_, h.marked, fun q o p hq => ?_⟩
  · rw [hs.zi, hs.migratetype]
    exact h.kind q k hq
  · obtain ⟨hcov, hlive⟩ := h.live q o p hq
    exact ⟨hcov, hlive.congr hs.pfnMax hs.zi (fun q _ => hs.migratetype q) (fun _ => id)⟩

/-! ### Checks -/

theorem verifyPcpNode_ok {zone : ZoneType} {mt : MigrateType}
    (ht : s.area.layout.Tiles s.area.pfnMax) (hlt : q < s.area.pfnMax) (hz : s.area.zi q = zone)
    (hmt : s.area.migratetype q = mt) (hp : (s.area.mem q).poison = POISON_MAGIC)
    (ho : (s.area.mem q).order = 0) : s.verifyPcpNode q zone mt = .ok () := by
  have hidx : s.area.layout.indexOf q = some zone := by rw [ht.indexOf_zi hlt, ← hz]; rfl
  rw [Pmm.verifyPcpNode, kassert_true hidx, kassert_true hmt, kassert_true hp, kassert_true ho]
  rfl

/-! ### From a pageset to a private list -/

/-- Releasing a detached batch clears its bits and moves it, reversed, to the private list. -/
theorem releaseLoop_spec (zone : ZoneType) (mt : MigrateType) {list priv : PcpList} {us vs : List ℕ}
    (hl : PageList s.area list us) (hp : PageList s.area priv vs) (hd : ∀ q ∈ us, q ∉ vs)
    (hb : s.area.pfnMax ≤ PFN_NULL) (ht : s.area.layout.Tiles s.area.pfnMax)
    (hkind : ∀ q ∈ us, s.area.zi q = zone ∧ s.area.migratetype q = mt)
    (hmark : ∀ q ∈ us, s.pcpBitmap q = true) :
    ∃ priv' a', Pmm.releaseLoop zone mt us.length list priv s = .ok (priv', { s with
          area := a', pcpBitmap := fun q => if q ∈ us then false else s.pcpBitmap q }) ∧
      PageList a' priv' (us.reverse ++ vs) ∧ MemOnly s.area a' (fun q => q ∈ us) := by
  induction us generalizing s list priv vs with
  | nil => exact ⟨priv, s.area, by simp [Pmm.releaseLoop], hp, MemOnly.refl _ _⟩
  | cons q us ih =>
  obtain ⟨list1, hpop, hlist1⟩ := hl.pop_cons
  have hqv : q ∉ vs := hd q (by simp)
  have hqus : q ∉ us := (nodup_cons.mp hl.nodup).1
  obtain ⟨hz, hmt⟩ := hkind q (by simp)
  have hver : s.verifyPcpPage q zone mt = .ok () := by
    rw [Pmm.verifyPcpPage, verifyPcpNode_ok ht (hl.lt q (by simp)) hz hmt (hl.poison q (by simp))
      (hl.order q (by simp)), ok_bind, kassert_true (hmark q (by simp))]
  have hpush := hp.push hqv (hl.lt q (by simp)) hb
  have hmem : MemOnly s.area (priv.push s.area q).2 (fun x => x = q) :=
    PageList.push_memOnly priv s.area rfl
  have hs := hmem.sameMap
  set s1 : Pmm := { s with
    area := (priv.push s.area q).2, pcpBitmap := update s.pcpBitmap q false } with hs1
  have hlist2 : PageList s1.area list1 us := hlist1.congr hs.pfnMax
    (fun x hx => hmem.mem x (fun he => hqus (he ▸ hx)))
  obtain ⟨priv', a', hrun, hpl, hmo⟩ := ih hlist2 hpush
    (fun x hx hxv => by
      rcases mem_cons.mp hxv with rfl | hxv
      · exact hqus hx
      · exact hd x (by simp [hx]) hxv)
    hb ht
    (fun x hx => ⟨(hs.zi x).trans (hkind x (by simp [hx])).1,
      (hs.migratetype x).trans (hkind x (by simp [hx])).2⟩)
    (fun x hx => by
      have hxq : x ≠ q := fun he => hqus (he ▸ hx)
      exact (update_of_ne hxq _ _).trans (hmark x (by simp [hx])))
  refine ⟨priv', a', ?_, ?_, ?_⟩
  · have hbits : (fun x => if x ∈ q :: us then false else s.pcpBitmap x) =
        fun x => if x ∈ us then false else s1.pcpBitmap x := by
      funext x
      by_cases hx : x = q
      · subst hx
        simp [hs1]
      · simp [hs1, hx]
    rw [hbits, length_cons, Pmm.releaseLoop, hpop]
    simp only [hver, ok_bind, Pmm.pcpUnmark, kassert_true (hmark q (by simp))]
    exact hrun
  · rwa [reverse_cons, append_assoc]
  · exact (hmem.imp fun x hx => by simp [hx]).trans (hmo.imp fun x hx => by simp [hx])

/-- The owners after the pages `xs` have gone to `w`. -/
def give (own : ℕ → Owner Holder) (xs : List ℕ) (w : Holder) : ℕ → Owner Holder :=
  fun q => if q ∈ xs then .held w else own q

theorem give_of_mem {w : Holder} (h : q ∈ xs) : give own xs w q = .held w := if_pos h

theorem give_of_notMem {w : Holder} (h : q ∉ xs) : give own xs w q = own q :=
  if_neg h

/-- Giving pages that are not free keeps the free blocks. -/
theorem give_buddy_iff {w w' : Holder} (hx : ∀ q ∈ xs, own q = .held w') (q o p : ℕ) :
    give own xs w q = .buddy o p ↔ own q = .buddy o p := by
  by_cases hq : q ∈ xs
  · rw [give_of_mem hq, hx q hq]
    simp
  · rw [give_of_notMem hq]

theorem give_held_iff {w w' v : Holder} (hx : ∀ q ∈ xs, own q = .held w') (hv : v ≠ w)
    (hv' : v ≠ w') (q : ℕ) : give own xs w q = .held v ↔ own q = .held v := by
  by_cases hq : q ∈ xs
  · rw [give_of_mem hq, hx q hq]
    simp [Ne.symm hv, Ne.symm hv']
  · rw [give_of_notMem hq]

/-- `xs` are pages cached under `key` that have been moved to the private list `list`. -/
structure Taken (s : Pmm) (own : ℕ → Owner Holder) (key : PcpKey) (list : PcpList) (xs : List ℕ)
    (a' : FreeArea) (pcp' : PcpKey → PcpList) (bm' : ℕ → Bool) : Prop where
  cached : ∀ q ∈ xs, own q = .held (.cached key)
  pages : PagesInv a' pcp' bm' (give own xs .staged)
  list : PageList a' list xs
  memOnly : MemOnly s.area a' (fun q => q ∈ xs)
  count : (pcp' key).count + xs.length = (s.pcp key).count
  others : ∀ k, k ≠ key → pcp' k = s.pcp k

/-- **A batch leaves a pageset**: its first pages are now staged on a private list. -/
theorem takeBatch_spec (h : PagesInv s.area s.pcp s.pcpBitmap own) (key : PcpKey) (limit : ℕ) :
    ∃ list xs a' pcp' bm', s.takeBatch key limit =
        .ok (list, { s with area := a', pcp := pcp', pcpBitmap := bm' }) ∧
      Taken s own key list xs a' pcp' bm' := by
  obtain ⟨l, hl, hmem⟩ := h.cached key
  set n := min (s.pcp key).count limit with hn
  have hlen : (l.take n).length = n := by
    rw [length_take, hl.length]
    omega
  have hsplit : l.take n ++ l.drop n = l := take_append_drop n l
  have hxs : ∀ q ∈ l.take n, own q = .held (.cached key) :=
    fun q hq => (hmem q).mp (mem_of_mem_take hq)
  have hl' : PageList s.area (s.pcp key) (l.take n ++ l.drop n) := by rwa [hsplit]
  obtain ⟨list', out, a1, htake, hrest, hout, hmo1⟩ := hl'.takeLoop_spec (PageList.empty s.area)
    (by simp) h.area.bound
  rw [hlen] at htake
  rw [append_nil] at hout
  have hs1 := hmo1.sameMap
  set s1 : Pmm := { s with area := a1, pcp := update s.pcp key list' } with hs1'
  have hmax : s1.area.pfnMax ≤ PFN_NULL := by
    rw [hs1.pfnMax]
    exact h.area.bound
  have htiles : s1.area.layout.Tiles s1.area.pfnMax := by
    rw [hs1.pfnMax, hs1.layout]
    exact h.area.tiles
  obtain ⟨list, a', hrun, hpl, hmo2⟩ := releaseLoop_spec key.zone
    key.mt hout (PageList.empty a1) (by simp) hmax htiles
    (fun q hq => by
      obtain ⟨h1, h2⟩ := h.kind q key (hxs q (mem_reverse.mp hq))
      exact ⟨(hs1.zi q).trans h1, (hs1.migratetype q).trans h2⟩)
    (fun q hq => (h.marked q).mpr ⟨key, hxs q (mem_reverse.mp hq)⟩)
  rw [reverse_reverse, append_nil] at hpl
  have hmo : MemOnly s.area a' (fun q => q ∈ l.take n) :=
    hmo1.trans (hmo2.imp fun q hq => mem_reverse.mp hq)
  refine ⟨list, l.take n, a', update s.pcp key list',
    fun q => if q ∈ (l.take n).reverse then false else s.pcpBitmap q, ?_, hxs, ?_, hpl, hmo, ?_,
    fun k hk => update_of_ne hk _ _⟩
  · rw [Pmm.takeBatch, PcpList.take, htake]
    have hcount : out.count = (l.take n).reverse.length := hout.length.symm
    simp only [ok_bind]
    rwa [hcount]
  · refine h.transfer hmo hxs (fun q => give_of_mem) (fun q => give_of_notMem) (by simp) (by simp)
      (fun q hq => if_neg (mt mem_reverse.mp hq)) (fun q hq => by simp [hq]) (by simp)
      (fun k hk _ => update_of_ne (fun he => hk (by rw [he])) _ _) fun k hk => ?_
    obtain rfl : key = k := by simpa using hk
    -- what is left of the pageset's own list
    rw [update_self]
    have hdrop : ∀ q ∈ l.drop n, q ∉ l.take n := fun q hq hq' =>
      disjoint_take_drop hl.nodup le_rfl hq' hq
    refine ⟨l.drop n, ?_, fun q => ?_⟩
    · refine hrest.congr hmo2.sameMap.pfnMax (fun q hq => hmo2.mem q (fun hq' => ?_))
      exact hdrop q hq (mem_reverse.mp hq')
    by_cases hq : q ∈ l.take n
    · rw [give_of_mem hq]
      exact iff_of_false (fun hq' => hdrop q hq' hq) (by simp)
    · rw [give_of_notMem hq, ← hmem, ← hsplit, mem_append, hsplit]
      tauto
  · rw [update_self, ← hrest.length, ← hl.length, ← hsplit, length_append, hsplit]
    omega

/-! ### From a private list to the buddy lists -/

/-- What a step may do to the pages held outside: staged pages go, the others stay. -/
structure Settles (own own' : ℕ → Owner Holder) : Prop where
  loose : ∀ q, own' q ≠ .loose
  staged : ∀ q, own' q ≠ .held .staged
  held : ∀ q w, w ≠ .staged → (own' q = .held w ↔ own q = .held w)

theorem loosen (h : PagesInv a pcp bm own) (hq : own q = .held .staged) :
    PagesInv a pcp bm (assign own 0 q .loose) := by
  refine h.reassign _ (MemOnly.refl a _) (fun x hx => ?_) (w := .held .staged) (by simp) (by simp)
  rw [covers_zero.mp hx, hq]

theorem uniform_zero (a : FreeArea) (hq : q < a.pfnMax) : a.Uniform 0 q := by
  intro x hx
  obtain rfl := covers_zero.mp hx
  exact ⟨rfl, rfl, hq⟩

/-- **A private list is returned**: its pages become free, merged as far as possible. -/
theorem drainLoop_spec (zone : ZoneType) (mt : MigrateType) {list : PcpList}
    (h : PagesInv s.area s.pcp s.pcpBitmap own) (hl : PageList s.area list xs)
    (hst : ∀ q, own q = .held .staged ↔ q ∈ xs)
    (hkind : ∀ q ∈ xs, s.area.zi q = zone ∧ s.area.migratetype q = mt)
    (hloose : ∀ q, own q ≠ .loose) :
    ∃ a' own', Pmm.drainLoop zone mt xs.length list s = .ok { s with area := a' } ∧
      PagesInv a' s.pcp s.pcpBitmap own' ∧ Settles own own' ∧
      (∀ z, a'.zoneFreePages z = s.area.zoneFreePages z + if z = zone then xs.length else 0) ∧
      a'.layout = s.area.layout ∧ a'.pfnMax = s.area.pfnMax ∧
      (Coalesced s.area own → Coalesced a' own') := by
  induction xs generalizing s own list with
  | nil =>
    exact ⟨s.area, own, rfl, h, ⟨hloose, fun q hq => by simpa using (hst q).mp hq,
      fun _ _ _ => Iff.rfl⟩, fun z => by simp, rfl, rfl, id⟩
  | cons q xs ih =>
  obtain ⟨list1, hpop, hlist1⟩ := hl.pop_cons
  have hqxs : q ∉ xs := (nodup_cons.mp hl.nodup).1
  have hq : own q = .held .staged := (hst q).mpr (by simp)
  have hlt := hl.lt q (by simp)
  obtain ⟨hz, hmt⟩ := hkind q (by simp)
  have hver := verifyPcpNode_ok h.area.tiles hlt hz hmt (hl.poison q (by simp))
    (hl.order q (by simp))
  have h₁ := h.loosen hq
  obtain ⟨a2, own2, hret, hinv2, hmove, hl2, hpages⟩ := h₁.area.returnToBuddy_spec
    ⟨⟨Nat.zero_le _, aligned_zero q, uniform_zero s.area hlt, fun x hx => assign_of_covers hx⟩,
      rfl, rfl⟩
  have h₂ := h₁.move hinv2 hmove
  -- the other staged pages keep their headers
  have hrest : ∀ x ∈ xs, assign own 0 q .loose x = .held .staged := by
    intro x hx
    have hxq : x ≠ q := fun he => hqxs (he ▸ hx)
    rw [assign_page hxq]
    exact (hst x).mpr (by simp [hx])
  have hlist2 : PageList a2 list1 xs :=
    hlist1.congr hmove.pfnMax (fun x hx => hmove.mem x _ (hrest x hx))
  have hst2 : ∀ x, own2 x = .held .staged ↔ x ∈ xs := by
    intro x
    rw [hmove.held]
    by_cases hx : x = q
    · subst hx
      exact iff_of_false (by simp) hqxs
    · rw [assign_page hx, hst]
      simp [hx]
  obtain ⟨a', own', hrun, hinv', hset, hpages', hlay, hmax, hco⟩ :=
    ih (s := { s with area := a2 }) h₂ hlist2 hst2
    (fun x hx => by
      obtain ⟨h1, h2⟩ := hkind x (by simp [hx])
      exact ⟨(hmove.zi x).trans h1, (hmove.mt x _ (hrest x hx)).trans h2⟩)
    (fun x hx => by
      obtain ⟨hx1, hx2⟩ := (hl2 x).mp hx
      rw [assign_of_not_covers hx2] at hx1
      exact hloose x hx1)
  refine ⟨a', own', ?_, hinv', ⟨hset.loose, hset.staged, fun x w hw => ?_⟩, fun z => ?_,
    hlay.trans hmove.layout, hmax.trans hmove.pfnMax, fun hc => hco (hmove.coalesced ?_)⟩
  · rw [length_cons, Pmm.drainLoop, hpop]
    simp only [hver, ok_bind, hret]
    exact hrun
  · rw [hset.held x w hw, hmove.held]
    exact assign_eq_iff (by simp) fun x hx => by simp [covers_zero.mp hx, hq, Ne.symm hw]
  · rw [hpages' z]
    have := zoneFreePages_add hpages z
    rw [this, hz, length_cons]
    by_cases hzz : z = zone
    · simp only [hzz, if_true]
      omega
    · simp only [hzz, if_false]
  · refine hc.of_own fun x o p => (assign_eq_iff (by simp) fun x hx => ?_).mp
    simp [covers_zero.mp hx, hq]

/-! ### From a private list to a pageset -/

/-- The page in front of the pageset. -/
def putFront (s : Pmm) (key : PcpKey) (q : ℕ) : Pmm :=
  { s with
    area := ((s.pcp key).push s.area q).2
    pcp := update s.pcp key ((s.pcp key).push s.area q).1
    pcpBitmap := update s.pcpBitmap q true }

theorem putFront_memOnly (s : Pmm) (key : PcpKey) (q : ℕ) :
    MemOnly s.area (putFront s key q).area (fun x => x = q) :=
  PageList.push_memOnly _ _ rfl

theorem putFront_count (s : Pmm) (key : PcpKey) (q : ℕ) :
    ((putFront s key q).pcp key).count = (s.pcp key).count + 1 := by
  unfold putFront
  dsimp only
  rw [update_self]
  rfl

theorem unmarked (h : PagesInv a pcp bm own) (hq : ∀ k, own q ≠ .held (.cached k)) :
    bm q = false := by
  rw [← Bool.not_eq_true, h.marked]
  exact fun ⟨k, hk⟩ => hq k hk

/-- One loose page enters a pageset. -/
theorem cachePage (key : PcpKey) (h : PagesInv s.area s.pcp s.pcpBitmap own) (hq : own q = .loose)
    (hlt : q < s.area.pfnMax) (hz : s.area.zi q = key.zone) (hmt : s.area.migratetype q = key.mt) :
    PagesInv ((s.pcp key).push s.area q).2
      (update s.pcp key ((s.pcp key).push s.area q).1)
      (update s.pcpBitmap q true) (assign own 0 q (.held (.cached key))) := by
  have hmo := putFront_memOnly s key q
  refine h.transfer hmo (by simpa using hq) (fun x hx => by rw [hx, assign_self])
    (fun _ => assign_page)
    (by simp) (by simp) (fun x hx => update_of_ne hx _ _) (by simp) (fun x k hx hk => ?_)
    (fun k _ hk => update_of_ne (fun he => hk (by rw [he])) _ _) fun k hk => ?_
  · obtain rfl : key = k := by simpa using hk
    rw [hx]
    exact ⟨hz, hmt⟩
  obtain rfl : key = k := by simpa using hk
  obtain ⟨l, hl, hmem⟩ := h.cached key
  have hql : q ∉ l := fun hql => by
    rw [hmem, hq] at hql
    cases hql
  rw [update_self]
  refine ⟨q :: l, hl.push hql hlt h.area.bound, fun x => ?_⟩
  by_cases hx : x = q
  · subst hx
    simp
  · rw [assign_page hx, ← hmem]
    simp [hx]

/-- The first page of a pageset leaves it. -/
theorem popPage {l : List ℕ} {list' : PcpList} (h : PagesInv a pcp bm own)
    (hl : PageList a (pcp key) (q :: l)) (hmem : ∀ x, x ∈ q :: l ↔ own x = .held (.cached key))
    (hl' : PageList a list' l) :
    PagesInv a (update pcp key list') (update bm q false)
      (assign own 0 q .loose) := by
  have hq : own q = .held (.cached key) := (hmem q).mp (by simp)
  have hql : q ∉ l := (nodup_cons.mp hl.nodup).1
  refine h.transfer (MemOnly.refl a (· = q)) (by simpa using hq) (fun x hx => by rw [hx])
    (fun _ => assign_page) (by simp) (by simp) (fun x hx => update_of_ne hx _ _) (by simp) (by simp)
    (fun k hk _ => update_of_ne (fun he => hk (by rw [he])) _ _) fun k hk => ?_
  obtain rfl : key = k := by simpa using hk
  rw [update_self]
  refine ⟨l, hl', fun x => ?_⟩
  by_cases hx : x = q
  · subst hx
    exact iff_of_false hql (by simp)
  · rw [assign_page hx, ← hmem]
    simp [hx]

/-- **A private list enters a pageset.**  Only the invariant looks at the class of the pages. -/
theorem fillLoop_spec (key : PcpKey) {refill : PcpList} (hl : PageList s.area refill xs)
    (hclear : ∀ q ∈ xs, s.pcpBitmap q = false) :
    ∃ a' pcp' bm', Pmm.fillLoop key xs.length refill s =
        .ok { s with area := a', pcp := pcp', pcpBitmap := bm' } ∧
      MemOnly s.area a' (fun q => q ∈ xs) ∧
      (pcp' key).count = (s.pcp key).count + xs.length ∧ (∀ k, k ≠ key → pcp' k = s.pcp k) ∧
      ∀ own, PagesInv s.area s.pcp s.pcpBitmap own → (∀ q ∈ xs, own q = .held .staged) →
        (∀ q ∈ xs, s.area.zi q = key.zone ∧ s.area.migratetype q = key.mt) →
        PagesInv a' pcp' bm' (give own xs (.cached key)) := by
  induction xs generalizing s refill with
  | nil =>
    exact ⟨s.area, s.pcp, s.pcpBitmap, rfl, MemOnly.refl _ _, rfl, fun _ _ => rfl, fun _ h _ _ => h⟩
  | cons q xs ih =>
  obtain ⟨refill1, hpop, hlist1⟩ := hl.pop_cons
  have hne : ∀ x ∈ xs, x ≠ q := fun x hx he => (nodup_cons.mp hl.nodup).1 (he ▸ hx)
  have hmo1 := putFront_memOnly s key q
  have hs1 := hmo1.sameMap
  obtain ⟨a', pcp', bm', hrun, hmo, hcount, hpcp, hinv⟩ := ih
    (hlist1.congr hs1.pfnMax fun x hx => hmo1.mem x (hne x hx))
    (fun x hx => (update_of_ne (hne x hx) _ _).trans (hclear x (by simp [hx])))
  refine ⟨a', pcp', bm', ?_,
    (hmo1.imp fun x hx => by simp [hx]).trans (hmo.imp fun x hx => by simp [hx]), ?_,
    fun k hk => ?_,
    fun own h hst hkind => ?_⟩
  · rw [length_cons, Pmm.fillLoop, hpop]
    simp only [Pmm.pcpMark_of_clear (hclear q (by simp)), ok_bind]
    exact hrun
  · rw [hcount, putFront_count, length_cons]
    omega
  · exact (hpcp k hk).trans (update_of_ne hk _ _)
  obtain ⟨hz, hmt⟩ := hkind q (by simp)
  have h₁ := (h.loosen (hst q (by simp))).cachePage key assign_self
    (hl.lt q (by simp)) hz hmt
  set own1 := assign (assign own 0 q .loose) 0 q (.held (.cached key)) with hown1
  have hown : ∀ x, own1 x = if x = q then .held (.cached key) else own x := by
    intro x
    simp only [hown1, assign]
    split <;> simp_all
  have hgive : give own1 xs (.cached key) = give own (q :: xs) (.cached key) := by
    funext x
    simp only [give, hown]
    by_cases hx : x ∈ xs <;> simp [hx]
  rw [← hgive]
  refine hinv own1 h₁ (fun x hx => ?_) fun x hx => ?_
  · rw [hown, if_neg (hne x hx)]
    exact hst x (by simp [hx])
  · obtain ⟨h1, h2⟩ := hkind x (by simp [hx])
    exact ⟨(hs1.zi x).trans h1, (hs1.migratetype x).trans h2⟩

end PagesInv

end Oxide.Buddy
