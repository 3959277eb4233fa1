/-
The invariant of the memory manager.

`Inv` joins the page-level invariant with the counters: every page has one owner, and the
counters count the owners.

* `Counters.moved`: pages of one zone change hands, and the counters follow;
* `Ghost.grant`, `Ghost.release`: a block becomes live, or is given up;
* **`Inv.drainPcpBelow_spec`**: draining the pagesets keeps the invariant and never faults.
-/
import Oxide.PmmPages
import Mathlib.Algebra.Order.BigOperators.Group.List

namespace Oxide.Buddy

open DyadicBlock Function List PagesInv Pmm

variable {key : PcpKey} {pcp' : PcpKey → PcpList} {f g : ZoneType → ℕ} {zone : ZoneType} {d o p : ℕ}

/-! ### Sums over zones, pagesets and live blocks -/

theorem update_add_delta (f : ZoneType → ℕ) (zone : ZoneType) (d : ℕ) (z : ZoneType) :
    update f zone (f zone + d) z = f z + if z = zone then d else 0 := by
  by_cases hz : z = zone
  · subst hz
    rw [update_self, if_pos rfl]
  · rw [update_of_ne hz, if_neg hz, Nat.add_zero]

/-- `g` is `f` with `d` more at `zone`. -/
def Shift (f g : ZoneType → ℕ) (zone : ZoneType) (d : ℤ) : Prop :=
  ∀ z, (g z : ℤ) = f z + if z = zone then d else 0

namespace Shift

theorem of_eq (h : ∀ z, g z = f z) : Shift f g zone 0 := fun z => by simp [h z]

theorem refl : Shift f f zone 0 := of_eq fun _ => rfl

theorem of_add (h : ∀ z, g z = f z + if z = zone then d else 0) : Shift f g zone d := fun z => by
  rw [h z]
  split <;> simp

theorem of_sub (h : ∀ z, f z = g z + if z = zone then d else 0) : Shift f g zone (-d) := fun z => by
  rw [h z]
  split <;> simp

theorem update_add : Shift f (update f zone (f zone + d)) zone d :=
  of_add (update_add_delta f zone d)

theorem update_sub (h : d ≤ f zone) : Shift f (update f zone (f zone - d)) zone (-d) := by
  refine of_sub fun z => ?_
  by_cases hz : z = zone
  · subst hz
    rw [update_self, if_pos rfl]
    omega
  · rw [update_of_ne hz, if_neg hz, Nat.add_zero]

theorem sum {d : ℤ} (h : Shift f g zone d) :
    ((ZoneType.all.map g).sum : ℤ) = (ZoneType.all.map f).sum + d := by
  have h1 := h .dma
  have h2 := h .dma32
  have h3 := h .normal
  have h4 := h .movable
  cases zone <;> simp [ZoneType.all] at h1 h2 h3 h4 ⊢ <;> omega

end Shift

/-- The pages in the pagesets of one zone. -/
def cachedPages (pcp : PcpKey → PcpList) (z : ZoneType) : ℕ :=
  ((keysOf z).map fun k => (pcp k).count).sum

theorem mem_keysOf {z : ZoneType} {k : PcpKey} : k ∈ keysOf z ↔ k.zone = z := by
  obtain ⟨cpu, zone, mt⟩ := k
  simp only [keysOf, mem_flatMap, mem_map, mem_finRange, true_and, PcpKey.mk.injEq]
  constructor
  · rintro ⟨_, _, _, _, rfl, _⟩
    rfl
  · rintro rfl
    exact ⟨mt, by cases mt <;> decide, cpu, rfl, rfl, rfl⟩

theorem nodup_keysOf (z : ZoneType) : (keysOf z).Nodup := by
  rw [keysOf, nodup_flatMap]
  refine ⟨fun mt _ => (nodup_finRange _).map fun a b h => by simpa using h, ?_⟩
  have hne : MigrateType.all.Pairwise (· ≠ ·) := by decide
  refine hne.imp fun {mt mt'} hmt k hk hk' => ?_
  obtain ⟨_, _, rfl⟩ := mem_map.mp hk
  obtain ⟨_, _, h⟩ := mem_map.mp hk'
  exact hmt (congrArg PcpKey.mt h).symm

theorem cachedPages_add {pcp : PcpKey → PcpList} (h : (pcp' key).count = (pcp key).count + d)
    (hne : ∀ k, k ≠ key → pcp' k = pcp k) (z : ZoneType) :
    cachedPages pcp' z = cachedPages pcp z + if z = key.zone then d else 0 := by
  by_cases hz : z = key.zone
  · rw [if_pos hz]
    exact sum_map_add_of_eq (nodup_keysOf z) (mem_keysOf.mpr hz.symm) h
      (fun k _ hk => congrArg PcpList.count (hne k hk))
  rw [if_neg hz, Nat.add_zero]
  refine congrArg List.sum (map_congr_left fun k hk => ?_)
  rw [hne k (fun he => hz ?_)]
  rw [← mem_keysOf.mp hk, he]

/-- The pages of the live blocks of one zone. -/
def livePages (l : ZoneLayout) (live : List (ℕ × ℕ)) (z : ZoneType) : ℕ :=
  (live.map fun b => if l.zi b.2 = z then 2 ^ b.1 else 0).sum

theorem livePages_cons (l : ZoneLayout) (o p : ℕ) (live : List (ℕ × ℕ)) (z : ZoneType) :
    livePages l ((o, p) :: live) z = livePages l live z + if z = l.zi p then 2 ^ o else 0 := by
  rw [livePages, map_cons, sum_cons, Nat.add_comm]
  simp only [livePages, eq_comm]

theorem livePages_erase (l : ZoneLayout) {live : List (ℕ × ℕ)} (h : (o, p) ∈ live) (z : ZoneType) :
    livePages l live z = livePages l (live.erase (o, p)) z + if z = l.zi p then 2 ^ o else 0 := by
  rw [← livePages_cons]
  exact ((perm_cons_erase h).map _).sum_nat

/-! ### The invariant -/

/-- The counters count the owners of the pages. -/
structure Counters (s : Pmm) (live : List (ℕ × ℕ)) : Prop where
  zoneFree : ∀ z, s.zoneFree z = s.area.zoneFreePages z + s.pcpFree z
  pcpFree : ∀ z, s.pcpFree z = cachedPages s.pcp z
  managed : ∀ z, s.managed z = s.zoneFree z + livePages s.area.layout live z
  allocated : s.allocated = (ZoneType.all.map s.pcpFree).sum +
    (ZoneType.all.map (livePages s.area.layout live)).sum + s.reserved
  initialFree : s.initialFree = (ZoneType.all.map s.managed).sum + s.reserved

/-- **Pages of one zone change hands**, and the counters follow. -/
theorem Counters.moved {s s' : Pmm} {live live' : List (ℕ × ℕ)} {b c l n m : ℤ}
    (hc : Counters s live) (hlay : s'.area.layout = s.area.layout)
    (hbuddy : Shift s.area.zoneFreePages s'.area.zoneFreePages zone b)
    (hcached : Shift (cachedPages s.pcp) (cachedPages s'.pcp) zone c)
    (hlive : Shift (livePages s.area.layout live) (livePages s.area.layout live') zone l)
    (hzone : Shift s.zoneFree s'.zoneFree zone n) (hpcp : Shift s.pcpFree s'.pcpFree zone c)
    (hman : Shift s.managed s'.managed zone m) (hn : n = b + c) (hm : m = n + l)
    (halloc : (s'.allocated : ℤ) - s'.reserved = s.allocated - s.reserved + c + l)
    (hinit : (s'.initialFree : ℤ) - s'.reserved = s.initialFree - s.reserved + m) :
    Counters s' live' := by
  have hsum := hpcp.sum
  have hsum' := hlive.sum
  have hsum'' := hman.sum
  have ha := hc.allocated
  have hi := hc.initialFree
  refine ⟨fun z => ?_, fun z => ?_, fun z => ?_, ?_, by omega⟩
  · have h1 := hbuddy z
    have h2 := hzone z
    have h3 := hpcp z
    have h4 := hc.zoneFree z
    split_ifs at h1 h2 h3 <;> omega
  · have h1 := hcached z
    have h2 := hpcp z
    have h3 := hc.pcpFree z
    omega
  · have h1 := hlive z
    have h2 := hzone z
    have h3 := hman z
    have h4 := hc.managed z
    rw [hlay]
    split_ifs at h1 h2 h3 <;> omega
  · rw [hlay]
    omega

/-- Between operations no page is in transit, and the run's lists name the live blocks and the
reserved pages. -/
structure Ghost (own : ℕ → Owner Holder) (live : List (ℕ × ℕ)) (resv : List ℕ) : Prop where
  notLoose : ∀ q, own q ≠ .loose
  notStaged : ∀ q, own q ≠ .held .staged
  liveMem : ∀ o p, (o, p) ∈ live ↔ own p = .held (.live o p)
  liveNodup : live.Nodup
  resvMem : ∀ q, q ∈ resv ↔ own q = .held .reserved
  resvNodup : resv.Nodup

/-- **The invariant**: pages, ghost state and counters agree. -/
structure Inv (s : Pmm) (own : ℕ → Owner Holder) (live : List (ℕ × ℕ)) (resv : List ℕ) : Prop where
  pages : PagesInv s.area s.pcp s.pcpBitmap own
  ghost : Ghost own live resv
  resvLen : s.reserved = resv.length
  counters : Counters s live
  batch : ∀ z, (s.pcpZone z).batch < 2 ^ PAGEBLOCK_ORDER

/-- What an operation keeps besides `Inv`: the seeded pages and the coalescing of free blocks. -/
structure Keeps (s : Pmm) (own : ℕ → Owner Holder) (s' : Pmm) (own' : ℕ → Owner Holder) :
    Prop where
  outside : ∀ q, own' q = .held .outside ↔ own q = .held .outside
  coalesced : Coalesced s.area own → Coalesced s'.area own'

theorem Keeps.refl (s : Pmm) (own : ℕ → Owner Holder) : Keeps s own s own :=
  ⟨fun _ => Iff.rfl, id⟩

theorem Keeps.trans {s s' s'' : Pmm} {own own' own'' : ℕ → Owner Holder}
    (h : Keeps s own s' own') (h' : Keeps s' own' s'' own'') : Keeps s own s'' own'' :=
  ⟨fun q => (h'.outside q).trans (h.outside q), fun hc => h'.coalesced (h.coalesced hc)⟩

/-- A block that was not outside becomes a live one. -/
theorem Keeps.grant {s s' : Pmm} {own own' : ℕ → Owner Holder}
    (hold : ∀ q, Covers o p q → own q ≠ .held .outside)
    (hout : ∀ q, ¬ Covers o p q → (own' q = .held .outside ↔ own q = .held .outside))
    (hnew : ∀ q, Covers o p q → ∀ o' p', own' q ≠ .buddy o' p')
    (hco : Coalesced s.area own → Coalesced s'.area own') :
    Keeps s own s' (assign own' o p (.held (.live o p))) := by
  refine ⟨fun q => ?_, fun hc => (hco hc).of_own fun q o' p' => ?_⟩
  · by_cases hq : Covers o p q
    · rw [assign_of_covers hq]
      exact iff_of_false (by simp) (hold q hq)
    · rw [assign_of_not_covers hq]
      exact hout q hq
  · exact (assign_eq_iff (by simp) fun q hq => hnew q hq o' p').mp

namespace Ghost

variable {own own' : ℕ → Owner Holder} {live : List (ℕ × ℕ)} {resv : List ℕ} {o p : ℕ}
  (h : Ghost own live resv)
include h

/-- Live and reserved pages kept. -/
theorem keep (hl : ∀ q, own' q ≠ .loose) (hs : ∀ q, own' q ≠ .held .staged)
    (hheld : ∀ q w, w ≠ .staged → (∀ k, w ≠ .cached k) → (own' q = .held w ↔ own q = .held w)) :
    Ghost own' live resv :=
  ⟨hl, hs, fun o p => (h.liveMem o p).trans (hheld p _ (by simp) (by simp)).symm, h.liveNodup,
    fun q => (h.resvMem q).trans (hheld q _ (by simp) (by simp)).symm, h.resvNodup⟩

/-- A new live block, of pages that were neither live nor reserved. -/
theorem grant (hl : ∀ q, ¬ Covers o p q → own' q ≠ .loose)
    (hs : ∀ q, ¬ Covers o p q → own' q ≠ .held .staged)
    (hold : ∀ q, Covers o p q → ∀ w, (∀ k, w ≠ .cached k) → own q ≠ .held w)
    (hheld : ∀ q, ¬ Covers o p q → ∀ w, w ≠ .staged → (∀ k, w ≠ .cached k) →
      (own' q = .held w ↔ own q = .held w)) :
    Ghost (assign own' o p (.held (.live o p))) ((o, p) :: live) resv := by
  refine ⟨fun q => ?_, fun q => ?_, fun o' p' => ?_,
    nodup_cons.mpr ⟨fun hmem => ?_, h.liveNodup⟩, fun q => ?_, h.resvNodup⟩
  · exact assign_ne (by simp) hl
  · exact assign_ne (by simp) hs
  · by_cases hc : Covers o p p'
    · rw [assign_of_covers hc, mem_cons, h.liveMem, or_iff_left (hold p' hc _ (by simp))]
      simp [eq_comm]
    rw [assign_of_not_covers hc, hheld p' hc _ (by simp) (by simp), mem_cons, ← h.liveMem,
      or_iff_right]
    intro he
    cases he
    exact hc (covers_self _ _)
  · exact hold p (covers_self o p) _ (by simp) ((h.liveMem o p).mp hmem)
  by_cases hc : Covers o p q
  · rw [assign_of_covers hc, h.resvMem]
    exact iff_of_false (hold q hc _ (by simp)) (by simp)
  · rw [assign_of_not_covers hc, hheld q hc _ (by simp) (by simp)]
    exact h.resvMem q

/-- A live block given up. -/
theorem release (hl : ∀ q, own' q ≠ .loose) (hs : ∀ q, own' q ≠ .held .staged)
    (hold : ∀ q, Covers o p q → own q = .held (.live o p))
    (hnew : ∀ q, Covers o p q → ∀ w, (∀ k, w ≠ .cached k) → own' q ≠ .held w)
    (hheld : ∀ q, ¬ Covers o p q → ∀ w, w ≠ .staged → (∀ k, w ≠ .cached k) →
      (own' q = .held w ↔ own q = .held w)) : Ghost own' (live.erase (o, p)) resv := by
  refine ⟨hl, hs, fun o' p' => ?_, h.liveNodup.erase _, fun q => ?_, h.resvNodup⟩
  · rw [h.liveNodup.mem_erase_iff, h.liveMem]
    by_cases hc : Covers o p p'
    · refine iff_of_false (fun ⟨hne, hown⟩ => hne ?_) (hnew p' hc _ (by simp))
      rw [hold p' hc] at hown
      simpa [eq_comm] using hown
    rw [hheld p' hc _ (by simp) (by simp), and_iff_right]
    intro he
    cases he
    exact hc (covers_self _ _)
  rw [h.resvMem]
  by_cases hc : Covers o p q
  · rw [hold q hc]
    exact iff_of_false (by simp) (hnew q hc _ (by simp))
  · exact (hheld q hc _ (by simp) (by simp)).symm

end Ghost

namespace Inv

variable {s : Pmm} {own : ℕ → Owner Holder} {live : List (ℕ × ℕ)} {resv : List ℕ}

/-! ### Draining -/

/-- The state in which a batch of `n` pages has left its pageset and been deducted. -/
def detached (s : Pmm) (zone : ZoneType) (a' : FreeArea) (pcp' : PcpKey → PcpList)
    (bm' : ℕ → Bool) (n : ℕ) : Pmm :=
  { s with
    area := a', pcp := pcp', pcpBitmap := bm'
    pcpFree := update s.pcpFree zone (s.pcpFree zone - n) }

variable {a' : FreeArea} {xs : List ℕ} {list : PcpList} {bm' : ℕ → Bool}

theorem cachedPages_taken (h : Taken s own key list xs a' pcp' bm') (z : ZoneType) :
    Buddy.cachedPages s.pcp z = Buddy.cachedPages pcp' z + if z = key.zone then xs.length else 0 :=
  cachedPages_add h.count.symm (fun k hk => (h.others k hk).symm) z

variable (h : Inv s own live resv)
include h

/-- A batch that turned out empty changes nothing. -/
theorem taken_nil (ht : Taken s own key list [] a' pcp' bm') :
    Inv { s with area := a', pcp := pcp', pcpBitmap := bm' } own live resv ∧
      Keeps s own { s with area := a', pcp := pcp', pcpBitmap := bm' } own := by
  have hpages := ht.pages
  have hs := ht.memOnly.sameMap
  refine ⟨⟨hpages, h.ghost, h.resvLen, ?_, h.batch⟩, fun _ => Iff.rfl,
    ht.memOnly.coalesced (fun _ _ _ => Iff.rfl)⟩
  exact h.counters.moved hs.layout (.of_eq ht.memOnly.zoneFreePages)
    (.of_sub (cachedPages_taken ht)) .refl .refl .refl .refl rfl rfl (by simp) (by simp)

/-- A detached batch, once deducted from the cached pages, drains into the buddy lists. -/
theorem drainTaken {a1 : FreeArea} (ht : Taken s own key list xs a1 pcp' bm') :
    xs.length ≤ s.pcpFree key.zone ∧
    ∃ s' own', drainPcpList (detached s key.zone a1 pcp' bm' xs.length) key.zone key.mt list =
        .ok s' ∧ Inv s' own' live resv ∧ Keeps s own s' own' := by
  have hs := ht.memOnly.sameMap
  have hle : xs.length ≤ s.pcpFree key.zone := by
    rw [h.counters.pcpFree, cachedPages_taken ht, if_pos rfl]
    omega
  have hsub := Shift.update_sub hle
  have halloc : xs.length ≤ s.allocated := by
    have hsum := hsub.sum
    have := h.counters.allocated
    omega
  -- exactly the batch is staged
  have hst : ∀ q, give own xs .staged q = .held .staged ↔ q ∈ xs := by
    intro q
    by_cases hq : q ∈ xs
    · simp [give_of_mem hq, hq]
    · simp [give_of_notMem hq, hq, h.ghost.notStaged q]
  obtain ⟨a', own', hrun, hinv, hset, hpages, hlay, -, hco⟩ :=
    drainLoop_spec (s := detached s key.zone a1 pcp' bm' xs.length) key.zone key.mt ht.pages
      ht.list hst
      (fun q hq => by
        obtain ⟨h1, h2⟩ := h.pages.kind q key (ht.cached q hq)
        exact ⟨(hs.zi q).trans h1, (hs.migratetype q).trans h2⟩)
      (fun q hq => by
        by_cases hqx : q ∈ xs
        · cases (give_of_mem hqx).symm.trans hq
        · rw [give_of_notMem hqx] at hq
          exact h.ghost.notLoose q hq)
  have hheld : ∀ q w, w ≠ .staged → (∀ k, w ≠ .cached k) →
      (own' q = .held w ↔ own q = .held w) := by
    intro q w hw hwc
    rw [hset.held q w hw]
    exact give_held_iff ht.cached hw (hwc key) q
  refine ⟨hle, { detached s key.zone a' pcp' bm' xs.length with
    allocated := s.allocated - xs.length }, own', ?_, ?_, ?_⟩
  · rw [drainPcpList, ← ht.list.length, hrun, ok_bind, subAllocated_of_le]
    · rfl
    · exact halloc
  · have hbuddy : ∀ z, a'.zoneFreePages z =
        s.area.zoneFreePages z + if z = key.zone then xs.length else 0 := fun z => by
      rw [← ht.memOnly.zoneFreePages]
      exact hpages z
    refine ⟨hinv, h.ghost.keep hset.loose hset.staged hheld, h.resvLen, ?_, h.batch⟩
    exact h.counters.moved (hlay.trans hs.layout) (.of_add hbuddy)
      (.of_sub (cachedPages_taken ht)) .refl .refl hsub .refl (by omega) rfl
      (by dsimp only [detached]; omega) (by simp [detached])
  · refine ⟨fun q => hheld q _ (by simp) (by simp), fun hc => hco ?_⟩
    exact ht.memOnly.coalesced (give_buddy_iff ht.cached) hc

/-- **Draining** one pageset. -/
theorem drainPcpKey_spec (key : PcpKey) :
    ∃ b s' own', s.drainPcpKey key = .ok (b, s') ∧ Inv s' own' live resv ∧ Keeps s own s' own' := by
  obtain ⟨list, xs, a1, pcp', bm', hrun, ht⟩ := h.pages.takeBatch_spec key (2 ^ 64 - 1)
  by_cases h0 : list.count = 0
  · have hnil : xs = [] := length_eq_zero_iff.mp (ht.list.length.trans h0)
    subst hnil
    obtain ⟨hinv, hk⟩ := h.taken_nil ht
    refine ⟨false, _, own, ?_, hinv, hk⟩
    rw [drainPcpKey, hrun]
    exact if_pos h0
  obtain ⟨hle, s', own', hdrain, hinv, hk⟩ := h.drainTaken ht
  refine ⟨true, s', own', ?_, hinv, hk⟩
  have hsub : subPcpFree { s with area := a1, pcp := pcp', pcpBitmap := bm' } key.zone
      list.count = .ok (detached s key.zone a1 pcp' bm' xs.length) := by
    rw [← ht.list.length, subPcpFree, counterSub_of_le hle]
    rfl
  simp only [drainPcpKey, hrun, ok_bind, if_neg h0, hsub, hdrain]
  rfl

theorem drainKeys_spec (keys : List PcpKey) :
    ∃ b s' own', drainKeys keys s = .ok (b, s') ∧ Inv s' own' live resv ∧ Keeps s own s' own' := by
  induction keys generalizing s own with
  | nil => exact ⟨false, s, own, rfl, h, Keeps.refl s own⟩
  | cons key keys ih =>
  obtain ⟨b1, s1, own1, hrun1, hinv1, hk1⟩ := h.drainPcpKey_spec key
  obtain ⟨b2, s2, own2, hrun2, hinv2, hk2⟩ := ih hinv1
  refine ⟨b1 || b2, s2, own2, ?_, hinv2, hk1.trans hk2⟩
  rw [drainKeys, hrun1, ok_bind]
  exact (congrArg (· >>= _) hrun2).trans rfl

/-- **Draining** the pagesets below a zone never faults. -/
theorem drainPcpBelow_spec (highest : ZoneType) :
    ∃ b s' own', s.drainPcpBelow highest = .ok (b, s') ∧ Inv s' own' live resv ∧
      Keeps s own s' own' :=
  h.drainKeys_spec _

end Inv

end Oxide.Buddy
