/-
What each operation of the memory manager does to its invariant.

Every lemma gives the result of the operation and re-establishes `Inv` with the run's lists
brought up to date; the operations below raise no fault at all.

* **`Inv.popCurrentPcp_spec`**: a page from a pageset;
* **`Inv.allocGlobalDraining_spec`**: a block from the global lists, pagesets drained if needed;
* **`Inv.free_spec`**: a live block given back;
* **`Inv.reserveEarlyInner_spec`**: the free pages of a range, set aside for good.
-/
import Oxide.PmmInv

namespace Oxide.Buddy

open DyadicBlock Function FreeArea Pmm List PagesInv

variable {o p : ℕ}

namespace Inv

variable {s : Pmm} {own : ℕ → Owner Holder} {live : List (ℕ × ℕ)} {resv : List ℕ}

/-- `s'` is a state in which the block at `p` has just been handed out. -/
def Granted (s : Pmm) (own : ℕ → Owner Holder) (live : List (ℕ × ℕ)) (resv : List ℕ)
    (order p : ℕ) (s' : Pmm) : Prop :=
  ∃ own', Inv s' own' ((order, p) :: live) resv ∧ Keeps s own s' own'

theorem write {T : ℕ → Prop} {a' : FreeArea} (h : Inv s own live resv) (hm : MemOnly s.area a' T)
    (hT : ∀ q, T q → (∀ o p, own q ≠ .buddy o p) ∧ ∀ k, own q ≠ .held (.cached k)) :
    Inv { s with area := a' } own live resv ∧ Keeps s own { s with area := a' } own := by
  have hfree : Shift s.area.zoneFreePages a'.zoneFreePages .normal 0 := .of_eq hm.zoneFreePages
  exact ⟨⟨h.pages.write hm hT, h.ghost, h.resvLen, h.counters.moved hm.sameMap.layout hfree .refl
    .refl .refl .refl .refl rfl rfl (by simp) (by simp), h.batch⟩, fun _ => Iff.rfl,
    hm.coalesced fun _ _ _ => Iff.rfl⟩

/-- Zeroing a block that has just been handed out. -/
theorem Granted.zeroAllocation {s' : Pmm} {order : ℕ} (h : Granted s own live resv order p s') :
    Granted s own live resv order p (s'.zeroAllocation p order) := by
  obtain ⟨own', hinv, hk⟩ := h
  have hp : own' p = .held (.live order p) := (hinv.ghost.liveMem order p).mp (by simp)
  obtain ⟨-, hlive⟩ := hinv.pages.live p order p hp
  have hm : MemOnly s'.area (s'.zeroAllocation p order).area (Covers order p) :=
    ⟨rfl, fun q hq => if_neg hq⟩
  obtain ⟨hinv', hk'⟩ := hinv.write hm (fun q hq => by simp [hlive.whole q hq])
  exact ⟨own', hinv', hk.trans hk'⟩

/-! ### A page from a pageset -/

/-- **Popping** a pageset. -/
theorem popCurrentPcp_spec (h : Inv s own live resv) (key : PcpKey) :
    (s.popCurrentPcp key = .ok (none, s) ∧ (s.pcp key).count = 0) ∨
    ∃ q s', s.popCurrentPcp key = .ok (some q, s') ∧ (s.pcp key).count ≠ 0 ∧
      Granted s own live resv 0 q s' := by
  obtain ⟨l, hl, hmem⟩ := h.pages.cached key
  cases l with
  | nil =>
    refine .inl ⟨?_, hl.length.symm⟩
    rw [popCurrentPcp, hl.pop_nil]
    rfl
  | cons q =>
  obtain ⟨list', hpop, hl'⟩ := hl.pop_cons
  have hq : own q = .held (.cached key) := (hmem q).mp (by simp)
  obtain ⟨hz, hmt⟩ := h.pages.kind q key hq
  have hlt := hl.lt q (by simp)
  have hmark : s.pcpBitmap q = true := (h.pages.marked q).mpr ⟨key, hq⟩
  have hver : s.verifyPcpPage q key.zone key.mt = .ok () := by
    rw [verifyPcpPage, verifyPcpNode_ok h.pages.area.tiles hlt hz hmt
      (hl.poison q (by simp)) (hl.order q (by simp)), ok_bind, kassert_true hmark]
  have hc := h.counters
  have hcount : (s.pcp key).count = (list'.count) + 1 := by
    rw [← hl.length, ← hl'.length]
    rfl
  have hpos : 1 ≤ s.pcpFree key.zone := by
    have : (s.pcp key).count ≤ cachedPages s.pcp key.zone :=
      le_sum_of_mem (mem_map.mpr ⟨key, mem_keysOf.mpr rfl, rfl⟩)
    rw [hc.pcpFree]
    omega
  have hpos' : 1 ≤ s.zoneFree key.zone := by
    rw [hc.zoneFree]
    omega
  refine .inr ⟨q, { s with
    pcpBitmap := update s.pcpBitmap q false
    pcp := update s.pcp key list'
    pcpFree := update s.pcpFree key.zone (s.pcpFree key.zone - 1)
    zoneFree := update s.zoneFree key.zone (s.zoneFree key.zone - 1)
    pcpAllocEvents := s.pcpAllocEvents + 1
    pcpAllocEventPages := s.pcpAllocEventPages + 1 }, ?_, by omega, ?_⟩
  · simp only [popCurrentPcp, hpop, ok_bind, hver, pcpUnmark_of_marked hmark]
    rw [subPcpFree_of_le, ok_bind, subZoneFree_of_le]
    · rfl
    · exact hpos'
    · exact hpos
  -- the page goes from the pageset, through nobody's hands, to its new owner
  have hpages := (h.pages.popPage hl hmem hl').grant (fun x hx => assign_of_covers hx)
    (Nat.zero_le _) (aligned_zero q) (uniform_zero s.area hlt)
  have hown : ∀ x, Covers 0 q x → own x = .held (.cached key) := by
    intro x hx
    rw [covers_zero.mp hx, hq]
  have hne : ∀ x, ¬ Covers 0 q x → assign own 0 q .loose x = own x :=
    fun x hx => assign_of_not_covers hx
  have hcached : ∀ z, cachedPages s.pcp z =
      cachedPages (update s.pcp key list') z + if z = key.zone then 1 else 0 := by
    refine cachedPages_add ?_ (fun k hk => (update_of_ne hk _ _).symm)
    rwa [update_self]
  have hlive := Shift.of_add (livePages_cons s.area.layout 0 q live)
  rw [show s.area.layout.zi q = key.zone from hz] at hlive
  refine ⟨_, ⟨hpages, h.ghost.grant (fun x hx => ?_) (fun x hx => ?_) (fun x hx w hw => ?_)
    (fun x hx w _ _ => by rw [hne x hx]), h.resvLen,
    hc.moved rfl .refl (.of_sub hcached) hlive (.update_sub hpos') (.update_sub hpos) .refl rfl
      rfl (by simp) (by simp), h.batch⟩,
    Keeps.grant (fun x hx => by simp [hown x hx]) (fun x hx => by rw [hne x hx])
      (fun x hx => by simp [assign_of_covers hx]) (fun hco => ?_)⟩
  · rw [hne x hx]
    exact h.ghost.notLoose x
  · rw [hne x hx]
    exact h.ghost.notStaged x
  · rw [hown x hx]
    simpa using Ne.symm (hw key)
  · exact hco.of_own fun x o' p' => (assign_eq_iff (by simp) fun x hx => by simp [hown x hx]).mp

/-! ### A block from the global lists -/

/-- The walk ends empty-handed or with a block of some zone. -/
theorem takeFromZones_spec (h : AreaInv s.area own) (order : ℕ) (highest : ZoneType)
    (wmark : AllocWmark) (mt : MigrateType) (zones : List ZoneType) :
    s.takeFromZones order highest wmark mt zones = .ok none ∨
    ∃ p zone a' own', s.takeFromZones order highest wmark mt zones = .ok (some (p, zone, a')) ∧
      Took s.area own a' own' zone order p ∧
      ∀ z, s.area.zoneFreePages z = a'.zoneFreePages z + if z = zone then 2 ^ order else 0 := by
  induction zones with
  | nil => exact .inl rfl
  | cons zone zones ih =>
  by_cases hgate : s.zoneGate zone highest order wmark = true
  · rcases h.takeBlock_spec zone order mt with
      ⟨hrun, -⟩ | ⟨p, a', own', hrun, htook, -, hpages⟩
    · simp only [takeFromZones, hgate, hrun]
      exact ih
    · refine .inr ⟨p, zone, a', own', ?_, htook, hpages⟩
      simp only [takeFromZones, hgate, hrun]
      rfl
  · simp only [takeFromZones, hgate]
    exact ih

/-- **The global walk** leaves the state alone or hands out a block. -/
theorem allocGlobal_spec (h : Inv s own live resv) (order : ℕ) (highest : ZoneType)
    (wmark : AllocWmark) (mt : MigrateType) :
    s.allocGlobal order highest wmark mt = .ok (none, s) ∨
    ∃ p s', s.allocGlobal order highest wmark mt = .ok (some p, s') ∧
      Granted s own live resv order p s' := by
  rcases takeFromZones_spec h.pages.area order highest wmark mt
    (Zonelist.walk s.zonelist highest) with hrun | ⟨p, zone, a', own', hrun, htook, hpages⟩
  · refine .inl ?_
    rw [allocGlobal, hrun]
    rfl
  have hc := h.counters
  have hle : 2 ^ order ≤ s.zoneFree zone := by
    rw [hc.zoneFree, hpages, if_pos rfl]
    omega
  refine .inr ⟨p, zeroAllocation { s with
    area := a'
    allocated := s.allocated + 2 ^ order
    allocEvents := s.allocEvents + 1
    allocEventPages := s.allocEventPages + 2 ^ order
    zoneFree := update s.zoneFree zone (s.zoneFree zone - 2 ^ order) } p order, ?_,
    Granted.zeroAllocation ?_⟩
  · simp only [allocGlobal, hrun, ok_bind, verifyPoison, kassert_true htook.poison]
    rw [subZoneFree_of_le]
    · rfl
    · exact hle
  have hm := htook.move
  have hl : ∀ q, Covers order p q → own' q = .loose := fun q hq => (htook.loose q).mpr (.inr hq)
  have hpg := (h.pages.move htook.inv hm).grant hl htook.order_le htook.aligned htook.uniform
  have hfree : ∀ q, Covers order p q → ∀ w, own q ≠ .held w := by
    intro q hq w
    obtain ⟨o', p', hown⟩ := htook.wasFree q hq
    simp [hown]
  have hlive := Shift.of_add (livePages_cons s.area.layout order p live)
  rw [← hm.layout, show a'.layout.zi p = zone from htook.zone, hm.layout] at hlive
  refine ⟨_, ⟨hpg, h.ghost.grant (fun q hq hq' => ?_) (fun q _ hq' => ?_)
    (fun q hq w _ => hfree q hq w) (fun q _ w _ _ => hm.held q w), h.resvLen,
    hc.moved hm.layout (.of_sub hpages) .refl hlive (.update_sub hle) .refl .refl
      (by omega) (by omega) (by dsimp only; omega) (by simp), h.batch⟩,
    Keeps.grant (fun q hq => hfree q hq _) (fun q _ => hm.held q _)
      (fun q hq => by simp [hl q hq]) hm.coalesced⟩
  · exact ((htook.loose q).mp hq').elim (h.ghost.notLoose q) hq
  · exact h.ghost.notStaged q ((hm.held q _).mp hq')

/-- **The global walk with draining** hands out a block, or reports that there is none. -/
theorem allocGlobalDraining_spec (h : Inv s own live resv) (order : ℕ) (highest : ZoneType)
    (wmark : AllocWmark) (mt : MigrateType) :
    (∃ s' own', s.allocGlobalDraining order highest wmark mt = .ok (.error .noMem, s') ∧
      Inv s' own' live resv ∧ Keeps s own s' own') ∨
    ∃ p s', s.allocGlobalDraining order highest wmark mt = .ok (.ok p, s') ∧
      Granted s own live resv order p s' := by
  rcases h.allocGlobal_spec order highest wmark mt with hrun | ⟨p, s', hrun, hg⟩
  · obtain ⟨b, s1, own1, hdrain, hinv1, hk1⟩ := h.drainPcpBelow_spec highest
    cases b with
    | false =>
      refine .inl ⟨s1, own1, ?_, hinv1, hk1⟩
      simp only [allocGlobalDraining, hrun, ok_bind, hdrain]
      rfl
    | true =>
    rcases hinv1.allocGlobal_spec order highest wmark mt with hrun1 | ⟨p, s', hrun1, own', hg⟩
    · refine .inl ⟨s1, own1, ?_, hinv1, hk1⟩
      simp only [allocGlobalDraining, hrun, ok_bind, hdrain, hrun1]
      rfl
    · refine .inr ⟨p, s', ?_, own', hg.1, hk1.trans hg.2⟩
      simp only [allocGlobalDraining, hrun, ok_bind, hdrain, hrun1]
      rfl
  · refine .inr ⟨p, s', ?_, hg⟩
    simp only [allocGlobalDraining, hrun]
    rfl

/-! ### Giving back -/

theorem checkNotFree_ok (h : AreaInv s.area own) (hp : ∀ o b, own p ≠ .buddy o b)
    (orders : List ℕ) : s.checkNotFree p orders = .ok () := by
  induction orders with
  | nil => rfl
  | cons o orders ih =>
  have hbit : s.area.bitmaps o (p >>> o) = false := by
    rw [← Bool.not_eq_true]
    exact fun hb => hp o _ (h.own_of_bit hb)
  rw [checkNotFree, kassert_true hbit]
  exact ih

/-- The state in which a freed page has entered its pageset and is counted there. -/
def freedFront (s : Pmm) (key : PcpKey) (p : ℕ) : Pmm :=
  { putFront s key p with
    zoneFree := update s.zoneFree key.zone (s.zoneFree key.zone + 1)
    pcpFree := update s.pcpFree key.zone (s.pcpFree key.zone + 1)
    pcpFreeEvents := s.pcpFreeEvents + 1
    pcpFreeEventPages := s.pcpFreeEventPages + 1 }

section

variable (h : Inv s own live resv)
include h

theorem liveAt (hmem : (o, p) ∈ live) : own p = .held (.live o p) ∧ LiveAt s.area own o p :=
  have hp := (h.ghost.liveMem o p).mp hmem
  ⟨hp, (h.pages.live p o p hp).2⟩

/-- The page enters the pageset of its zone and class; nothing has been drained yet. -/
theorem cacheLive (hmem : (0, p) ∈ live) (cpu : Cpu) :
    let s' := freedFront s ⟨cpu, s.area.zi p, s.area.migratetype p⟩ p
    ∃ own', Inv s' own' (live.erase (0, p)) resv ∧ Keeps s own s' own' := by
  set key : PcpKey := ⟨cpu, s.area.zi p, s.area.migratetype p⟩
  intro s'
  obtain ⟨hp, hlive⟩ := h.liveAt hmem
  have hlt : p < s.area.pfnMax := (hlive.uniform p (covers_self 0 p)).2.2
  have hpages := (h.pages.release hp).cachePage key assign_self hlt rfl rfl
  have hmo := putFront_memOnly s key p
  have hne : ∀ {x}, ¬ Covers 0 p x →
      assign (assign own 0 p .loose) 0 p (.held (.cached key)) x = own x := by
    intro x hx
    rw [assign_of_not_covers hx, assign_of_not_covers hx]
  have hself : ∀ {x}, Covers 0 p x →
      assign (assign own 0 p .loose) 0 p (.held (.cached key)) x = .held (.cached key) :=
    assign_of_covers
  have hcached : ∀ z, cachedPages (putFront s key p).pcp z =
      cachedPages s.pcp z + if z = key.zone then 1 else 0 :=
    cachedPages_add (putFront_count s key p) fun k hk => update_of_ne hk _ _
  refine ⟨_, ⟨hpages, h.ghost.release (fun x => assign_ne (by simp) fun q hq => ?_)
    (fun x => assign_ne (by simp) fun q hq => ?_) hlive.whole (fun x hx w hw => ?_)
    (fun x hx w _ _ => by rw [hne hx]), h.resvLen, h.counters.moved hmo.sameMap.layout
      (.of_eq hmo.zoneFreePages) (.of_add hcached) (.of_sub (livePages_erase s.area.layout hmem))
      .update_add .update_add .refl rfl rfl (by simp [s', freedFront, putFront])
      (by simp [s', freedFront, putFront]), h.batch⟩,
    fun x => ?_, hmo.coalesced (fun x o' p' => ?_)⟩
  · rw [assign_of_not_covers hq]
    exact h.ghost.notLoose q
  · rw [assign_of_not_covers hq]
    exact h.ghost.notStaged q
  · rw [hself hx]
    simpa using Ne.symm (hw key)
  · by_cases hx : Covers 0 p x
    · simp [hself hx, hlive.whole x hx]
    · rw [hne hx]
  · by_cases hx : Covers 0 p x
    · simp [hself hx, hlive.whole x hx]
    · rw [hne hx]

/-- A freed page goes to its pageset, and a batch from there to the buddy lists. -/
theorem freeToPcp_spec (hmem : (0, p) ∈ live) (cpu : Cpu) (online : ℕ) :
    ∃ s' own', s.freeToPcp p cpu online = .ok s' ∧ Inv s' own' (live.erase (0, p)) resv ∧
      Keeps s own s' own' := by
  obtain ⟨hp, hlive⟩ := h.liveAt hmem
  have hlt : p < s.area.pfnMax := (hlive.uniform p (covers_self 0 p)).2.2
  have hidx : s.area.layout.indexOf p = some (s.area.zi p) := h.pages.area.tiles.indexOf_zi hlt
  have hcheck := checkNotFree_ok h.pages.area (p := p) (by simp [hp]) (ordersFrom 0)
  have hclear := h.pages.unmarked (q := p) (by simp [hp])
  set key : PcpKey := ⟨cpu, s.area.zi p, s.area.migratetype p⟩ with hkey
  obtain ⟨own1, hinv, hk⟩ := h.cacheLive hmem cpu
  set s2 : Pmm := putFront s key p with hs2
  set s1 : Pmm := freedFront s key p with hs1
  -- the batch to drain is empty while the pageset is small
  obtain ⟨list, xs, a', pcp', bm', hbatch, ht⟩ : ∃ list xs a' pcp' bm',
      (if (s.pcpZone key.zone).high online < ((s.pcp key).push s.area p).1.count then
          s2.takeBatch key (max (s.pcpZone key.zone).batch 1) else .ok (.empty, s2)) =
        .ok (list, { s2 with area := a', pcp := pcp', pcpBitmap := bm' }) ∧
      Taken s1 own1 key list xs a' pcp' bm' := by
    by_cases hhigh : (s.pcpZone key.zone).high online < ((s.pcp key).push s.area p).1.count
    · obtain ⟨list, xs, a', pcp', bm', hrun, ht⟩ :=
        takeBatch_spec (s := s2) hinv.pages key (max (s.pcpZone key.zone).batch 1)
      exact ⟨list, xs, a', pcp', bm', by rw [if_pos hhigh, hrun], { ht with }⟩
    refine ⟨.empty, [], s2.area, s2.pcp, s2.pcpBitmap, ?_, by simp, ?_, PageList.empty _,
      MemOnly.refl _ _, rfl, fun _ _ => rfl⟩
    · rw [if_neg hhigh]
    · exact hinv.pages
  obtain ⟨hle, s', own', hdrain, hinv', hk'⟩ := hinv.drainTaken ht
  have hrun : s.freeToPcp p cpu online =
      if list.count = 0 then .ok (detached s1 key.zone a' pcp' bm' xs.length)
      else drainPcpList (detached s1 key.zone a' pcp' bm' xs.length) key.zone key.mt list := by
    simp only [freeToPcp, hidx, hcheck, ok_bind, pcpMark_of_clear hclear]
    refine (congrArg (· >>= _) hbatch).trans ?_
    rw [ok_bind]
    rw [subPcpFree_of_le]
    · rw [← ht.list.length]
      rfl
    · rwa [← ht.list.length]
  by_cases h0 : list.count = 0
  · have hnil : xs = [] := length_eq_zero_iff.mp (ht.list.length.trans h0)
    subst hnil
    obtain ⟨hinv2, hk2⟩ := hinv.taken_nil ht
    have hself : update s1.pcpFree key.zone
        (s1.pcpFree key.zone - ([] : List ℕ).length) = s1.pcpFree := update_eq_self _ _
    rw [detached, hself] at hrun
    exact ⟨_, own1, hrun.trans (if_pos h0), hinv2, hk.trans hk2⟩
  · exact ⟨s', own', (hrun.trans (if_neg h0)).trans hdrain, hinv', hk.trans hk'⟩

/-- **Freeing** a live block at its order never faults. -/
theorem free_spec (hmem : (o, p) ∈ live) (cpu : Cpu) (online : ℕ) :
    ∃ s' own', s.free p o cpu online = .ok s' ∧ Inv s' own' (live.erase (o, p)) resv ∧
      Keeps s own s' own' := by
  obtain ⟨hp, hlive⟩ := h.liveAt hmem
  have hlt : p < s.area.pfnMax := (hlive.uniform p (covers_self o p)).2.2
  have halign : p &&& (2 ^ o - 1) = 0 := by
    rw [Nat.and_two_pow_sub_one_eq_mod]
    exact Nat.mod_eq_zero_of_dvd hlive.aligned
  by_cases ho : o = 0
  · subst ho
    obtain ⟨s', own', hrun, hinv, hk⟩ := h.freeToPcp_spec hmem cpu online
    refine ⟨s', own', ?_, hinv, hk⟩
    simp only [free, kassert_true hlt, kassert_true halign]
    exact hrun
  have hidx : s.area.layout.indexOf p = some (s.area.zi p) := h.pages.area.tiles.indexOf_zi hlt
  have hcheck := checkNotFree_ok h.pages.area (p := p) (by simp [hp]) (ordersFrom o)
  have h₁ := h.pages.release hp
  obtain ⟨a', own', hret, hinv, hm, hl, hpages⟩ := h₁.area.returnToBuddy_spec
    ⟨⟨hlive.order_le, hlive.aligned, hlive.uniform, fun x hx => assign_of_covers hx⟩, rfl, rfl⟩
  have hc := h.counters
  have hlp := Shift.of_sub (livePages_erase s.area.layout hmem)
  have hle : 2 ^ o ≤ s.allocated := by
    have hsum := hlp.sum
    have := hc.allocated
    omega
  -- outside the block nothing is held differently; inside, nothing is held any more
  have hheld : ∀ x, ¬ Covers o p x → ∀ w, (own' x = .held w ↔ own x = .held w) := by
    intro x hx w
    rw [hm.held, assign_of_not_covers hx]
  have hgone : ∀ x, Covers o p x → ∀ w, own' x ≠ .held w := by
    intro x hx w
    rw [Ne, hm.held, assign_of_covers hx]
    simp
  refine ⟨{ s with
    area := a'
    allocated := s.allocated - 2 ^ o
    freeEvents := s.freeEvents + 1
    freeEventPages := s.freeEventPages + 2 ^ o
    zoneFree := update s.zoneFree (s.area.zi p) (s.zoneFree (s.area.zi p) + 2 ^ o) },
    own', ?_, ⟨h₁.move hinv hm, h.ghost.release (fun x hx => ?_) (fun x hx => ?_) hlive.whole
    (fun x hx w _ => hgone x hx w) (fun x hx w _ _ => hheld x hx w), h.resvLen,
    hc.moved hm.layout (.of_add (zoneFreePages_add hpages)) .refl hlp .update_add .refl
      .refl (by omega) (by omega) (by dsimp only; omega) (by simp), h.batch⟩, fun x => ?_,
    fun hco => hm.coalesced (hco.of_own fun x o' p' => (assign_eq_iff (by simp) fun x hx => ?_).mp)⟩
  · simp only [free, kassert_true hlive.order_le, kassert_true hlt, kassert_true halign,
      ok_bind, if_neg ho, hidx, hcheck, hret]
    rw [subAllocated_of_le]
    · rfl
    · exact hle
  · obtain ⟨h1, h2⟩ := (hl x).mp hx
    rw [assign_of_not_covers h2] at h1
    exact h.ghost.notLoose x h1
  · by_cases hcov : Covers o p x
    · exact hgone x hcov _ hx
    · exact h.ghost.notStaged x ((hheld x hcov _).mp hx)
  · by_cases hcov : Covers o p x
    · rw [hlive.whole x hcov]
      exact iff_of_false (hgone x hcov _) (by simp)
    · exact hheld x hcov _
  · simp [hlive.whole x hx]

/-! ### Reservation and watermarks -/

theorem congr {s' : Pmm} (harea : s'.area = s.area)
    (hpcp : s'.pcp = s.pcp ∧ s'.pcpBitmap = s.pcpBitmap)
    (hfree : s'.zoneFree = s.zoneFree ∧ s'.pcpFree = s.pcpFree)
    (hcount : s'.managed = s.managed ∧ s'.allocated = s.allocated ∧ s'.reserved = s.reserved ∧
      s'.initialFree = s.initialFree) (hbatch : ∀ z, (s'.pcpZone z).batch < 2 ^ PAGEBLOCK_ORDER) :
    Inv s' own live resv ∧ Keeps s own s' own := by
  have hc := h.counters
  cases s
  obtain ⟨rfl, rfl⟩ := hpcp
  obtain ⟨rfl, rfl⟩ := hfree
  obtain ⟨rfl, rfl, rfl, rfl⟩ := hcount
  obtain rfl := harea
  exact ⟨⟨h.pages, h.ghost, h.resvLen, ⟨hc.zoneFree, hc.pcpFree, hc.managed, hc.allocated,
    hc.initialFree⟩, hbatch⟩, fun _ => Iff.rfl, id⟩

theorem hibernateForbid (nosave : Bool) (p : ℕ) :
    Inv (s.hibernateForbid nosave p) own live resv ∧
      Keeps s own (s.hibernateForbid nosave p) own := by
  cases nosave with
  | false => exact ⟨h, Keeps.refl s own⟩
  | true => exact h.congr rfl ⟨rfl, rfl⟩ ⟨rfl, rfl⟩ ⟨rfl, rfl, rfl, rfl⟩ h.batch

theorem recompute :
    Inv s.recomputeDerived.refreshPcpZones own live resv ∧
      Keeps s own s.recomputeDerived.refreshPcpZones own :=
  h.congr rfl ⟨rfl, rfl⟩ ⟨rfl, rfl⟩ ⟨rfl, rfl, rfl, rfl⟩ (fun z => batchPages_lt (s.managed z))

theorem refreshWatermarks (t : WatermarkTunables) :
    Inv (s.refreshWatermarks t) own live resv ∧ Keeps s own (s.refreshWatermarks t) own :=
  h.congr rfl ⟨rfl, rfl⟩ ⟨rfl, rfl⟩ ⟨rfl, rfl, rfl, rfl⟩ (fun z => batchPages_lt (s.managed z))

end

theorem globallyFree_iff (h : AreaInv s.area own) (q : ℕ) :
    s.globallyFree q = true ↔ ∃ o b, own q = .buddy o b := by
  rw [globallyFree, Option.isSome_iff_ne_none, Ne, h.containingOrder_none]
  push Not
  rfl

/-- The state in which a page of a zone has been set aside. -/
def reservedOne (s : Pmm) (zone : ZoneType) (a' : FreeArea) : Pmm :=
  { s with
    area := a'
    allocated := s.allocated + 1
    reserved := s.reserved + 1
    managed := update s.managed zone (s.managed zone - 1)
    zoneFree := update s.zoneFree zone (s.zoneFree zone - 1) }

variable (h : Inv s own live resv)
include h

/-- One page taken out of the block that holds it, for good. -/
theorem reservePage (hp : own p = .buddy o (blockOf o p)) : let zone := s.area.zi (blockOf o p)
    1 ≤ s.managed zone ∧ 1 ≤ s.zoneFree zone ∧
    ∃ a' own', s.area.detachPage p o = .ok a' ∧
      Inv (reservedOne s zone a') own' live (resv ++ [p]) ∧
      (∀ q, own' q = .held .outside ↔ own q = .held .outside) ∧
      (Coalesced s.area own → Coalesced a' own') ∧
      ∀ q, q ≠ p → ((∃ o b, own' q = .buddy o b) ↔ ∃ o b, own q = .buddy o b) := by
  intro zone
  have hzp : s.area.zi p = zone := (h.pages.area.uniform hp p (covers_blockOf o p)).1
  obtain ⟨a', own1, hrun, hd, hm, hpages⟩ := h.pages.area.detachPage_spec hp
  rw [hzp] at hd hpages
  have hc := h.counters
  have hzf := zoneFreePages_add hpages
  have hle : 1 ≤ s.zoneFree zone := by
    rw [hc.zoneFree, hzf, if_pos rfl]
    omega
  have hle' : 1 ≤ s.managed zone := by
    rw [hc.managed]
    omega
  have hmv := hd.move
  have hl : ∀ q, Covers 0 p q → own1 q = .loose := fun q hq => (hd.loose q).mpr (.inr hq)
  have hpg := (h.pages.move hd.inv hmv).reassign (.held .reserved)
    (MemOnly.refl a' (Covers 0 p)) hl (by simp) (by simp)
  have hnl : ∀ q, q ≠ p → own1 q ≠ .loose := fun q hq hl => by
    rcases (hd.loose q).mp hl with h1 | h1
    · exact h.ghost.notLoose q h1
    · exact hq (covers_zero.mp h1)
  have hiff : ∀ w, w ≠ .reserved → ∀ q,
      (assign own1 0 p (.held .reserved) q = .held w ↔ own q = .held w) := by
    intro w hw q
    by_cases hq : q = p
    · subst hq
      rw [hp]
      simp [Ne.symm hw]
    · rw [assign_page hq]
      exact hmv.held q w
  refine ⟨hle', hle, a', assign own1 0 p (.held .reserved), hrun, ⟨hpg,
    ⟨fun q => ?_, fun q hq => ?_, fun o' p' => ?_, h.ghost.liveNodup, fun q => ?_, ?_⟩, ?_,
    hc.moved hm.layout (.of_sub hzf) .refl .refl (.update_sub hle) .refl (.update_sub hle') rfl rfl
      (by dsimp only [reservedOne]; omega) (by dsimp only [reservedOne]; omega), h.batch⟩,
    hiff _ (by simp),
    fun hco => ?_, fun q hq => ?_⟩
  · by_cases hq : q = p
    · simp [hq]
    · rw [assign_page hq]
      exact hnl q hq
  · exact h.ghost.notStaged q ((hiff _ (by simp) q).mp hq)
  · rw [hiff _ (by simp)]
    exact h.ghost.liveMem o' p'
  · by_cases hq : q = p
    · simp [hq]
    · rw [assign_page hq, hmv.held, ← h.ghost.resvMem]
      simp [hq]
  · refine nodup_append.mpr ⟨h.ghost.resvNodup, nodup_singleton p, fun q hq q' hq' => ?_⟩
    rintro rfl
    rw [mem_singleton] at hq'
    rw [h.ghost.resvMem, hq', hp] at hq
    cases hq
  · rw [length_append, ← h.resvLen]
    rfl
  · exact (hmv.coalesced hco).of_own fun x o' p' =>
      (assign_eq_iff (by simp) fun x hx => by simp [hl x hx]).mp
  rw [assign_page hq]
  -- a page is free exactly if it is neither held nor loose
  have key : ∀ w : Owner Holder, w ≠ .loose → ((∃ o b, w = .buddy o b) ↔ ∀ x, w ≠ .held x) := by
    intro w hw
    cases w <;> simp_all
  rw [key _ (hnl q hq), key _ (h.ghost.notLoose q)]
  exact forall_congr' fun w => not_congr (hmv.held q w)

/-- The loop reserves, in order, the pages of its range that were free when it started. -/
theorem reserveLoop_spec (nosave : Bool) (n p : ℕ) :
    ∃ s' own', reserveLoop nosave n p s = .ok s' ∧
      Inv s' own' live (resv ++ (range' p n).filter s.globallyFree) ∧ Keeps s own s' own' := by
  induction n generalizing s own resv p with
  | zero => exact ⟨s, own, rfl, by simpa using h, Keeps.refl s own⟩
  | succ n ih =>
  cases hco : s.area.containingOrder p with
  | none =>
    obtain ⟨h1, hk1⟩ := h.hibernateForbid nosave p
    obtain ⟨s', own', hrun, hinv, hk⟩ := ih h1 (p + 1)
    have hp : s.globallyFree p = false := by rw [globallyFree, hco]; rfl
    have hfree : (s.hibernateForbid nosave p).globallyFree = s.globallyFree := by
      cases nosave <;> rfl
    refine ⟨s', own', ?_, ?_, hk1.trans hk⟩
    · simp only [reserveLoop, hco]
      exact hrun
    · rw [range'_succ, filter_cons_of_neg (by simp [hp]), ← hfree]
      exact hinv
  | some o =>
    have hown := h.pages.area.containingOrder_some hco
    obtain ⟨hle', hle, a', own1, hdet, h1, hout, hcoal, hfree⟩ := h.reservePage hown
    set zone := s.area.zi (blockOf o p) with hzone
    set s1 := reservedOne s zone a' with hs1
    obtain ⟨h2, hk2⟩ := h1.hibernateForbid nosave p
    obtain ⟨s', own', hrun, hinv, hk⟩ := ih h2 (p + 1)
    have hp : s.globallyFree p = true := by rw [globallyFree, hco]; rfl
    -- the pages further on are as free as before
    have hrest : (range' (p + 1) n).filter s.globallyFree =
        (range' (p + 1) n).filter (s1.hibernateForbid nosave p).globallyFree := by
      refine filter_congr fun q hq => ?_
      have hqp : q ≠ p := by
        rw [mem_range'_1] at hq
        omega
      rw [Bool.eq_iff_iff, globallyFree_iff h.pages.area, globallyFree_iff h2.pages.area,
        hfree q hqp]
    refine ⟨s', own', ?_, ?_, Keeps.trans ⟨hout, hcoal⟩ (hk2.trans hk)⟩
    · simp only [reserveLoop, hco, hdet, ok_bind]
      rw [counterSub_of_le hle', ok_bind, subZoneFree_of_le]
      · rw [← hrun]
        cases nosave <;> rfl
      · cases nosave <;> exact hle
    · rw [range'_succ, filter_cons_of_pos hp, hrest]
      rwa [append_assoc] at hinv

/-- **Early reservation** never faults; when accepted, it reserves the free pages of the range. -/
theorem reserveEarlyInner_spec (start len : ℕ) (nosave exact : Bool) :
    (∃ e, s.reserveEarlyInner start len nosave exact = .ok (.error e, s)) ∨
    ∃ s' own', s.reserveEarlyInner start len nosave exact = .ok (.ok (), s') ∧
      Inv s' own' live (resv ++ (range' start len).filter s.globallyFree) ∧
      Keeps s own s' own' := by
  by_cases h1 : 2 ^ 64 ≤ start + len
  · exact .inl ⟨.outOfRange, if_pos h1⟩
  by_cases h2 : s.area.pfnMax < start + len
  · exact .inl ⟨.outOfRange, (if_neg h1).trans (if_pos h2)⟩
  by_cases h3 : (exact && !(range' start len).all s.globallyFree) = true
  · exact .inl ⟨.overlap, ((if_neg h1).trans (if_neg h2)).trans (if_pos h3)⟩
  obtain ⟨s1, own1, hrun, hinv, hk⟩ := h.reserveLoop_spec nosave len start
  obtain ⟨hinv', hk'⟩ := hinv.recompute
  refine .inr ⟨_, own1, ?_, hinv', hk.trans hk'⟩
  rw [reserveEarlyInner, if_neg h1, if_neg h2, if_neg h3, hrun]
  rfl

end Inv

end Oxide.Buddy
