/-
Refilling a pageset, and the one self-check it can fail.

A refill stages pages from the global lists, in order of preference: pages of the requested
class, pages of a claimed and retyped pageblock, and as a last resort pages stolen from another
class, which keep that class. The page it then hands out is checked against the requested
class, so the check fails exactly when the refill had to steal.

* **`refillLoop_spec`**: how many pages a refill stages, and of which class;
* **`Inv.refillCurrentPcp_spec`**: a refill is in order if the class can supply it, and faults
  otherwise;
* **`Inv.allocInnerZoned_spec`**: the same for a whole allocation attempt.
-/
import Oxide.PmmOps

namespace Oxide.Buddy

open DyadicBlock Function FreeArea List Pmm PagesInv

variable {a a' a1 : FreeArea} {mt : MigrateType} {zone : ZoneType} {own' own1 : ℕ → Owner Holder}

/-! ### The gate -/

/-- The free pages the zone keeps back from this request. -/
def Pmm.gateFloor (s : Pmm) (zone highest : ZoneType) (wmark : AllocWmark) : ℕ :=
  satAdd (effectiveMin ((s.wmark zone).mark wmark) wmark) (s.reserve zone highest)

/-- How many pages a refill of at most `n` stages. -/
def Pmm.refillCount (s : Pmm) (zone highest : ZoneType) (wmark : AllocWmark) (n : ℕ) : ℕ :=
  min n (min (s.area.zoneFreePages zone)
    (s.area.zoneFreePages zone + s.pcpFree zone - s.gateFloor zone highest wmark))

theorem sum_add_ite (f : ℕ → ℕ) (d n : ℕ) :
    ((List.range (n + 1)).map fun o => (f o + if o = 0 then d else 0) <<< o).sum =
      ((List.range (n + 1)).map fun o => f o <<< o).sum + d := by
  induction n with
  | zero => simp
  | succ =>
  rw [range_succ]
  simp
  omega

theorem sum_orders_comm (count : MigrateType → ℕ → ℕ) (orders : List ℕ) (mts : List MigrateType) :
    (orders.map fun o => (mts.map fun mt => count mt o).sum <<< o).sum =
      (mts.map fun mt => (orders.map fun o => count mt o <<< o).sum).sum := by
  induction mts with
  | nil => simp
  | cons mt mts ih =>
    rw [map_cons, sum_cons, ← ih]
    simp only [map_cons, sum_cons, Nat.shiftLeft_eq, Nat.add_mul, sum_map_add]

/-- For single pages the gate compares the free pages of the zone, cached ones included. -/
theorem Pmm.zoneGate_zero (s : Pmm) (zone highest : ZoneType) (wmark : AllocWmark) :
    s.zoneGate zone highest 0 wmark = true ↔
      s.gateFloor zone highest wmark < s.area.zoneFreePages zone + s.pcpFree zone := by
  have hsum : Buddy.freePages (fun o => s.area.freeArea zone o +
      if o = 0 then s.pcpFree zone else 0) = s.area.zoneFreePages zone + s.pcpFree zone := by
    rw [Buddy.freePages, sum_add_ite, zoneFreePages,
      ← sum_orders_comm (fun mt o => s.area.freeCount ⟨zone, mt, o⟩)]
    rfl
  have hgate : s.zoneGate zone highest 0 wmark =
      zoneWatermarkOk 0 ((s.wmark zone).mark wmark) wmark (s.reserve zone highest)
        (fun o => s.area.freeArea zone o + if o = 0 then s.pcpFree zone else 0) := by
    simp only [zoneGate, true_and]
  rw [hgate, zoneWatermarkOk, hsum, beq_self_eq_true, Bool.true_or, Bool.and_true,
    zoneWatermarkOkPages, decide_eq_true_iff]
  rfl

/-! ### What a class can supply -/

/-- Some other class has a free block of at least a pageblock. -/
def FreeArea.Claimable (a : FreeArea) (zone : ZoneType) (mt : MigrateType) : Prop :=
  ∃ f ∈ mt.fallbacks, ∃ o ∈ ordersFrom PAGEBLOCK_ORDER, a.freeCount ⟨zone, f, o⟩ ≠ 0

/-- The class has, or can claim, `n` pages. -/
def FreeArea.Supplies (a : FreeArea) (zone : ZoneType) (mt : MigrateType) (n : ℕ) : Prop :=
  n ≤ a.classPages zone mt ∨ a.Claimable zone mt

instance (a : FreeArea) (zone : ZoneType) (mt : MigrateType) : Decidable (a.Claimable zone mt) :=
  inferInstanceAs (Decidable (∃ f ∈ _, ∃ o ∈ _, _))

instance (a : FreeArea) (zone : ZoneType) (mt : MigrateType) (n : ℕ) :
    Decidable (a.Supplies zone mt n) :=
  inferInstanceAs (Decidable (_ ∨ _))

theorem FreeArea.claimable_iff :
    a.Claimable zone mt ↔
      ∃ f ∈ mt.fallbacks, ¬ a.Dry zone f (ordersFrom (max 0 PAGEBLOCK_ORDER)) := by
  simp [Claimable, Dry]

/-- Taking one page keeps track of the supply, and the page has the wrong class exactly when
there was no supply. -/
theorem TakeKind.supplies {p m : ℕ} (h : TakeKind a a' zone 0 mt p)
    (hm : m + 1 < 2 ^ PAGEBLOCK_ORDER) :
    (a'.migratetype p = mt ∧ (a.Supplies zone mt (m + 1) ↔ a'.Supplies zone mt m)) ∨
    (a'.migratetype p ≠ mt ∧ ¬ a.Supplies zone mt (m + 1) ∧ (a'.Supplies zone mt m → m = 0)) := by
  cases h with
  | preferred hmt hpages hothers =>
    refine .inl ⟨hmt, ?_⟩
    have hclaim : a.Claimable zone mt ↔ a'.Claimable zone mt := by
      refine exists_congr fun f => and_congr_right fun hf => exists_congr fun o =>
        and_congr_right fun _ => ?_
      rw [hothers ⟨zone, f, o⟩ (MigrateType.ne_of_mem_fallbacks hf)]
    rw [pow_zero] at hpages
    rw [Supplies, Supplies, hclaim, hpages, Nat.add_le_add_iff_right]
  | claimed hdry hclaim hmt =>
    refine .inl ⟨hmt, iff_of_true (.inr (claimable_iff.mpr hclaim)) (.inl ?_)⟩
    omega
  | stolen hdry hun hun' hmt =>
  have hnone : ∀ {b : FreeArea}, (∀ f ∈ mt.fallbacks,
      b.Dry zone f (ordersFrom (max 0 PAGEBLOCK_ORDER))) → ¬ b.Claimable zone mt := by
    intro b hb hc
    obtain ⟨f, hf, hd⟩ := claimable_iff.mp hc
    exact hd (hb f hf)
  have hzero := hdry.classPages
  refine .inr ⟨hmt, ?_, fun hs => ?_⟩
  · rintro (hle | hc)
    · omega
    · exact hnone hun hc
  · rcases hs with hle | hc
    · omega
    · exact absurd hc (hnone hun')

/-! ### Staging pages -/

/-- What staging the pages `ys` on top of `xs` has done. -/
structure Refilled (s : Pmm) (own : ℕ → Owner Holder) (zone : ZoneType) (mt : MigrateType)
    (xs ys : List ℕ) (a' : FreeArea) (own' : ℕ → Owner Holder) (refill' : PcpList) : Prop where
  pages : PagesInv a' s.pcp s.pcpBitmap own'
  list : PageList a' refill' (ys ++ xs)
  staged : ∀ q, own' q = .held .staged ↔ q ∈ ys ++ xs
  notLoose : ∀ q, own' q ≠ .loose
  held : ∀ q w, w ≠ .staged → (own' q = .held w ↔ own q = .held w)
  wasFree : ∀ q ∈ ys, ∃ o b, own q = .buddy o b
  inZone : ∀ q ∈ ys, a'.zi q = zone
  keptMt : ∀ q ∈ xs, a'.migratetype q = s.area.migratetype q
  zoneFree : ∀ z, s.area.zoneFreePages z = a'.zoneFreePages z + if z = zone then ys.length else 0
  layout : a'.layout = s.area.layout
  coalesced : Coalesced s.area own → Coalesced a' own'
  typed : s.area.Supplies zone mt ys.length → ∀ q ∈ ys, a'.migratetype q = mt
  mistyped : ¬ s.area.Supplies zone mt ys.length → ∃ q l, ys = q :: l ∧ a'.migratetype q ≠ mt

section

variable {s : Pmm} {own own' : ℕ → Owner Holder} {zone : ZoneType} {mt : MigrateType}
  {xs ys : List ℕ} {refill refill' : PcpList} {p : ℕ}

section

variable (h : PagesInv s.area s.pcp s.pcpBitmap own)
include h

variable (hl : PageList s.area refill xs)
include hl

variable (hst : ∀ q, own q = .held .staged ↔ q ∈ xs)
include hst

variable (hloose : ∀ q, own q ≠ .loose)
include hloose

theorem refilled_nil : Refilled s own zone mt xs [] s.area own refill :=
  ⟨h, hl, hst, hloose, fun _ _ _ => Iff.rfl, by simp, by simp, fun _ _ => rfl, fun z => by simp,
    rfl, id, by simp, fun hn => absurd (.inl (Nat.zero_le _)) hn⟩

theorem stage_one (htook : Took s.area own a1 own1 zone 0 p) :
    PagesInv (refill.push a1 p).2 s.pcp s.pcpBitmap (assign own1 0 p (.held .staged)) ∧
      PageList (refill.push a1 p).2 (refill.push a1 p).1 (p :: xs) ∧
      (∀ q, assign own1 0 p (.held .staged) q = .held .staged ↔ q ∈ p :: xs) ∧
      (∀ q, assign own1 0 p (.held .staged) q ≠ .loose) ∧
      (∀ q w, w ≠ .staged → (assign own1 0 p (.held .staged) q = .held w ↔ own q = .held w)) ∧
      (Coalesced s.area own →
        Coalesced (refill.push a1 p).2 (assign own1 0 p (.held .staged))) := by
  have hm := htook.move
  have hl1 : ∀ q, Covers 0 p q → own1 q = .loose := fun q hq => (htook.loose q).mpr (.inr hq)
  have hmo : MemOnly a1 (refill.push a1 p).2 (Covers 0 p) :=
    PageList.push_memOnly refill a1 (covers_self 0 p)
  obtain ⟨o', p', hpown⟩ := htook.wasFree p (covers_self 0 p)
  have hpx : p ∉ xs := fun hp => by
    rw [← hst, hpown] at hp
    cases hp
  refine ⟨(h.move htook.inv hm).reassign (.held .staged) hmo hl1 (by simp) (by simp), ?_,
    fun q => ?_, fun q => ?_,
    fun q w hw => ?_, fun hc => ?_⟩
  · have hlist : PageList a1 refill xs :=
      hl.congr hm.pfnMax (fun q hq => hm.mem q _ ((hst q).mpr hq))
    exact hlist.push hpx (htook.uniform p (covers_self 0 p)).2.2 htook.inv.bound
  · by_cases hq : q = p
    · simp [hq]
    · rw [assign_page hq, hm.held, hst]
      simp [hq]
  · exact assign_ne (by simp) fun q hq hlq => ((htook.loose q).mp hlq).elim (hloose q) hq
  · refine (assign_eq_iff (by simpa using hw.symm) fun q hq => ?_).trans (hm.held q w)
    simp [hl1 q hq]
  · exact hmo.coalesced (fun q o b => assign_eq_iff (by simp) fun q hq => by simp [hl1 q hq])
      (hm.coalesced hc)

theorem refilled_snoc
    (htook : Took s.area own a1 own1 zone 0 p) (hkind : TakeKind s.area a1 zone 0 mt p)
    (hzone : ∀ z, s.area.zoneFreePages z = a1.zoneFreePages z + if z = zone then 2 ^ 0 else 0)
    (hlen : ys.length + 1 < 2 ^ PAGEBLOCK_ORDER)
    (hr : Refilled { s with area := (refill.push a1 p).2, allocated := s.allocated + 1 }
      (assign own1 0 p (.held .staged)) zone mt (p :: xs) ys a' own' refill') :
    Refilled s own zone mt xs (ys ++ [p]) a' own' refill' := by
  obtain ⟨-, -, -, -, hheld, hco⟩ := stage_one h hl hst hloose htook
  have hm := htook.move
  have hmo : MemOnly a1 (refill.push a1 p).2 (Covers 0 p) :=
    PageList.push_memOnly refill a1 (covers_self 0 p)
  have hs := hmo.sameMap
  have hmtp : a'.migratetype p = a1.migratetype p :=
    (hr.keptMt p (by simp)).trans (hs.migratetype p)
  -- the supply left after this page
  have hsup : ∀ n, (refill.push a1 p).2.Supplies zone mt n ↔ a1.Supplies zone mt n :=
    fun _ => Iff.rfl
  have hstep := hkind.supplies hlen
  have hlen' : (ys ++ [p]).length = ys.length + 1 := by simp
  refine ⟨hr.pages, by simpa using hr.list, fun q => by simpa using hr.staged q, hr.notLoose,
    fun q w hw => (hr.held q w hw).trans (hheld q w hw), fun q hq => ?_, fun q hq => ?_,
    fun q hq => ?_, fun z => ?_, hr.layout.trans (hs.layout.trans hm.layout),
    fun hc => hr.coalesced (hco hc), fun hsupp q hq => ?_, fun hnsupp => ?_⟩
  · rcases mem_append.mp hq with hq | hq
    · obtain ⟨o, b, hob⟩ := hr.wasFree q hq
      have hqp : q ≠ p := fun he => by
        rw [he] at hob
        simp at hob
      rw [assign_page hqp] at hob
      -- a page free after the take was free before it
      cases hown : own q with
      | buddy o b => exact ⟨o, b, rfl⟩
      | loose => exact absurd hown (hloose q)
      | held w =>
        rw [(hm.held q w).mpr hown] at hob
        cases hob
    · obtain rfl := mem_singleton.mp hq
      exact htook.wasFree q (covers_self 0 q)
  · rcases mem_append.mp hq with hq | hq
    · exact hr.inZone q hq
    · obtain rfl := mem_singleton.mp hq
      rw [zi, hr.layout]
      exact htook.zone
  · have hqs : own q = .held .staged := (hst q).mpr hq
    exact (hr.keptMt q (by simp [hq])).trans ((hs.migratetype q).trans (hm.mt q _ hqs))
  · have h1 := hzone z
    have h2 : (refill.push a1 p).2.zoneFreePages z = a'.zoneFreePages z +
      if z = zone then ys.length else 0 := hr.zoneFree z
    have h3 := hmo.zoneFreePages z
    by_cases hz : z = zone
    · rw [if_pos hz] at h1 h2 ⊢
      omega
    · rw [if_neg hz] at h1 h2 ⊢
      omega
  · rw [hlen'] at hsupp
    rcases hstep with ⟨hmt, hiff⟩ | ⟨-, hno, -⟩
    · rcases mem_append.mp hq with hq | hq
      · exact hr.typed ((hsup _).mpr (hiff.mp hsupp)) q hq
      · obtain rfl := mem_singleton.mp hq
        exact hmtp.trans hmt
    · exact absurd hsupp hno
  rw [hlen'] at hnsupp
  by_cases hrest : a1.Supplies zone mt ys.length
  · rcases hstep with ⟨-, hiff⟩ | ⟨hmt, -, hzero⟩
    · exact absurd (hiff.mpr hrest) hnsupp
    · have hnil : ys = [] := length_eq_zero_iff.mp (hzero hrest)
      exact ⟨p, [], by simp [hnil], by rw [hmtp]; exact hmt⟩
  · obtain ⟨q, l, rfl, hq⟩ := hr.mistyped (fun hsq => hrest ((hsup _).mp hsq))
    exact ⟨q, l ++ [p], rfl, hq⟩

end

/-- **The refill loop** stages as many pages as the gate, the zone and the batch allow. -/
theorem refillLoop_spec (zone highest : ZoneType) (wmark : AllocWmark) (mt : MigrateType) (n : ℕ)
    (hn : n < 2 ^ PAGEBLOCK_ORDER) (h : PagesInv s.area s.pcp s.pcpBitmap own)
    (hl : PageList s.area refill xs) (hst : ∀ q, own q = .held .staged ↔ q ∈ xs)
    (hloose : ∀ q, own q ≠ .loose) :
    ∃ refill' ys a' own', refillLoop zone highest wmark mt n refill s =
        .ok (refill', { s with area := a', allocated := s.allocated + ys.length }) ∧
      Refilled s own zone mt xs ys a' own' refill' ∧
      ys.length = s.refillCount zone highest wmark n ∧ (ys = [] → a' = s.area ∧ own' = own) := by
  induction n generalizing s own refill xs with
  | zero =>
    exact ⟨refill, [], s.area, own, rfl, refilled_nil h hl hst hloose, (Nat.zero_min _).symm,
      fun _ => ⟨rfl, rfl⟩⟩
  | succ n ih =>
  -- nothing can be staged
  have hstop : s.refillCount zone highest wmark (n + 1) = 0 →
      refillLoop zone highest wmark mt (n + 1) refill s = .ok (refill, s) →
      ∃ refill' ys a' own', refillLoop zone highest wmark mt (n + 1) refill s =
          .ok (refill', { s with area := a', allocated := s.allocated + ys.length }) ∧
        Refilled s own zone mt xs ys a' own' refill' ∧
        ys.length = s.refillCount zone highest wmark (n + 1) ∧
        (ys = [] → a' = s.area ∧ own' = own) :=
    fun hzero hrun => ⟨refill, [], s.area, own, hrun, refilled_nil h hl hst hloose, hzero.symm,
      fun _ => ⟨rfl, rfl⟩⟩
  by_cases hgate : s.zoneGate zone highest 0 wmark = true
  · rcases h.area.takeBlock_spec zone 0 mt with
      ⟨hrun, hdry⟩ | ⟨p, a1, own1, hrun, htook, hkind, hpages⟩
    · refine hstop ?_ ?_
      · rw [refillCount, zoneFreePages_of_dry hdry]
        simp
      · simp only [refillLoop, hgate, hrun]
        rfl
    obtain ⟨h1, hl1, hst1, hloose1, -, -⟩ := stage_one h hl hst hloose htook
    set s1 : Pmm := { s with
      area := (refill.push a1 p).2, allocated := s.allocated + 1 } with hs1
    obtain ⟨refill', ys, a', own', hrun1, hr, hlen, -⟩ :=
      ih (s := s1) (by omega) h1 hl1 hst1 hloose1
    have hlt : ys.length + 1 < 2 ^ PAGEBLOCK_ORDER := by
      have : ys.length ≤ n := hlen ▸ Nat.min_le_left _ _
      omega
    refine ⟨refill', ys ++ [p], a', own', ?_,
      refilled_snoc h hl hst hloose htook hkind hpages hlt hr, ?_, by simp⟩
    · simp only [refillLoop, hgate, hrun, ok_bind, verifyPoison, kassert_true htook.poison]
      refine hrun1.trans ?_
      simp only [hs1, length_append, length_singleton, Nat.add_assoc, Nat.add_comm 1]
    have hfree := hpages zone
    have hcount : ys.length = min n (min (a1.zoneFreePages zone)
      (a1.zoneFreePages zone + s.pcpFree zone - s.gateFloor zone highest wmark)) := hlen
    have hg := (s.zoneGate_zero zone highest wmark).mp hgate
    rw [if_pos rfl] at hfree
    rw [length_append, length_singleton, refillCount]
    omega
  refine hstop ?_ ?_
  · have hg : ¬ s.gateFloor zone highest wmark < s.area.zoneFreePages zone + s.pcpFree zone :=
      fun hlt => hgate ((s.zoneGate_zero zone highest wmark).mpr hlt)
    rw [refillCount]
    omega
  · simp only [refillLoop, hgate]
    rfl

end

/-! ### Handing out a staged page -/

/-- The refill of this pageset will not have to steal. -/
def Pmm.RefillSafe (s : Pmm) (key : PcpKey) (highest : ZoneType) (wmark : AllocWmark) : Prop :=
  s.area.Supplies key.zone key.mt
    (s.refillCount key.zone highest wmark (max (s.pcpZone key.zone).batch 1))

instance (s : Pmm) (key : PcpKey) (highest : ZoneType) (wmark : AllocWmark) :
    Decidable (s.RefillSafe key highest wmark) :=
  inferInstanceAs (Decidable (s.area.Supplies ..))

/-- No refill of this walk will have to steal: of the zones that pass the watermark check, the
first with a cached page or with anything to refill from decides. -/
def Pmm.walkSafe (s : Pmm) (highest : ZoneType) (wmark : AllocWmark) (mt : MigrateType)
    (pins : Pmm.Pins) : List ZoneType → Bool
  | [] => true
  | zone :: zones =>
    if s.pcpWatermarkOk zone highest wmark = false then s.walkSafe highest wmark mt pins zones
    else if (s.pcp ⟨pins.pop zone, zone, mt⟩).count ≠ 0 then true
    else if s.refillCount zone highest wmark (max (s.pcpZone zone).batch 1) = 0 then
      s.walkSafe highest wmark mt pins zones
    else decide (s.RefillSafe ⟨pins.refill zone, zone, mt⟩ highest wmark)

/-- The allocation attempt will not have to refill a pageset with stolen pages. -/
def Pmm.attemptSafe (s : Pmm) (order : ℕ) (highest : ZoneType) (wmark : AllocWmark)
    (mt : MigrateType) (pins : Pmm.Pins) : Bool :=
  order ≠ 0 || s.walkSafe highest wmark mt pins (Zonelist.walk s.zonelist highest)

/-- The check a stolen page fails. -/
def wrongMigratetype : Fault := .kassert "pmm pcp page wrong migratetype"

namespace Inv

variable {s : Pmm} {own : ℕ → Owner Holder} {live : List (ℕ × ℕ)} {resv : List ℕ}

/-- A page of the wrong class, however it is marked otherwise, fails the check of its class. -/
theorem verifyPcpNode_wrong {q : ℕ} (hidx : s.area.layout.indexOf q = some zone)
    (hmt : s.area.migratetype q ≠ mt) : s.verifyPcpNode q zone mt = .error wrongMigratetype := by
  rw [verifyPcpNode, kassert_true hidx, kassert_false hmt]
  rfl

variable (h : Inv s own live resv)
include h

/-- The pages staged for a refill are still counted as free. -/
theorem one_le_zoneFree {q : ℕ} {l : List ℕ} {refill : PcpList}
    (hr : Refilled s own zone mt [] (q :: l) a' own' refill) : 1 ≤ s.zoneFree zone := by
  rw [h.counters.zoneFree, hr.zoneFree, if_pos rfl, length_cons]
  omega

/-- The staged pages are handed over: the first to the caller, the others to the pageset. -/
theorem granted_refill {key : PcpKey} {q : ℕ} {l : List ℕ} {a'' : FreeArea} {refill : PcpList}
    {pcp' : PcpKey → PcpList} {bm' : ℕ → Bool}
    (hr : Refilled s own key.zone key.mt [] (q :: l) a' own' refill)
    (hpages : PagesInv a'' pcp' bm' (give own' l (.cached key)))
    (hmo : MemOnly a' a'' (fun x => x ∈ l))
    (hcount : (pcp' key).count = (s.pcp key).count + l.length)
    (hpcp : ∀ k, k ≠ key → pcp' k = s.pcp k) :
    Granted s own live resv 0 q { s with
      area := a''
      pcp := pcp'
      pcpBitmap := bm'
      allocated := s.allocated + (l.length + 1)
      pcpFree := update s.pcpFree key.zone (s.pcpFree key.zone + l.length)
      zoneFree := update s.zoneFree key.zone (s.zoneFree key.zone - 1)
      pcpAllocEvents := s.pcpAllocEvents + 1
      pcpAllocEventPages := s.pcpAllocEventPages + 1 } := by
  have hst : ∀ x, own' x = .held .staged ↔ x ∈ q :: l := by simpa using hr.staged
  have hql : q ∉ l := by
    have := hr.list.nodup
    simp only [append_nil, nodup_cons] at this
    exact this.1
  have hlt : q < a''.pfnMax := by
    rw [hmo.sameMap.pfnMax]
    exact hr.list.lt q (by simp)
  have hq : give own' l (.cached key) q = .held .staged := by
    rw [give_of_notMem hql, hst]
    simp
  have hl : ∀ x ∈ l, own' x = .held .staged := fun x hx => (hst x).mpr (by simp [hx])
  have hpg := (hpages.loosen hq).grant (fun x hx => assign_of_covers hx) (Nat.zero_le _)
    (aligned_zero q) (uniform_zero a'' hlt)
  have hne : ∀ x, ¬ Covers 0 q x → assign (give own' l (.cached key)) 0 q .loose x =
      give own' l (.cached key) x := fun x hx => assign_of_not_covers hx
  have hheld : ∀ x, ¬ Covers 0 q x → ∀ w, w ≠ .staged → (∀ k, w ≠ .cached k) →
      (assign (give own' l (.cached key)) 0 q .loose x = .held w ↔ own x = .held w) := by
    intro x hx w hw hwc
    rw [hne x hx, give_held_iff hl (hwc key) hw]
    exact hr.held x w hw
  have hfree : ∀ x, Covers 0 q x → ∀ w, own x ≠ .held w := by
    intro x hx w
    obtain ⟨o, b, hob⟩ := hr.wasFree x (by simp [covers_zero.mp hx])
    simp [hob]
  have hle := h.one_le_zoneFree hr
  have hlive := Shift.of_add (livePages_cons s.area.layout 0 q live)
  rw [← hr.layout, show a'.layout.zi q = key.zone from hr.inZone q (by simp), hr.layout] at hlive
  have hbuddy : ∀ z, s.area.zoneFreePages z =
      a''.zoneFreePages z + if z = key.zone then (q :: l).length else 0 := fun z => by
    rw [hmo.zoneFreePages]
    exact hr.zoneFree z
  refine ⟨_, ⟨hpg, h.ghost.grant (fun x hx => ?_) (fun x hx => ?_) (fun x hx w _ => hfree x hx w)
    hheld, h.resvLen, h.counters.moved (hmo.sameMap.layout.trans hr.layout) (.of_sub hbuddy)
      (.of_add (cachedPages_add hcount hpcp)) hlive (.update_sub hle) .update_add .refl (by simp)
      rfl (by dsimp only; omega) (by simp), h.batch⟩,
    Keeps.grant (fun x hx => hfree x hx _) (fun x hx => hheld x hx _ (by simp) (by simp))
      (fun x hx => by simp [assign_of_covers hx]) (fun hco => ?_)⟩
  · rw [hne x hx]
    by_cases hxl : x ∈ l
    · simp [give_of_mem hxl]
    · rw [give_of_notMem hxl]
      exact hr.notLoose x
  · rw [hne x hx]
    by_cases hxl : x ∈ l
    · simp [give_of_mem hxl]
    · rw [give_of_notMem hxl, Ne, hst]
      have hxq : x ≠ q := fun he => hx (covers_zero.mpr he)
      simp [hxl, hxq]
  · refine hmo.coalesced (fun x o b => ?_) (hr.coalesced hco)
    refine (assign_eq_iff (by simp) fun x hx => ?_).trans (give_buddy_iff hl x o b)
    simp [covers_zero.mp hx, hq]

/-- **Refilling** a pageset: nothing to be had, a fault if it has to steal, or a page. -/
theorem refillCurrentPcp_spec (key : PcpKey) (highest : ZoneType) (wmark : AllocWmark) :
    let count := s.refillCount key.zone highest wmark (max (s.pcpZone key.zone).batch 1)
    (count = 0 ∧ s.refillCurrentPcp key highest wmark = .ok (none, s)) ∨
    (count ≠ 0 ∧ ¬ s.RefillSafe key highest wmark ∧
      s.refillCurrentPcp key highest wmark = .error wrongMigratetype) ∨
    (count ≠ 0 ∧ s.RefillSafe key highest wmark ∧
      ∃ q s', s.refillCurrentPcp key highest wmark = .ok (some q, s') ∧
        Granted s own live resv 0 q s') := by
  intro count
  have hn : max (s.pcpZone key.zone).batch 1 < 2 ^ PAGEBLOCK_ORDER :=
    Nat.max_lt.mpr ⟨h.batch key.zone, by decide⟩
  obtain ⟨refill, ys, a', own', hrun, hr, hlen, hnil⟩ := refillLoop_spec key.zone highest wmark
    key.mt _ hn h.pages (PageList.empty s.area) (by simpa using h.ghost.notStaged) h.ghost.notLoose
  have hlist : PageList a' refill ys := by simpa using hr.list
  cases ys with
  | nil =>
    obtain ⟨rfl, rfl⟩ := hnil rfl
    refine .inl ⟨hlen.symm, ?_⟩
    have h0 : refill.count = 0 := hlist.length.symm
    simp only [refillCurrentPcp, hrun, ok_bind, h0, if_true]
    rfl
  | cons q l =>
  have hcount : count ≠ 0 := by
    rw [show count = (q :: l).length from hlen.symm]
    simp
  obtain ⟨list', hpop, hl'⟩ := hlist.pop_cons
  have hle := h.one_le_zoneFree hr
  have hcnt : refill.count = l.length + 1 := hlist.length.symm
  have hql : q ∉ l := (nodup_cons.mp hlist.nodup).1
  have hst : ∀ x ∈ q :: l, own' x = .held .staged :=
    fun x hx => (hr.staged x).mpr (by simpa using hx)
  set s1 : Pmm := { s with
    area := a', allocated := s.allocated + (q :: l).length } with hs1
  obtain ⟨a'', pcp', bm', hfill, hmo, hcount', hpcp, hpages⟩ := fillLoop_spec (s := s1) key
    hl' fun x hx => hr.pages.unmarked fun k => by simp [hst x (by simp [hx])]
  have hs := hmo.sameMap
  -- the rest of the function, once the pageset has been filled
  have hrest : s.refillCurrentPcp key highest wmark =
      (verifyPcpNode { s1 with area := a'' } q key.zone key.mt >>= fun _ =>
        .ok (some q, { s1 with
          area := a''
          pcp := pcp'
          pcpBitmap := bm'
          pcpFree := update s.pcpFree key.zone (s.pcpFree key.zone + l.length)
          zoneFree := update s.zoneFree key.zone (s.zoneFree key.zone - 1)
          pcpAllocEvents := s.pcpAllocEvents + 1
          pcpAllocEventPages := s.pcpAllocEventPages + 1 })) := by
    have hpop1 : refill.pop s1.area = .ok (some (q, list')) := hpop
    simp only [refillCurrentPcp, hrun, ok_bind, hpop1, ← hl'.length, hfill]
    rw [subZoneFree_of_le, ok_bind]
    · rw [hcnt]
      rfl
    · exact hle
  by_cases hsafe : s.RefillSafe key highest wmark
  · have hsup : s.area.Supplies key.zone key.mt (q :: l).length := by
      rwa [hlen]
    have hmt := hr.typed hsup
    have hpages := hpages own' hr.pages (fun x hx => hst x (by simp [hx]))
      fun x hx => ⟨hr.inZone x (by simp [hx]), hmt x (by simp [hx])⟩
    have hmem : a''.mem q = a'.mem q := hmo.mem q hql
    have hver : verifyPcpNode { s1 with area := a'' } q key.zone key.mt = .ok () := by
      refine verifyPcpNode_ok hpages.area.tiles ?_ ?_ ?_ ?_ ?_
      · rw [hs.pfnMax]
        exact hlist.lt q (by simp)
      · exact (hs.zi q).trans (hr.inZone q (by simp))
      · exact (hs.migratetype q).trans (hmt q (by simp))
      · rw [hmem]
        exact hlist.poison q (by simp)
      · rw [hmem]
        exact hlist.order q (by simp)
    refine .inr (.inr ⟨hcount, hsafe, q, _, hrest.trans ?_,
      h.granted_refill hr hpages hmo hcount' hpcp⟩)
    rw [hver, ok_bind]
    rfl
  have hsup : ¬ s.area.Supplies key.zone key.mt (q :: l).length := by
    rwa [hlen]
  obtain ⟨q', l', he, hmt⟩ := hr.mistyped hsup
  cases he
  refine .inr (.inl ⟨hcount, hsafe, hrest.trans ?_⟩)
  rw [verifyPcpNode_wrong]
  · rfl
  · rw [hs.layout, hr.pages.area.tiles.indexOf_zi (hlist.lt q (by simp))]
    exact congrArg some (hr.inZone q (by simp))
  · rwa [hs.migratetype]

/-- **The pageset path** of an attempt. -/
theorem allocFromPcp_spec (highest : ZoneType) (wmark : AllocWmark) (mt : MigrateType)
    (pins : Pmm.Pins) (zones : List ZoneType) :
    (s.walkSafe highest wmark mt pins zones = false ∧
      allocFromPcp highest wmark mt pins zones s = .error wrongMigratetype) ∨
    (s.walkSafe highest wmark mt pins zones = true ∧
      (allocFromPcp highest wmark mt pins zones s = .ok (none, s) ∨
        ∃ q s', allocFromPcp highest wmark mt pins zones s = .ok (some q, s') ∧
          Granted s own live resv 0 q s')) := by
  induction zones with
  | nil => exact .inr ⟨rfl, .inl rfl⟩
  | cons zone zones ih =>
  by_cases hok : s.pcpWatermarkOk zone highest wmark = true
  · rcases h.popCurrentPcp_spec ⟨pins.pop zone, zone, mt⟩ with
      ⟨hpop, hzero⟩ | ⟨q, s', hpop, hcount, hg⟩
    · have hrefill := h.refillCurrentPcp_spec ⟨pins.refill zone, zone, mt⟩ highest wmark
      rw [allocFromPcp, walkSafe, if_pos hok, if_neg (by simp [hok]),
        if_neg (not_not.mpr hzero), hpop, ok_bind]
      rcases hrefill with ⟨hc, hrun⟩ | ⟨hc, hsafe, hrun⟩ | ⟨hc, hsafe, q, s', hrun, hg⟩
      · rw [if_pos hc]
        simp only [hrun]
        exact ih
      · rw [if_neg hc]
        refine .inl ⟨decide_eq_false hsafe, ?_⟩
        simp only [hrun, error_bind]
      rw [if_neg hc]
      refine .inr ⟨decide_eq_true hsafe, .inr ⟨q, s', ?_, hg⟩⟩
      simp only [hrun]
      rfl
    · rw [allocFromPcp, walkSafe, if_pos hok, if_neg (by simp [hok]), if_pos hcount, hpop]
      exact .inr ⟨rfl, .inr ⟨q, s', rfl, hg⟩⟩
  · rw [allocFromPcp, walkSafe, if_neg hok, if_pos (by simpa using hok)]
    exact ih

/-- **An allocation attempt**: a fault if it is not safe, otherwise an error or a block. -/
theorem allocInnerZoned_spec (order : ℕ) (highest : ZoneType) (wmark : AllocWmark)
    (mt : MigrateType) (pins : Pmm.Pins) :
    (s.attemptSafe order highest wmark mt pins = false ∧
      s.allocInnerZoned order highest wmark mt pins = .error wrongMigratetype) ∨
    (s.attemptSafe order highest wmark mt pins = true ∧
      ((∃ e s' own', s.allocInnerZoned order highest wmark mt pins = .ok (.error e, s') ∧
        Inv s' own' live resv ∧ Keeps s own s' own') ∨
      ∃ p s', s.allocInnerZoned order highest wmark mt pins = .ok (.ok p, s') ∧
        Granted s own live resv order p s')) := by
  have hglobal : (∃ e s' own', s.allocGlobalDraining order highest wmark mt = .ok (.error e, s') ∧
      Inv s' own' live resv ∧ Keeps s own s' own') ∨
      ∃ p s', s.allocGlobalDraining order highest wmark mt = .ok (.ok p, s') ∧
        Granted s own live resv order p s' :=
    (h.allocGlobalDraining_spec order highest wmark mt).imp_left fun hno => ⟨_, hno⟩
  by_cases hbig : MAX_ORDER < order
  · have h0 : order ≠ 0 := by omega
    refine .inr ⟨by simp [attemptSafe, h0], .inl ⟨.invalidOrder, s, own, if_pos hbig, h,
      Keeps.refl s own⟩⟩
  rw [allocInnerZoned, if_neg hbig]
  by_cases h0 : order = 0
  · subst h0
    rw [if_pos rfl]
    rcases h.allocFromPcp_spec highest wmark mt pins (Zonelist.walk s.zonelist highest) with
      ⟨hsafe, hpcp⟩ | ⟨hsafe, hpcp | ⟨q, s', hpcp, hg⟩⟩ <;> rw [hpcp]
    · exact .inl ⟨by simpa [attemptSafe] using hsafe, rfl⟩
    · exact .inr ⟨by simpa [attemptSafe] using hsafe, hglobal⟩
    · exact .inr ⟨by simpa [attemptSafe] using hsafe, .inr ⟨q, _, rfl, hg.zeroAllocation⟩⟩
  rw [if_neg h0]
  exact .inr ⟨by simp [attemptSafe, h0], hglobal⟩

end Inv

end Oxide.Buddy
