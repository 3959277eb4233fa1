/-
Construction: seeding the usable regions establishes the invariant.

Each region is cut at the zone boundaries and each piece into the largest aligned blocks, left to
right. Two neighbouring blocks of one piece can never merge, so the free lists come out
coalesced as long as no region continues where another ends.

* **`AreaInv.seedWithinZone_spec`**, **`seedRange_spec`**, **`seedRegions_spec`**: a piece, a
  region, all regions;
* **`initZoned_spec`**: construction succeeds with the invariant, or reports an error.
-/
import Oxide.PmmInv

namespace Oxide.Buddy

open DyadicBlock FreeArea List Pmm

variable {rs : List UsableRegion} {cur pfnMax q start stop total : ℕ}

/-! ### The greedy order -/

theorem seedOrder_le (cur stop o : ℕ) : seedOrder cur stop o ≤ o := by
  induction o with
  | zero => exact le_rfl
  | succ o ih =>
  rw [seedOrder]
  split
  · exact le_rfl
  · exact ih.trans (Nat.le_succ o)

theorem seedOrder_fits (h : cur < stop) (o : ℕ) :
    Aligned (seedOrder cur stop o) cur ∧ cur + 2 ^ seedOrder cur stop o ≤ stop := by
  induction o with
  | zero => exact ⟨aligned_zero cur, h⟩
  | succ o ih =>
  rw [seedOrder]
  split
  · rename_i hfit
    rw [Nat.and_two_pow_sub_one_eq_mod] at hfit
    exact ⟨Nat.dvd_of_mod_eq_zero hfit.1, by omega⟩
  · exact ih

/-- The order chosen is the largest: the next one is misaligned or too long. -/
theorem seedOrder_max {o : ℕ} (h : seedOrder cur stop o < o)
    (hal : Aligned (seedOrder cur stop o + 1) cur) :
    stop - cur < 2 ^ (seedOrder cur stop o + 1) := by
  induction o with
  | zero => exact absurd h (Nat.not_lt_zero _)
  | succ o ih =>
  rw [seedOrder] at h hal ⊢
  split at h
  · exact absurd h (lt_irrefl _)
  rename_i hfit
  rw [if_neg hfit] at hal ⊢
  rcases Nat.lt_succ_iff_lt_or_eq.mp h with hlt | heq
  · exact ih hlt hal
  · rw [heq] at hal ⊢
    rw [Nat.and_two_pow_sub_one_eq_mod] at hfit
    exact Nat.lt_of_not_le fun hle => hfit ⟨Nat.mod_eq_zero_of_dvd hal, hle⟩

/-! ### One piece -/

/-- The pages `[lo, stop)`, loose before, have been cut into free blocks. -/
structure SeededPiece {η : Type} (a : FreeArea) (own : ℕ → Owner η) (zone : ZoneType)
    (lo stop : ℕ) (a' : FreeArea) (own' : ℕ → Owner η) : Prop where
  inv : AreaInv a' own'
  sameMap : a.SameMap a'
  kept : ∀ q, ¬ (lo ≤ q ∧ q < stop) → own' q = own q
  free : ∀ q, lo ≤ q → q < stop → ∃ o p, own' q = .buddy o p ∧ lo ≤ p ∧ p + 2 ^ o ≤ stop
  maximal : ∀ o p, own' p = .buddy o p → lo ≤ p → p < stop → o < MAX_ORDER →
    Aligned (o + 1) p → stop < p + 2 ^ (o + 1)
  pages : ∀ z, a'.zoneFreePages z = a.zoneFreePages z + if z = zone then stop - lo else 0

namespace AreaInv

variable {η : Type} {a : FreeArea} {own : ℕ → Owner η}

/-- Seeding a piece of one zone and one class. -/
theorem seedWithinZone_spec {zone : ZoneType} {mt : MigrateType} {n : ℕ} (cur managed : ℕ)
    (h : AreaInv a own) (hn : stop - cur ≤ n) (hle : cur ≤ stop) (hmax : stop ≤ a.pfnMax)
    (hloose : ∀ q, cur ≤ q → q < stop → own q = .loose)
    (hkind : ∀ q, cur ≤ q → q < stop → a.zi q = zone ∧ a.migratetype q = mt) :
    ∃ a' own', seedWithinZone zone stop n cur managed a =
        .ok (a', managed + (stop - cur)) ∧ SeededPiece a own zone cur stop a' own' := by
  induction n generalizing a own cur managed with
  | zero =>
    have he : cur = stop := by omega
    subst he
    refine ⟨a, own, by simp [seedWithinZone], h, ⟨rfl, rfl, rfl⟩, fun _ _ => rfl, by omega, ?_, ?_⟩
    · omega
    · simp
  | succ n ih =>
  by_cases hlt : cur < stop
  · obtain ⟨hal, hfit⟩ := seedOrder_fits hlt MAX_ORDER
    set o := seedOrder cur stop MAX_ORDER with ho
    have hpos := Nat.two_pow_pos o
    have hin : ∀ q, Covers o cur q → cur ≤ q ∧ q < stop := fun q hq => ⟨hq.1, by
      have := hq.2
      omega⟩
    obtain ⟨hz, hmt⟩ := hkind cur le_rfl hlt
    have huni : a.Uniform o cur := by
      intro q hq
      obtain ⟨h1, h2⟩ := hin q hq
      obtain ⟨h3, h4⟩ := hkind q h1 h2
      exact ⟨h3.trans hz.symm, h4.trans hmt.symm, by omega⟩
    obtain ⟨hpub, hinv, -⟩ := h.publish (k := ⟨zone, mt, o⟩) ⟨⟨seedOrder_le .., hal,
      huni, fun q hq => hloose q (hin q hq).1 (hin q hq).2⟩, hz, hmt⟩
    have hm := a.sameMap_published ⟨zone, mt, o⟩ cur
    have hstep : ∀ q, cur + 2 ^ o ≤ q → ¬ Covers o cur q := fun q hq hc => by
      have := hc.2
      omega
    obtain ⟨a', own', hrun, hp⟩ := ih (cur + 2 ^ o) (managed + 2 ^ o) hinv
      (by omega) hfit (by rwa [hm.pfnMax])
      (fun q h1 h2 => by
        rw [assign_of_not_covers (hstep q h1)]
        exact hloose q (by omega) h2)
      (fun q h1 h2 => by
        rw [hm.zi, hm.migratetype]
        exact hkind q (by omega) h2)
    have hfirst : ∀ q, Covers o cur q → own' q = .buddy o cur := by
      intro q hq
      rw [hp.kept q (fun hc => hstep q hc.1 hq), assign_of_covers hq]
    refine ⟨a', own', ?_, hp.inv, hm.trans hp.sameMap, fun q hq => ?_, fun q h1 h2 => ?_,
      fun o' p h1 h2 h3 h4 h5 => ?_, fun z => ?_⟩
    · rw [seedWithinZone, if_pos hlt, hmt]
      have hsum : managed + 2 ^ o + (stop - (cur + 2 ^ o)) = managed + (stop - cur) := by omega
      rw [hsum] at hrun
      exact (congrArg (· >>= _) hpub).trans hrun
    · rw [hp.kept q (by omega), assign_of_not_covers (fun hc => hq (hin q hc))]
    · by_cases hq : Covers o cur q
      · exact ⟨o, cur, hfirst q hq, le_rfl, hfit⟩
      have hge : cur + 2 ^ o ≤ q := by
        by_contra hc
        exact hq ⟨h1, by omega⟩
      obtain ⟨o', p, hown, h3, h4⟩ := hp.free q hge h2
      exact ⟨o', p, hown, by omega, h4⟩
    · by_cases hq : Covers o cur p
      · obtain ⟨rfl, rfl⟩ : o = o' ∧ cur = p := by
          rw [hfirst p hq] at h1
          simpa using h1
        have := seedOrder_max (h4 : seedOrder cur stop MAX_ORDER < MAX_ORDER) h5
        rw [← ho] at this
        omega
      · refine hp.maximal o' p h1 ?_ h3 h4 h5
        by_contra hc
        exact hq ⟨h2, by omega⟩
    have h1 := hp.pages z
    have h2 := zoneFreePages_add
      (classPages_published (a := a) (k := ⟨zone, mt, o⟩) (p := cur) (seedOrder_le ..)) z
    by_cases hzz : z = zone
    · simp only [if_pos hzz] at h1 h2 ⊢
      omega
    · simp only [if_neg hzz] at h1 h2 ⊢
      omega
  have he : cur = stop := by omega
  subst he
  refine ⟨a, own, by simp [seedWithinZone], h, ⟨rfl, rfl, rfl⟩, fun _ _ => rfl, ?_, ?_, ?_⟩
  · omega
  · omega
  · simp

/-- Coalescing, said of the lower half of each pair. -/
theorem coalesced_iff (h : AreaInv a own) :
    Coalesced a own ↔ ∀ o p, o < MAX_ORDER → Aligned (o + 1) p → own p = .buddy o p →
      own (p + 2 ^ o) = .buddy o (p + 2 ^ o) → a.zi (p + 2 ^ o) = a.zi p →
      a.migratetype (p + 2 ^ o) ≠ a.migratetype p := by
  constructor
  · intro hc o p hlt hal hp hu
    have hun := hc o p hlt hp
    rw [Unmergeable, hal.buddyOf_lower] at hun
    exact hun hu
  intro hc o p hlt hp hb hz
  rcases (h.aligned hp).buddyOf_eq with ⟨h1, h2⟩ | ⟨h1, h2⟩
  · rw [h2] at hb hz ⊢
    exact hc o p hlt h1 hp hb hz
  · generalize buddyOf o p = b at *
    subst h2
    exact (hc o b hlt h1 hb hp hz.symm).symm

end AreaInv

/-- A seeded piece stays coalesced with its surroundings, if no free page of its zone borders
on it. -/
theorem SeededPiece.coalesced {η : Type} {a a' : FreeArea} {own own' : ℕ → Owner η}
    {zone : ZoneType} {lo : ℕ} (hp : SeededPiece a own zone lo stop a' own') (h : AreaInv a own)
    (hkind : ∀ q, lo ≤ q → q < stop → a.zi q = zone)
    (hlo : ∀ o y, 0 < lo → own (lo - 1) = .buddy o y → a.zi (lo - 1) ≠ zone)
    (hstop : ∀ o y, own stop = .buddy o y → a.zi stop ≠ zone) (hc : Coalesced a own) :
    Coalesced a' own' := by
  rw [h.coalesced_iff] at hc
  rw [hp.inv.coalesced_iff]
  intro o p hlt hal hown hu hz
  rw [hp.sameMap.zi, hp.sameMap.zi] at hz
  rw [hp.sameMap.migratetype, hp.sameMap.migratetype]
  have hpos := Nat.two_pow_pos o
  -- which of the two blocks lie in the piece
  by_cases hpin : lo ≤ p ∧ p < stop
  · by_cases huin : lo ≤ p + 2 ^ o ∧ p + 2 ^ o < stop
    · have hmax := hp.maximal o p hown hpin.1 hpin.2 hlt hal
      obtain ⟨o', p', hown', -, hend⟩ := hp.free _ huin.1 huin.2
      rw [hu] at hown'
      obtain ⟨rfl, rfl⟩ : o = o' ∧ p + 2 ^ o = p' := by simpa using hown'
      omega
    obtain ⟨o', p', hown', -, hend⟩ := hp.free p hpin.1 hpin.2
    rw [hown] at hown'
    obtain ⟨rfl, rfl⟩ : o = o' ∧ p = p' := by simpa using hown'
    have he : p + 2 ^ o = stop := by omega
    rw [he] at hu hz
    rw [hp.kept stop (by omega)] at hu
    exact absurd (hz.trans (hkind p hpin.1 hpin.2)) (hstop _ _ hu)
  by_cases huin : lo ≤ p + 2 ^ o ∧ p + 2 ^ o < stop
  · have hcov : Covers o p (lo - 1) := ⟨by omega, by omega⟩
    have hown' := hp.inv.whole hown _ hcov
    rw [hp.kept _ (by omega)] at hown'
    refine absurd ?_ (hlo o p (by omega) hown')
    have huni := (hp.inv.uniform hown _ hcov).1
    rw [hp.sameMap.zi, hp.sameMap.zi] at huni
    exact (huni.trans hz.symm).trans (hkind _ huin.1 huin.2)
  · rw [hp.kept p hpin] at hown
    rw [hp.kept _ huin] at hu
    exact hc o p hlt hal hown hu hz

/-! ### A region -/

/-- The class of a zone's pages before any claim. -/
def zoneClass : ZoneType → MigrateType
  | .movable => .movable
  | _ => .unmovable

/-- The part of `[start, stop)` inside a zone. -/
def clip (l : ZoneLayout) (start stop : ℕ) (z : ZoneType) : ℕ :=
  min stop (l.span z).endPfn - max start (l.span z).startPfn

theorem cut_add {a b c : ℕ} (hle : start ≤ stop) (hab : a ≤ b) (hbc : b ≤ c) :
    (min stop b - max start a) + (min stop c - max start b) = min stop c - max start a := by
  omega

variable {l : ZoneLayout}

/-- The parts of a range in the zones add up to the range. -/
theorem sum_clip (h : l.Tiles pfnMax) (hle : start ≤ stop) (hmax : stop ≤ pfnMax) :
    (ZoneType.all.map (clip l start stop)).sum = stop - start := by
  obtain ⟨h0, h1, h2, h3, h4, h5, h6, h7, h8, -⟩ := h
  have hall : (ZoneType.all.map (clip l start stop)).sum =
      clip l start stop .dma + (clip l start stop .dma32 + (clip l start stop .normal +
        (clip l start stop .movable + 0))) := rfl
  have hsum : clip l start stop .dma + clip l start stop .dma32 + clip l start stop .normal +
      clip l start stop .movable =
        min stop (l.span .movable).endPfn - max start (l.span .dma).startPfn := by
    rw [clip, clip, clip, clip, ← h2, cut_add hle h1 (by omega), ← h4,
      cut_add hle (by omega) (by omega), ← h6, cut_add hle (by omega) (by omega)]
  omega

/-- What seeding the part of `[start, stop)` in the given zones has done. -/
structure SeededRange {η : Type} (t : Pmm.Seeding) (own : ℕ → Owner η) (start stop : ℕ)
    (zones : List ZoneType) (t' : Pmm.Seeding) (own' : ℕ → Owner η) : Prop where
  inv : AreaInv t'.area own'
  sameMap : t.area.SameMap t'.area
  kept : ∀ q, ¬ (start ≤ q ∧ q < stop ∧ t.area.zi q ∈ zones) → own' q = own q
  free : ∀ q, start ≤ q → q < stop → t.area.zi q ∈ zones → ∃ o p, own' q = .buddy o p
  pages : ∀ z, t'.area.zoneFreePages z =
    t.area.zoneFreePages z + if z ∈ zones then clip t.area.layout start stop z else 0
  managed : ∀ z, t'.managed z =
    t.managed z + if z ∈ zones then clip t.area.layout start stop z else 0
  coalesced : (start < stop → (∀ o y, 0 < start → own (start - 1) ≠ .buddy o y) ∧
    ∀ o y, own stop ≠ .buddy o y) → Coalesced t.area own → Coalesced t'.area own'

section

variable {η : Type} {t : Pmm.Seeding} {own : ℕ → Owner η} {start stop : ℕ} {zone : ZoneType}
  {zones : List ZoneType}

theorem SeededRange.refl (h : AreaInv t.area own) : SeededRange t own start stop [] t own :=
  ⟨h, ⟨rfl, rfl, rfl⟩, fun _ _ => rfl, by simp, by simp, by simp, fun _ => id⟩

theorem SeededRange.cons {a1 : FreeArea} {own1 own' : ℕ → Owner η} {t' : Pmm.Seeding}
    (h : AreaInv t.area own) (hmax : stop ≤ t.area.pfnMax) (hz : zone ∉ zones)
    (hlt : max start (t.area.layout.span zone).startPfn < min stop (t.area.layout.span zone).endPfn)
    (hp : SeededPiece t.area own zone (max start (t.area.layout.span zone).startPfn)
      (min stop (t.area.layout.span zone).endPfn) a1 own1)
    (hr : SeededRange ⟨a1, Function.update t.managed zone
        (t.managed zone + clip t.area.layout start stop zone),
        Function.update t.present zone (t.present zone + clip t.area.layout start stop zone)⟩
      own1 start stop zones t' own') :
    SeededRange t own start stop (zone :: zones) t' own' := by
  have hzi : ∀ q, a1.zi q = t.area.zi q := hp.sameMap.zi
  have hlay : a1.layout = t.area.layout := hp.sameMap.layout
  have hspan : ∀ q, q < stop → (t.area.zi q = zone ↔
      (t.area.layout.span zone).startPfn ≤ q ∧ q < (t.area.layout.span zone).endPfn) :=
    fun q hq => h.tiles.zi_eq (by omega) zone
  have hin : ∀ q, start ≤ q → q < stop → (t.area.zi q = zone ↔
      max start (t.area.layout.span zone).startPfn ≤ q ∧
        q < min stop (t.area.layout.span zone).endPfn) := by
    intro q h1 h2
    rw [hspan q h2]
    omega
  set lo := max start (t.area.layout.span zone).startPfn with hlo
  set hi := min stop (t.area.layout.span zone).endPfn with hhi
  have hclip : clip t.area.layout start stop zone = hi - lo := rfl
  have hinside : ∀ q, lo ≤ q → q < hi → t.area.zi q = zone :=
    fun q h1 h2 => (hin q (by omega) (by omega)).mpr ⟨h1, h2⟩
  refine ⟨hr.inv, hp.sameMap.trans hr.sameMap, fun q hq => ?_, fun q h1 h2 h3 => ?_, fun z => ?_,
    fun z => ?_, fun hb hc => hr.coalesced (fun _ => ⟨fun o y h0 => ?_, fun o y => ?_⟩) ?_⟩
  · have hq1 : own' q = own1 q := hr.kept q (fun hc => hq ⟨hc.1, hc.2.1, by
      rw [← hzi]
      exact mem_cons_of_mem zone hc.2.2⟩)
    rw [hq1]
    refine hp.kept q (fun hc => hq ⟨by omega, by omega, ?_⟩)
    rw [hinside q hc.1 hc.2]
    exact mem_cons_self
  · rcases mem_cons.mp h3 with h3 | h3
    · obtain ⟨h4, h5⟩ := (hin q h1 h2).mp h3
      obtain ⟨o, p, hown, -⟩ := hp.free q h4 h5
      refine ⟨o, p, ?_⟩
      rw [hr.kept q (fun hc => hz ?_)]
      · exact hown
      · have := hc.2.2
        rwa [hzi, h3] at this
    · refine hr.free q h1 h2 ?_
      rwa [hzi]
  · rw [hr.pages z]
    rw [hp.pages z, hlay]
    by_cases hzz : z = zone
    · subst hzz
      rw [if_pos rfl, if_neg hz, if_pos mem_cons_self, hclip, Nat.add_zero]
    · simp [hzz]
  · rw [hr.managed z]
    show Function.update t.managed zone (t.managed zone + clip t.area.layout start stop zone) z +
      (if z ∈ zones then clip a1.layout start stop z else 0) = _
    rw [update_add_delta, hlay]
    by_cases hzz : z = zone
    · subst hzz
      rw [if_pos rfl, if_neg hz, if_pos mem_cons_self, Nat.add_zero]
    · simp [hzz]
  · rw [hp.kept (start - 1) (by omega)]
    exact (hb (by omega)).1 o y h0
  · rw [hp.kept stop (by omega)]
    exact (hb (by omega)).2 o y
  obtain ⟨hb1, hb2⟩ := hb (by omega)
  refine hp.coalesced h hinside (fun o y h0 hown hzlo => ?_) (fun o y hown hzhi => ?_) hc
  · by_cases hs : lo = start
    · rw [hs] at h0 hown
      exact hb1 o y h0 hown
    · have := (hspan (lo - 1) (by omega)).mp hzlo
      omega
  by_cases hs : hi = stop
  · rw [hs] at hown
    exact hb2 o y hown
  · have := (hspan hi (by omega)).mp hzhi
    omega

/-- Seeding a region, zone by zone. -/
theorem seedRange_spec (start stop : ℕ) (hnd : zones.Nodup) (h : AreaInv t.area own)
    (hmax : stop ≤ t.area.pfnMax)
    (hmt : ∀ q, q < t.area.pfnMax → t.area.migratetype q = zoneClass (t.area.zi q))
    (hloose : ∀ q, start ≤ q → q < stop → t.area.zi q ∈ zones → own q = .loose) :
    ∃ t' own', seedRange start stop zones t = .ok t' ∧
      SeededRange t own start stop zones t' own' := by
  induction zones generalizing t own with
  | nil => exact ⟨t, own, rfl, SeededRange.refl h⟩
  | cons zone zones ih =>
  obtain ⟨hz, hnd⟩ := nodup_cons.mp hnd
  set lo := max start (t.area.layout.span zone).startPfn with hlo
  set hi := min stop (t.area.layout.span zone).endPfn with hhi
  have hin : ∀ q, lo ≤ q → q < hi → t.area.zi q = zone := fun q h1 h2 =>
    (h.tiles.zi_eq (by omega) zone).mpr ⟨by omega, by omega⟩
  by_cases hlt : lo < hi
  · obtain ⟨a1, own1, hrun, hp⟩ := h.seedWithinZone_spec lo 0 le_rfl hlt.le
      (by omega) (fun q h1 h2 => hloose q (by omega) (by omega) (by simp [hin q h1 h2]))
      (fun q h1 h2 => ⟨hin q h1 h2, by rw [hmt q (by omega), hin q h1 h2]⟩)
    rw [Nat.zero_add] at hrun
    have hm := hp.sameMap
    obtain ⟨t', own', hrun', hr⟩ := ih (t := ⟨a1,
        Function.update t.managed zone (t.managed zone + clip t.area.layout start stop zone),
        Function.update t.present zone (t.present zone + clip t.area.layout start stop zone)⟩)
      hnd hp.inv (by rwa [hm.pfnMax])
      (fun q hq => by
        rw [hm.migratetype, hm.zi]
        exact hmt q (by rwa [← hm.pfnMax]))
      (fun q h1 h2 h3 => by
        rw [hm.zi] at h3
        rw [hp.kept q (fun hc => hz (by rwa [← hin q hc.1 hc.2]))]
        exact hloose q h1 h2 (mem_cons_of_mem zone h3))
    refine ⟨t', own', ?_, SeededRange.cons h hmax hz hlt hp hr⟩
    exact (if_pos hlt).trans ((congrArg (· >>= _) hrun).trans hrun')
  obtain ⟨t', own', hrun, hr⟩ := ih hnd h hmax hmt
    (fun q h1 h2 h3 => hloose q h1 h2 (mem_cons_of_mem zone h3))
  have hclip : clip t.area.layout start stop zone = 0 := Nat.sub_eq_zero_of_le (by omega)
  have hno : ∀ q, start ≤ q → q < stop → t.area.zi q ≠ zone := fun q h1 h2 h3 => by
    have := (h.tiles.zi_eq (by omega) zone).mp h3
    omega
  refine ⟨t', own', (if_neg hlt).trans hrun, hr.inv, hr.sameMap, fun q hq => ?_,
    fun q h1 h2 h3 => ?_, fun z => ?_, fun z => ?_, hr.coalesced⟩
  · exact hr.kept q (fun hc => hq ⟨hc.1, hc.2.1, mem_cons_of_mem zone hc.2.2⟩)
  · rcases mem_cons.mp h3 with h3 | h3
    · exact absurd h3 (hno q h1 h2)
    · exact hr.free q h1 h2 h3
  · rw [hr.pages z]
    by_cases hzz : z = zone
    · simp [hzz, hclip]
    · simp [hzz]
  rw [hr.managed z]
  by_cases hzz : z = zone
  · simp [hzz, hclip]
  · simp [hzz]

end

/-! ### All regions -/

namespace Pmm.UsableRegion

/-- Two non-empty regions do not touch. -/
def Apart (r r' : UsableRegion) : Prop :=
  r.lenPfn ≠ 0 → r'.lenPfn ≠ 0 → r.endPfn ≠ r'.startPfn ∧ r'.endPfn ≠ r.startPfn

/-- The page belongs to one of the regions. -/
def covers (rs : List UsableRegion) (q : ℕ) : Bool :=
  rs.any fun r => r.startPfn ≤ q && q < r.endPfn

theorem covers_iff : covers rs q = true ↔ ∃ r ∈ rs, r.startPfn ≤ q ∧ q < r.endPfn := by
  simp [covers]

theorem covers_cons {r : UsableRegion} :
    covers (r :: rs) q = true ↔ (r.startPfn ≤ q ∧ q < r.endPfn) ∨ covers rs q = true := by
  simp [covers]

theorem disjoint_of_overlaps {r r' : UsableRegion} (h : r.overlaps r' = false)
    (hq : r.startPfn ≤ q ∧ q < r.endPfn) : ¬ (r'.startPfn ≤ q ∧ q < r'.endPfn) := by
  simp only [overlaps, Bool.and_eq_false_iff, decide_eq_false_iff_not] at h
  unfold endPfn at *
  omega

end Pmm.UsableRegion

open Pmm (UsableRegion)

/-- No free block touches the region. -/
def Bordered {η : Type} (own : ℕ → Owner η) (r : UsableRegion) : Prop :=
  r.startPfn < r.endPfn → (∀ o y, 0 < r.startPfn → own (r.startPfn - 1) ≠ .buddy o y) ∧
    ∀ o y, own r.endPfn ≠ .buddy o y

/-- What seeding the regions has done. -/
structure SeededRegions {η : Type} (t : Pmm.Seeding) (own : ℕ → Owner η) (rs : List UsableRegion)
    (t' : Pmm.Seeding) (own' : ℕ → Owner η) : Prop where
  inv : AreaInv t'.area own'
  sameMap : t.area.SameMap t'.area
  kept : ∀ q, UsableRegion.covers rs q = false → own' q = own q
  free : ∀ q, UsableRegion.covers rs q = true → ∃ o p, own' q = .buddy o p
  pages : ∀ z, t'.area.zoneFreePages z = t'.managed z
  managed : (ZoneType.all.map t'.managed).sum =
    (ZoneType.all.map t.managed).sum + (rs.map UsableRegion.lenPfn).sum
  coalesced : rs.Pairwise UsableRegion.Apart → (∀ r ∈ rs, Bordered own r) →
    Coalesced t.area own → Coalesced t'.area own'

theorem seedRegions_spec {η : Type} {t : Pmm.Seeding} {own : ℕ → Owner η} (h : AreaInv t.area own)
    (hmt : ∀ q, q < t.area.pfnMax → t.area.migratetype q = zoneClass (t.area.zi q))
    (hmax : ∀ r ∈ rs, r.endPfn ≤ t.area.pfnMax) (hov : anyOverlap rs = false)
    (hloose : ∀ q, UsableRegion.covers rs q = true → own q = .loose)
    (hpages : ∀ z, t.area.zoneFreePages z = t.managed z) :
    ∃ t' own', seedRegions rs t = .ok t' ∧ SeededRegions t own rs t' own' := by
  induction rs generalizing t own with
  | nil =>
    exact ⟨t, own, rfl, h, ⟨rfl, rfl, rfl⟩, fun _ _ => rfl, by simp [UsableRegion.covers], hpages,
      by simp, fun _ _ => id⟩
  | cons r rs ih =>
  rw [anyOverlap, Bool.or_eq_false_iff] at hov
  have hdis : ∀ q, r.startPfn ≤ q ∧ q < r.endPfn → UsableRegion.covers rs q = false := by
    intro q hq
    rw [← Bool.not_eq_true, UsableRegion.covers_iff]
    rintro ⟨r', hr', hq'⟩
    have hno : r.overlaps r' = false := by simpa using any_eq_false.mp hov.1 r' hr'
    exact UsableRegion.disjoint_of_overlaps hno hq hq'
  have hall : ∀ z : ZoneType, z ∈ ZoneType.all := fun z => by cases z <;> decide
  obtain ⟨t1, own1, hrun1, hr1⟩ := seedRange_spec r.startPfn
    r.endPfn (by decide : ZoneType.all.Nodup) h (hmax r (by simp)) hmt
    (fun q h1 h2 _ => hloose q (UsableRegion.covers_cons.mpr (.inl ⟨h1, h2⟩)))
  have hkept : ∀ q, ¬ (r.startPfn ≤ q ∧ q < r.endPfn) → own1 q = own q :=
    fun q hq => hr1.kept q (fun hc => hq ⟨hc.1, hc.2.1⟩)
  have hm := hr1.sameMap
  obtain ⟨t', own', hrun, hr⟩ := ih hr1.inv
    (fun q hq => by
      rw [hm.migratetype, hm.zi]
      exact hmt q (by rw [← hm.pfnMax]; exact hq))
    (fun r' hr' => by rw [hm.pfnMax]; exact hmax r' (by simp [hr'])) hov.2
    (fun q hq => by
      rw [hkept q (fun hc => ?_)]
      · exact hloose q (UsableRegion.covers_cons.mpr (.inr hq))
      · rw [hdis q hc] at hq
        cases hq)
    (fun z => by rw [hr1.pages, hr1.managed, hpages])
  refine ⟨t', own', ?_, hr.inv, hm.trans hr.sameMap, fun q hq => ?_, fun q hq => ?_, hr.pages, ?_,
    fun hap hbd hc => hr.coalesced (List.Pairwise.of_cons hap) (fun r' hr' hlt => ?_)
      (hr1.coalesced (hbd r (by simp)) hc)⟩
  · rwa [seedRegions, hrun1]
  · rw [← Bool.not_eq_true, UsableRegion.covers_cons, not_or, Bool.not_eq_true] at hq
    rw [hr.kept q hq.2, hkept q hq.1]
  · by_cases hqr : r.startPfn ≤ q ∧ q < r.endPfn
    · rw [hr.kept q (hdis q hqr)]
      exact hr1.free q hqr.1 hqr.2 (hall _)
    · exact hr.free q ((UsableRegion.covers_cons.mp hq).resolve_left hqr)
  · have hle : r.startPfn ≤ r.endPfn := Nat.le_add_right _ _
    have hsum : (ZoneType.all.map t1.managed).sum =
        (ZoneType.all.map t.managed).sum + r.lenPfn := by
      have hfun : t1.managed = fun z => t.managed z + clip t.area.layout r.startPfn r.endPfn z := by
        funext z
        rw [hr1.managed, if_pos (hall z)]
      rw [hfun, sum_map_add]
      have := sum_clip h.tiles hle (hmax r (by simp))
      rw [this, UsableRegion.endPfn]
      omega
    rw [hr.managed, map_cons, sum_cons]
    omega
  -- the pages next to `r'` are not in `r`
  obtain ⟨h1, h2⟩ := hbd r' (by simp [hr']) hlt
  have hap' := rel_of_pairwise_cons hap hr'
  have hno : r.overlaps r' = false := by simpa using any_eq_false.mp hov.1 r' hr'
  have hd := fun q => UsableRegion.disjoint_of_overlaps hno (q := q)
  have hd1 := hd r'.startPfn
  have hd2 := hd (r'.endPfn - 1)
  have hlen : r'.lenPfn ≠ 0 := by
    unfold UsableRegion.endPfn at hlt
    omega
  refine ⟨fun o y h0 => ?_, fun o y => ?_⟩
  · rw [hkept _ (fun hc => ?_)]
    · exact h1 o y h0
    have hne : r.lenPfn ≠ 0 := by
      unfold UsableRegion.endPfn at hc
      omega
    have := hap' hne hlen
    omega
  rw [hkept _ (fun hc => ?_)]
  · exact h2 o y
  have hne : r.lenPfn ≠ 0 := by
    unfold UsableRegion.endPfn at hc
    omega
  have := hap' hne hlen
  omega

/-! ### Construction -/

theorem measure_spec {m t : ℕ} (hm : m < 2 ^ 64) (h : measure rs m t = some (pfnMax, total)) :
    m ≤ pfnMax ∧ pfnMax < 2 ^ 64 ∧ (∀ r ∈ rs, r.endPfn ≤ pfnMax) ∧
      total = t + (rs.map UsableRegion.lenPfn).sum := by
  induction rs generalizing m t with
  | nil =>
    obtain ⟨rfl, rfl⟩ : m = pfnMax ∧ t = total := by simpa [Pmm.measure] using h
    exact ⟨le_rfl, hm, by simp, by simp⟩
  | cons r rs ih =>
  rw [Pmm.measure] at h
  split at h
  · cases h
  split at h
  · cases h
  obtain ⟨h1, h2, h3, h4⟩ := ih (by split <;> omega) h
  refine ⟨?_, h2, fun r' hr' => ?_, ?_⟩
  · split at h1 <;> omega
  · rcases mem_cons.mp hr' with rfl | hr'
    · split at h1 <;> omega
    · exact h3 r' hr'
  · rw [map_cons, sum_cons]
    omega

variable (mem : ℕ → FreeNode)

/-- Before seeding, the class of a page is the class of its zone. -/
theorem migratetype_emptyArea (h : l.Tiles pfnMax) (hq : q < pfnMax) :
    (emptyArea mem pfnMax l).migratetype q = zoneClass (l.zi q) := by
  have hzi := h.zi_eq hq .movable
  have htop := h.top
  have hclass : zoneClass (l.zi q) =
      if (l.span .movable).startPfn ≤ q then .movable else .unmovable := by
    by_cases hge : (l.span .movable).startPfn ≤ q
    · rw [if_pos hge, hzi.mpr ⟨hge, by omega⟩]
      rfl
    · have hne : l.zi q ≠ .movable := fun he => hge (hzi.mp he).1
      rw [if_neg hge]
      cases hz : l.zi q <;> first | rfl | exact absurd hz hne
  rw [hclass, emptyArea]
  unfold setRange
  by_cases hempty : (l.span .movable).endPfn ≤ (l.span .movable).startPfn
  · rw [if_pos hempty, if_neg (by omega)]
    rfl
  rw [if_neg hempty]
  refine if_congr ?_ rfl rfl
  have hdvd : PAGEBLOCK_PAGES ∣ (l.span .movable).startPfn :=
    h.pageblock.resolve_left (by omega)
  have hpages : PAGEBLOCK_PAGES = 2 ^ PAGEBLOCK_ORDER := rfl
  obtain ⟨k, hk⟩ := hdvd
  rw [hpages] at hk
  simp only [Nat.shiftRight_eq_div_pow]
  have hpos := Nat.two_pow_pos PAGEBLOCK_ORDER
  rw [hk, Nat.mul_div_cancel_left k hpos, Nat.le_div_iff_mul_le hpos, Nat.mul_comm]
  exact and_iff_left (Nat.div_le_div_right (by omega))

/-- Empty lists agree with any map that has no free block. -/
theorem areaInv_emptyArea {η : Type} (h : l.Tiles pfnMax) (hmax : pfnMax < 2 ^ 64)
    {own : ℕ → Owner η} (hown : ∀ q o p, own q ≠ .buddy o p) :
    AreaInv (emptyArea mem pfnMax l) own := by
  have hset : ∃ f, emptyArea mem pfnMax l =
      ⟨pfnMax, l, fun _ _ => false, f, fun _ => PFN_NULL, fun _ => 0, mem⟩ := by
    unfold emptyArea setRange
    split <;> exact ⟨_, rfl⟩
  obtain ⟨f, hf⟩ := hset
  rw [hf]
  refine ⟨h, Nat.le_sub_one_of_lt hmax, fun hq => absurd hq (hown _ _ _), fun o i => ?_,
    fun hq => absurd hq (hown _ _ _), fun _ => [],
    IntrusiveList.ListFamily.empty _ _ (fun _ => rfl), fun _ => rfl, fun k p => ?_⟩
  · exact iff_of_false (by simp) (hown _ _ _)
  · exact iff_of_false not_mem_nil (fun hp => hown _ _ _ hp.1)

/-- A manager without cached, live or reserved pages meets the invariant if its lists do. -/
theorem inv_ofSeeding {t : Pmm.Seeding} {own : ℕ → Owner Holder} (h : AreaInv t.area own)
    (hown : ∀ q, own q = .held .outside ∨ ∃ o p, own q = .buddy o p)
    (hpages : ∀ z, t.area.zoneFreePages z = t.managed z)
    (htotal : total = (ZoneType.all.map t.managed).sum) :
    Inv (ofSeeding t total) own [] [] := by
  have hheld : ∀ q w, own q = .held w → w = .outside := by
    intro q w hq
    rcases hown q with h1 | ⟨o, p, h1⟩
    · rw [hq] at h1
      simpa using h1
    · cases hq.symm.trans h1
  have hno : ∀ q w, w ≠ .outside → own q ≠ .held w := fun q w hw hq => hw (hheld q w hq)
  refine ⟨⟨h, fun k => ⟨[], PageList.empty _, fun q => ?_⟩, fun q k hq => ?_, fun q => ?_,
    fun q o p hq => ?_⟩, ⟨fun q hq => ?_, fun q => hno q _ (by simp), fun o p => ?_, nodup_nil,
    fun q => ?_, nodup_nil⟩, rfl, ⟨fun z => (Nat.add_zero _).symm, fun z => ?_, fun z => ?_,
    ?_, htotal⟩, fun z => batchPages_lt (t.managed z)⟩
  · exact iff_of_false (by simp) (hno q _ (by simp))
  · exact absurd hq (hno q _ (by simp))
  · exact iff_of_false Bool.false_ne_true (fun ⟨k, hk⟩ => hno q _ (by simp) hk)
  · exact absurd hq (hno q _ (by simp))
  · rcases hown q with h1 | ⟨o, p, h1⟩
    · cases hq.symm.trans h1
    · cases hq.symm.trans h1
  · exact iff_of_false (by simp) (hno p _ (by simp))
  · exact iff_of_false (by simp) (hno q _ (by simp))
  · refine (sum_eq_zero fun x hx => ?_).symm
    obtain ⟨k, -, rfl⟩ := mem_map.mp hx
    rfl
  · show t.managed z = t.area.zoneFreePages z + 0
    rw [hpages, Nat.add_zero]
  · rfl

/-- **Construction** reports an error or yields a manager that meets the invariant: the pages of
the regions are free, and coalesced if the regions do not touch. -/
theorem initZoned_spec (regions : List UsableRegion) (limits : Option ZoneLimits) :
    (∃ e, initZoned mem regions limits = .ok (.error e)) ∨
    ∃ s own, initZoned mem regions limits = .ok (.ok s) ∧ Inv s own [] [] ∧
      (∀ q, own q = .held .outside ↔ UsableRegion.covers regions q = false) ∧
      (regions.Pairwise UsableRegion.Apart → Coalesced s.area own) := by
  unfold initZoned
  by_cases hnil : regions = []
  · exact .inl ⟨.outOfRange, if_pos hnil⟩
  rw [if_neg hnil]
  cases hmeas : measure regions 0 0 with
  | none => exact .inl ⟨.outOfRange, rfl⟩
  | some mt =>
  obtain ⟨pfnMax, total⟩ := mt
  obtain ⟨-, hlt, hends, htotal⟩ := measure_spec (by decide) hmeas
  by_cases hov : anyOverlap regions = true
  · exact .inl ⟨.overlap, if_pos hov⟩
  set l := ZoneLayout.new (limits.getD (ZoneLimits.archDefault pfnMax)) pfnMax with hl
  have htiles : l.Tiles pfnMax := ZoneLayout.tiles_new _ _
  set own0 : ℕ → Owner Holder := fun q =>
    if UsableRegion.covers regions q = true then .loose else .held .outside with hown0
  have hmax0 : (emptyArea mem pfnMax l).pfnMax = pfnMax ∧ (emptyArea mem pfnMax l).layout = l ∧
      ∀ z, (emptyArea mem pfnMax l).zoneFreePages z = 0 := by
    have hcount : (emptyArea mem pfnMax l).freeCount = fun _ => 0 := by
      unfold emptyArea setRange
      split <;> rfl
    refine ⟨?_, ?_, fun z => zoneFreePages_of_dry fun mt o _ => by rw [hcount]⟩
    all_goals
      unfold emptyArea setRange
      split <;> rfl
  have hnb : ∀ q o p, own0 q ≠ .buddy o p := by
    intro q o p
    simp only [hown0]
    split <;> simp
  obtain ⟨t, own, hrun, hr⟩ := seedRegions_spec
    (t := ⟨emptyArea mem pfnMax l, fun _ => 0, fun _ => 0⟩)
    (areaInv_emptyArea mem htiles hlt hnb)
    (fun q hq => by
      rw [migratetype_emptyArea mem htiles (hmax0.1 ▸ hq), zi, hmax0.2.1])
    (fun r hr => by rw [hmax0.1]; exact hends r hr) (by simpa using hov)
    (fun q hq => if_pos hq) hmax0.2.2
  have hout : ∀ q, UsableRegion.covers regions q = false → own q = .held .outside := by
    intro q hq
    rw [hr.kept q hq]
    exact if_neg (by simp [hq])
  refine .inr ⟨ofSeeding t total, own, ?_, inv_ofSeeding hr.inv (fun q => ?_) hr.pages ?_,
    fun q => ⟨fun hq => ?_, hout q⟩, fun hap => ?_⟩
  · refine (if_neg hov).trans ?_
    exact (congrArg (· >>= _) hrun).trans rfl
  · by_cases hq : UsableRegion.covers regions q = true
    · exact .inr (hr.free q hq)
    · exact .inl (hout q (by simpa using hq))
  · rw [hr.managed, htotal]
    simp [ZoneType.all]
  · rw [← Bool.not_eq_true]
    intro hc
    obtain ⟨o, p, hp⟩ := hr.free q hc
    cases hq.symm.trans hp
  · refine hr.coalesced hap (fun r _ _ => ⟨fun o y _ => hnb _ o y, fun o y => hnb _ o y⟩) ?_
    exact fun o p _ hp => absurd hp (hnb p o p)

end Oxide.Buddy
