/-
Sums over the VMAs of a tree, and the hooks a range operation runs.

The specifications of the range operations speak about lookups. This file adds what counting
needs: a `tally` sums a weight over the VMAs, and every turn of a range operation is described
as a `Cut` (a VMA replaced by its pieces, hooks in order) followed by `Merges` (coalescings).

* `splice_tally`, `AbsorbStep.tally_eq`: what a cut and a coalescing do to a tally;
* `splitRewrite_eq`: a rewriting split, as an equation: the pieces are put in address order;
* `rewriteKey_run`, `sealKey_run`, `policyKey_run`, `removeKey_run`: **one turn of each loop,
  with the tree and the hook trace it leaves**.
-/
import Oxide.VmaRangeLoop

namespace Oxide

open OrdMap UserVirtAddr

variable {t' : VmaTree}

namespace VmaTree

/-! ### Tallies -/

variable {t : VmaTree} {v : Vma} {k : UserVirtAddr} {start : UserVirtAddr} {stop : ℕ} (f : Vma → ℕ)

/-- The sum of a weight over the VMAs of the tree. -/
def tally (t : VmaTree) : ℕ := t.map.total f

theorem tally_congr (h : t'.map = t.map) : t'.tally f = t.tally f := by
  rw [tally, tally, h]

theorem tally_without (hv : t.map.get? k = some v) : f v + (t.without k).tally f = t.tally f :=
  total_erase f hv

section

variable (hw : t.WellFormed)
include hw

/-- A VMA that meets none of the tree has a fresh key. -/
theorem WellFormed.get?_of_fits (hf : t.Fits v) (hne : v.start.asU64 < v.end.asU64) :
    t.map.get? v.start = none := by
  cases hg : t.map.get? v.start with
  | none => rfl
  | some =>
  have hd := hf _ _ hg
  have hk := eq_iff.mp (hw.keyed hg)
  have hw' := hw.nonempty hg
  omega

theorem tally_store (hf : t.Fits v) (hne : v.start.asU64 < v.end.asU64) :
    (t.store v).tally f = f v + t.tally f :=
  total_insert_of_none f v (hw.get?_of_fits hf hne)

theorem tally_storeOpt {o : Option Vma} (ho : ∀ w ∈ o, w.start.asU64 < w.end.asU64 ∧ t.Fits w) :
    (t.storeOpt o).tally f = (o.toList.map f).sum + t.tally f := by
  cases o with
  | none => simp [storeOpt]
  | some w =>
    rw [storeOpt, tally_store f hw (ho w rfl).2 (ho w rfl).1]
    simp

theorem values_ordered : t.map.values.Pairwise fun v w => v.end.asU64 ≤ w.start.asU64 := by
  rw [OrdMap.values, List.pairwise_map]
  refine t.map.sorted.imp_of_mem fun {a b} ha hb hlt => ?_
  exact hw.end_le (get?_eq_some_iff_mem.mpr ha) (get?_eq_some_iff_mem.mpr hb) hlt

/-- **A splice trades the weight of a VMA for the weights of its pieces.** -/
theorem splice_tally (hv : t.Has v) (hm : Meets start stop v)
    {mid : Option Vma} (hmid : Fills start stop v mid) :
    f v + (t.splice v mid start stop).tally f =
      ((pieces mid start stop v).map f).sum + t.tally f := by
  have hp := splice_pieces hw hv hm hmid
  have hout := tally_without f hv
  rw [splice, tally_storeOpt f hp.wf2 hp.right, tally_storeOpt f hp.wf1 hp.inside,
    tally_storeOpt f hp.wf0 hp.left, pieces]
  simp only [List.map_append, List.sum_append]
  omega

end

/-- A coalescing trades the weights of two VMAs for that of the survivor. -/
theorem AbsorbStep.tally_eq {l r : Vma} (hs : AbsorbStep t t' l r) (hw : t.WellFormed) :
    f l + f r + t'.tally f = f (l.absorb r) + t.tally f := by
  have hleft : (t.without r.start).Has l := by
    rw [Has, get?_without_of_ne (hs.start_lt hw).ne]
    exact hs.left
  have hr := tally_without f hs.right
  have hl := tally_without f hleft
  have hnone : ((t.without r.start).without l.start).map.get? l.start = none := by
    rw [get?_without, if_pos rfl]
  have hput := total_insert_of_none f (l.absorb r) hnone
  rw [tally_congr f hs.map_eq_store]
  have hput' : (((t.without r.start).without l.start).store (l.absorb r)).tally f =
      f (l.absorb r) + ((t.without r.start).without l.start).tally f := hput
  omega

/-! ### One turn, with its hooks -/

theorem putAll_mapPut_events (u : VmaTree) (ws : List Vma) :
    (putAll mapPut u ws).events = (ws.map VmEvent.opened).reverse ++ u.events := by
  induction ws generalizing u with
  | nil => rfl
  | cons w ws ih =>
  show (putAll mapPut (u.mapPut w.start w) ws).events = _
  rw [ih]
  simp [mapPut, vmaOpened]

theorem putAll_mapReinsert_events (u : VmaTree) (ws : List Vma) :
    (putAll mapReinsert u ws).events = u.events := by
  induction ws generalizing u with
  | nil => rfl
  | cons w ws ih => exact ih (u.mapReinsert w.start w)

/-- A VMA replaced by its pieces: these are opened in address order, then the VMA is closed. -/
structure Cut (t : VmaTree) (v : Vma) (mid : Option Vma) (start : UserVirtAddr) («end» : ℕ)
    (t' : VmaTree) : Prop where
  map_eq : t'.map = (t.splice v mid start «end»).map
  events_eq : t'.events =
    .closed v :: (((pieces mid start «end» v).map VmEvent.opened).reverse ++ t.events)

theorem cut_of_putAll (t : VmaTree) (v : Vma) (mid : Option Vma) (start : UserVirtAddr)
    (stop : ℕ) :
    Cut t v mid start stop
      ((putAll mapPut (t.without v.start) (pieces mid start stop v)).vmaClosed v) where
  map_eq := putAll_pieces_map mapPut_map t v mid start stop
  events_eq := congrArg (VmEvent.closed v :: ·) (putAll_mapPut_events _ _)

/-- Coalescings one after the other, each closing the VMA it absorbs. -/
inductive Merges : VmaTree → VmaTree → Prop
  | refl (t : VmaTree) : Merges t t
  | step {t t₁ t' : VmaTree} {l r : Vma} (hs : AbsorbStep t t₁ l r)
      (hev : t₁.events = .closed r :: t.events) (hrest : Merges t₁ t') : Merges t t'

theorem Merges.wellFormed (h : Merges t t') (hw : t.WellFormed) : t'.WellFormed := by
  induction h with
  | refl => exact hw
  | step hs _ _ ih => exact ih (hs.wellFormed hw)

variable {cur : Vma}

/-- A merge attempt is a coalescing that closes what it absorbs, or nothing. -/
theorem tryMergeLeft_merges (hw : t.WellFormed) (hcur : t.Has cur)
    (h : t.tryMergeLeft cur.start = .ok t') :
    t' = t ∨ ∃ l, AbsorbStep t t' l cur ∧ t'.events = .closed cur :: t.events := by
  obtain ⟨t1, ht1, hs⟩ := tryMergeLeft_spec hw hcur
  cases h.symm.trans ht1
  exact hs.imp_right fun ⟨l, _, hl⟩ => ⟨l, hl⟩

theorem tryMergeRight_merges (hw : t.WellFormed)
    (hcur : t.Has cur) (h : t.tryMergeRight cur.start = .ok t') :
    t' = t ∨ ∃ r, AbsorbStep t t' cur r ∧ t'.events = .closed r :: t.events := by
  obtain ⟨t1, ht1, hs⟩ := tryMergeRight_spec hw hcur
  cases h.symm.trans ht1
  exact hs.imp (fun h => h.1) fun ⟨r, _, hr⟩ => ⟨r, hr⟩

/-- Coalescings that each join two VMAs at a point of `[lo, hi]`. -/
inductive MergesAround (lo hi : ℕ) : VmaTree → VmaTree → Prop
  | refl (t : VmaTree) : MergesAround lo hi t t
  | step {t t₁ t' : VmaTree} {l r : Vma} (hs : AbsorbStep t t₁ l r)
      (hev : t₁.events = .closed r :: t.events) (hlo : lo ≤ r.start.asU64)
      (hhi : r.start.asU64 ≤ hi) (hrest : MergesAround lo hi t₁ t') : MergesAround lo hi t t'

variable {hi lo : ℕ}

theorem MergesAround.merges (h : MergesAround lo hi t t') : Merges t t' := by
  induction h with
  | refl t => exact .refl t
  | step hs hev _ _ _ ih => exact .step hs hev ih

theorem MergesAround.mono {lo' hi' : ℕ} (h : MergesAround lo hi t t') (hlo : lo' ≤ lo)
    (hhi : hi ≤ hi') : MergesAround lo' hi' t t' := by
  induction h with
  | refl t => exact .refl t
  | step hs hev h1 h2 _ ih => exact .step hs hev (hlo.trans h1) (h2.trans hhi) ih

/-- **The merge attempts around a VMA are coalescings at its two ends that close what they
absorb.** -/
theorem remerge_mergesAround (hw : t.WellFormed) {mid : Vma} (hmid : t.Has mid)
    {orphan : Except Panic UserVirtAddr} (h : t.remerge orphan mid.start = .ok t') :
    MergesAround mid.start.asU64 mid.end.asU64 t t' := by
  have hne := hw.nonempty hmid
  obtain ⟨t1, ht1, -⟩ := tryMergeLeft_spec hw hmid
  -- the right attempt starts from wherever the VMA lives now
  have hright : ∀ (t1 : VmaTree) (cur : Vma), t1.WellFormed → t1.Has cur → cur.end = mid.end →
      t1.tryMergeRight cur.start = .ok t' →
      MergesAround mid.start.asU64 mid.end.asU64 t1 t' := by
    intro t1 cur hw1 hcur hend hr
    rcases tryMergeRight_merges hw1 hcur hr with rfl | ⟨r, hs, hev⟩
    · exact .refl _
    · have habut := eq_iff.mp (hend.symm.trans hs.mergeable.abut)
      exact .step hs hev (by omega) (by omega) (.refl _)
  rcases tryMergeLeft_merges hw hmid ht1 with rfl | ⟨l, hs, hev⟩
  · simp only [remerge, ht1, hmid, bind, Except.bind] at h
    exact hright _ _ hw hmid rfl h
  have hw1 := hs.wellFormed hw
  have hlt := hs.start_lt hw
  have hprev : t1.map.prev? mid.start = some (l.start, l.absorb mid) := by
    refine prev?_eq_some_iff.mpr ⟨hs.get?_left, hlt, fun k'' v'' hg hk => ?_⟩
    -- a key in between would start inside the left neighbour
    by_contra hle
    have hend := hw1.end_le hs.get?_left hg (not_le.mp hle)
    rw [hw1.keyed hg] at hend
    have hk' := lt_iff.mp hk
    have hend' : mid.end.asU64 ≤ k''.asU64 := hend
    omega
  simp only [remerge, ht1, hs.get?_right hw, hprev, bind, Except.bind] at h
  exact .step hs hev le_rfl hne.le (hright t1 (l.absorb mid) hw1 hs.get?_left rfl h)

variable {e : UserVirtAddr} {rewrite : Vma → Vma}

theorem rewriteKey_run {missing : VmaTree → Except Panic VmaTree} {msg : String}
    {orphan : UserVirtAddr → Except Panic UserVirtAddr} (hrw : KeepsRange rewrite)
    (hw : t.WellFormed) (hv : t.Has v) (hm : Meets start e.asU64 v)
    (h : rewriteKey missing msg orphan rewrite start e t v.start = .ok t') :
    ∃ t1, Cut t v (some (rewrite (midPiece start e.asU64 v))) start e.asU64 t1 ∧
      MergesAround start.asU64 e.asU64 t1 t' := by
  set mid := rewrite (midPiece start e.asU64 v) with hmid
  have hcut := cut_of_putAll t v (some mid) start e.asU64
  have hstart : mid.start = clipStart start v := (hrw _).1
  have hfill : Fills start e.asU64 v (some mid) := hrw.fills start e.asU64 v
  have hsp := (splice_spec hw hv hm hfill).of_map_eq hcut.map_eq
  refine ⟨_, hcut, ?_⟩
  simp only [rewriteKey, mapTake_of_get? hv, splitRewrite_eq mapPut msg hrw] at h
  rw [← hstart] at h
  have hlo := hfill.start_asU64 rfl
  have hhi := hfill.end_asU64 rfl
  exact (remerge_mergesAround hsp.wellFormed (hsp.get?_mid mid rfl) h).mono (by omega) (by omega)

theorem sealKey_run (hv : t.Has v) (h : sealKey start e t v.start = .ok t') :
    Cut t v (some (sealRewrite (midPiece start e.asU64 v))) start e.asU64 t' := by
  simp only [sealKey, mapTake_of_get? hv, splitRewrite_eq mapPut "UVA in range"
    sealRewrite_keepsRange] at h
  rw [← Except.ok.inj h]
  exact cut_of_putAll t v _ start e.asU64

/-- One turn of the policy writers' loop: the tree of a cut, without its hooks. -/
theorem policyKey_run (hrw : KeepsRange rewrite)
    (hv : t.Has v) (h : policyKey rewrite start e t v.start = .ok t') :
    t'.map = (t.splice v (some (rewrite (midPiece start e.asU64 v))) start e.asU64).map ∧
      t'.events = t.events := by
  simp only [policyKey, mapTake_of_get? hv, splitRewrite_eq mapReinsert "UVA in range" hrw] at h
  rw [← Except.ok.inj h]
  exact ⟨putAll_pieces_map mapReinsert_map t v _ start e.asU64, putAll_mapReinsert_events _ _⟩

theorem removeKey_run {st st' : List Vma × VmaTree} (hv : st.2.Has v)
    (h : removeKey start stop st v.start = .ok st') :
    st'.1 = st.1 ++ [midPiece start stop v] ∧ Cut st.2 v none start stop st'.2 := by
  rw [removeKey_eq hv] at h
  rw [← Except.ok.inj h]
  exact ⟨rfl, cut_of_putAll st.2 v none start stop⟩

/-- What an insertion leaves: the new VMA among the others, coalesced, or the tree. -/
theorem insert_run {vma : Vma} (hw : t.WellFormed) {r : Except Error Unit}
    (h : t.insert vma = .ok (r, t')) :
    (r = .error .inval ∧ t' = t ∧ (vma.start.asU64 < vma.end.asU64 → ¬ t.Fits vma)) ∨
      (r = .ok () ∧ vma.start.asU64 < vma.end.asU64 ∧ t.Fits vma ∧
        MergesAround vma.start.asU64 vma.end.asU64 (t.mapPut vma.start vma) t') := by
  rw [VmaTree.insert] at h
  split_ifs at h with h1 h2 h3
  · cases h
    exact .inl ⟨rfl, rfl, fun hne => absurd hne (by omega)⟩
  · cases h
    refine .inl ⟨rfl, rfl, fun hne hfit => ?_⟩
    obtain ⟨⟨k, v⟩, hfloor, hgt⟩ := (Option.any_eq_true _ _).mp h2
    obtain ⟨hv, hk, -⟩ := floor?_eq_some_iff.mp hfloor
    have := hfit k v hv
    have := le_iff.mp (hw.keyed hv ▸ hk)
    have hgt' : vma.start.asU64 < v.end.asU64 := of_decide_eq_true hgt
    omega
  · cases h
    refine .inl ⟨rfl, rfl, fun hne hfit => ?_⟩
    obtain ⟨⟨k, v⟩, hnext, hlt⟩ := (Option.any_eq_true _ _).mp h3
    obtain ⟨hv, hk, -⟩ := next?_eq_some_iff.mp hnext
    have := hfit k v hv
    have := hw.nonempty hv
    have := lt_iff.mp (hw.keyed hv ▸ hk)
    have hlt' : v.start.asU64 < vma.end.asU64 := of_decide_eq_true hlt
    omega
  have hfit := fits_of_neighbours hw h2 h3
  have hput : (t.mapPut vma.start vma).WellFormed := (hw.store (by omega) hfit).of_map_eq rfl
  have hget : (t.mapPut vma.start vma).Has vma := by
    rw [Has, mapPut_map, get?_insert, if_pos rfl]
  obtain ⟨t1, ht1, -⟩ := remerge_spec hput hget (.ok vma.start)
  simp only [ht1] at h
  cases h
  exact .inr ⟨rfl, by omega, hfit, remerge_mergesAround hput hget ht1⟩

theorem rawEndKey_le {endKey : UserVirtAddr} (h : rawEndKey stop = some endKey) :
    endKey.asU64 ≤ stop := by
  rw [rawEndKey, Option.or_eq_some_iff] at h
  rcases h with h | ⟨-, h⟩
  · rw [UserVirtAddr.new] at h
    split_ifs at h
    rw [← Option.some_inj.mp h]
  split_ifs at h with he
  rw [UserVirtAddr.new] at h
  split_ifs at h
  rw [← Option.some_inj.mp h, he]
  show USER_VA_END - 1 ≤ USER_VA_END
  omega

/-- What every turn of a coalescing loop establishes, told as its cut and its coalescings. -/
theorem Coalesces.cuts {R : VmaTree → VmaTree → Prop}
    (h : Coalesces rewrite start e t t') (hrefl : ∀ t, R t t)
    (htrans : ∀ {a b c}, R a b → R b c → R a c)
    (hR : ∀ {t v t1 t'}, t.WellFormed → t.Has v → Meets start e.asU64 v →
      Cut t v (some (rewrite (midPiece start e.asU64 v))) start e.asU64 t1 → t1.WellFormed →
      MergesAround start.asU64 e.asU64 t1 t' → R t t') : R t t' := by
  refine h.rel hrefl htrans fun hw hv hm hb => ?_
  obtain ⟨t1, hcut, hmerge⟩ := rewriteKey_run h.keepsRange hw hv hm hb
  exact hR hw hv hm hcut ((splice_spec hw hv hm (h.keepsRange.fills start e.asU64 _)).of_map_eq
    hcut.map_eq).wellFormed hmerge

/-- What every turn of a removal establishes holds across the removal. -/
theorem removeRangeRawEnd_rel {R : List Vma × VmaTree → List Vma × VmaTree → Prop}
    (hrefl : ∀ s, R s s) (htrans : ∀ {a b c}, R a b → R b c → R a c) (hw : t.WellFormed)
    (hR : ∀ {s v s'}, s.2.WellFormed → s.2.Has v → Meets start stop v →
      s'.1 = s.1 ++ [midPiece start stop v] → Cut s.2 v none start stop s'.2 → R s s')
    {removed : List Vma} (h : t.removeRangeRawEnd start stop = .ok (removed, t')) :
    R ([], t) (removed, t') := by
  rw [removeRangeRawEnd] at h
  split_ifs at h with hr
  · rw [← Except.ok.inj h]
    exact hrefl _
  cases hk : rawEndKey stop with
  | none =>
    rw [hk] at h
    rw [← Except.ok.inj h]
    exact hrefl _
  | some =>
  rw [hk] at h
  exact splitLoop_rel Prod.snd (removeKey_spec start stop) hrefl htrans hw
    (not_le.mp hr) (rawEndKey_le hk) (fun s v s' _ hw hv hm hb =>
      hR hw hv hm (removeKey_run hv hb).1 (removeKey_run hv hb).2) h

end VmaTree

end Oxide
