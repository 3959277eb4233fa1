/-
Bytes of a tree.

How many bytes of the VMAs with some attribute lie in a range is a tally, and one that cuts and
coalescings keep: a cut shares the bytes of a VMA out among its pieces, a coalescing puts them
together. Only the middle of a cut may change its attribute, and that shows only inside the
range of the operation.

* `Coalesces.extent_eq`: a coalescing loop moves no bytes outside its range, and none at all if
  the rewrite keeps the attribute;
* `removeRangeRawEnd_extent`: what a removal takes out of the tree is what it returns;
* `insert_extent`: an insertion adds the bytes of the new VMA;
* `tally_extent_le`: the VMAs of a well-formed tree fit into the address range.
-/
import Oxide.VmaTally

namespace Oxide

open List

variable {t' : VmaTree}

theorem bitsContain_twoPow {w : ℕ} (x : BitVec w) {i : ℕ} (hi : i < w) :
    bitsContain x (BitVec.twoPow w i) = x.getLsbD i := by
  rw [bitsContain, BitVec.and_twoPow]
  cases hx : x.getLsbD i with
  | true => simp
  | false =>
  have hne : (0#w : BitVec w) ≠ BitVec.twoPow w i := by
    intro h
    have := congrArg (fun y => y.getLsbD i) h
    simp [hi] at this
  simpa using hne

namespace VmaTree

variable {t : VmaTree} {v : Vma} {start : UserVirtAddr} {stop : ℕ} {p : Vma → Bool}

/-- A property of VMAs that fragments inherit and coalescing VMAs share. -/
structure Attribute (p : Vma → Bool) : Prop where
  fragment : ∀ v a b, p (v.cloneSubrange a b) = p v
  absorb : ∀ {l r}, Vma.Mergeable l r → p (l.absorb r) = p l
  shared : ∀ {l r}, Vma.Mergeable l r → p l = p r

/-- The bytes of `v` in `[lo, hi)`, if it has the attribute. -/
def extent (p : Vma → Bool) (lo hi : ℕ) (v : Vma) : ℕ :=
  if p v then min v.end.asU64 hi - max v.start.asU64 lo else 0

theorem extent_congr {w : Vma} (lo hi : ℕ) (hp : p w = p v) (hs : w.start = v.start)
    (he : w.end = v.end) : extent p lo hi w = extent p lo hi v := by
  rw [extent, extent, hp, hs, he]

/-! ### Cuts and coalescings -/

/-- A range cut in two shares out the bytes it has in `[lo, hi)`. -/
theorem clip_add {a b c : ℕ} (hac : a ≤ c) (hcb : c ≤ b) (lo hi : ℕ) :
    (min c hi - max a lo) + (min b hi - max c lo) = min b hi - max a lo := by
  rcases le_total c hi with h | h
  · rcases le_total lo c with h' | h'
    · omega
    · omega
  · omega

variable {m : Vma} {hi lo : ℕ}

/-- The pieces around the range and the middle share out the bytes of the VMA, as long as the
middle keeps the attribute or the bytes counted lie outside the range. -/
theorem sum_extent_pieces (hp : Attribute p) (hm : Meets start stop v)
    (hfill : Fills start stop v (some m)) (hkeep : p m = p v ∨ hi ≤ start.asU64 ∨ stop ≤ lo) :
    ((pieces (some m) start stop v).map (extent p lo hi)).sum = extent p lo hi v := by
  obtain ⟨hne, hrange, hlt, hgt⟩ := hm
  have hs := hfill.start_asU64 rfl
  have he := hfill.end_asU64 rfl
  have hmid : extent p lo hi m =
      if p v then min m.end.asU64 hi - max m.start.asU64 lo else 0 := by
    rw [extent]
    rcases hkeep with h | h
    · rw [h]
    · -- the middle contributes nothing either way
      have h0 : min m.end.asU64 hi - max m.start.asU64 lo = 0 := by omega
      rw [h0, ite_self, ite_self]
  have hleft : ((leftPiece start v).toList.map (extent p lo hi)).sum =
      if p v then min m.start.asU64 hi - max v.start.asU64 lo else 0 := by
    rw [leftPiece]
    by_cases h : v.start.asU64 < start.asU64
    · rw [if_pos h, Option.toList_some, map_singleton, extent, hp.fragment, hs, max_eq_left h.le]
      rfl
    · have h0 : min m.start.asU64 hi - max v.start.asU64 lo = 0 := by omega
      rw [if_neg h, h0, ite_self]
      rfl
  have hright : ((rightPiece stop v).toList.map (extent p lo hi)).sum =
      if p v then min v.end.asU64 hi - max m.end.asU64 lo else 0 := by
    rw [rightPiece]
    by_cases h : stop < v.end.asU64
    · rw [if_pos h, Option.toList_some, map_singleton, extent, hp.fragment, he]
      rfl
    · have h0 : min v.end.asU64 hi - max m.end.asU64 lo = 0 := by omega
      rw [if_neg h, h0, ite_self]
      rfl
  rw [pieces, map_append, map_append, sum_append, sum_append, hleft, hright,
    Option.toList_some, map_singleton, sum_singleton, hmid, extent]
  cases p v with
  | false => rfl
  | true =>
  simp only [if_true]
  rw [clip_add (by omega : m.start.asU64 ≤ m.end.asU64) (by omega : m.end.asU64 ≤ v.end.asU64),
    clip_add (by omega : v.start.asU64 ≤ m.start.asU64) (by omega : m.start.asU64 ≤ v.end.asU64)]

/-- A cut around a middle moves no bytes but those of the middle. -/
theorem Cut.extent_eq (hc : Cut t v (some m) start stop t') (hp : Attribute p) (hw : t.WellFormed)
    (hv : t.Has v) (hm : Meets start stop v) (hfill : Fills start stop v (some m))
    (hkeep : p m = p v ∨ hi ≤ start.asU64 ∨ stop ≤ lo) :
    t'.tally (extent p lo hi) = t.tally (extent p lo hi) := by
  have h := splice_tally (extent p lo hi) hw hv hm hfill
  rw [sum_extent_pieces hp hm hfill hkeep, ← tally_congr _ hc.map_eq] at h
  omega

theorem midPiece_fills (start : UserVirtAddr) (stop : ℕ) (v : Vma) :
    Fills start stop v (some (midPiece start stop v)) := by
  intro m hm
  cases hm
  exact ⟨rfl, rfl⟩

theorem fills_none (start : UserVirtAddr) (stop : ℕ) (v : Vma) : Fills start stop v none := by
  intro m hm
  cases hm

/-- A cut without a middle takes out the bytes of the middle piece. -/
theorem Cut.extent_removed (hc : Cut t v none start stop t') (hp : Attribute p) (hw : t.WellFormed)
    (hv : t.Has v) (hm : Meets start stop v) (lo hi : ℕ) :
    t'.tally (extent p lo hi) + extent p lo hi (midPiece start stop v) =
      t.tally (extent p lo hi) := by
  have h := splice_tally (extent p lo hi) hw hv hm (fills_none start stop v)
  have hsum : ((pieces (some (midPiece start stop v)) start stop v).map (extent p lo hi)).sum = _ :=
    sum_extent_pieces hp hm (midPiece_fills start stop v) (.inl (hp.fragment ..))
  rw [← tally_congr _ hc.map_eq] at h
  simp only [pieces, map_append, sum_append, Option.toList_some, Option.toList_none,
    map_singleton, sum_singleton, map_nil, sum_nil] at h hsum
  omega

theorem Merges.extent_eq (h : Merges t t') (hp : Attribute p) (hw : t.WellFormed) (lo hi : ℕ) :
    t'.tally (extent p lo hi) = t.tally (extent p lo hi) := by
  induction h with
  | refl => rfl
  | @step t t1 t' l r hs hev hrest ih =>
    rw [ih (hs.wellFormed hw)]
    have h := hs.tally_eq (extent p lo hi) hw
    have hl := hw.nonempty hs.left
    have hr := hw.nonempty hs.right
    have habut := UserVirtAddr.eq_iff.mp hs.mergeable.abut
    have hsplit : extent p lo hi (l.absorb r) = extent p lo hi l + extent p lo hi r := by
      rw [extent, extent, extent, hp.absorb hs.mergeable, ← hp.shared hs.mergeable]
      cases p l with
      | false => rfl
      | true =>
        rw [← habut]
        exact (clip_add (b := r.end.asU64) hl.le (by omega) lo hi).symm
    omega

/-! ### Operations -/

/-- **A coalescing loop moves no bytes outside its range**, and none at all if the rewrite keeps
the attribute. -/
theorem Coalesces.extent_eq {rewrite : Vma → Vma} {e : UserVirtAddr}
    (h : Coalesces rewrite start e t t') (hp : Attribute p)
    (hkeep : (∀ m, p (rewrite m) = p m) ∨ hi ≤ start.asU64 ∨ e.asU64 ≤ lo) :
    t'.tally (extent p lo hi) = t.tally (extent p lo hi) := by
  refine h.cuts (R := fun t t' => t'.tally (extent p lo hi) = t.tally (extent p lo hi))
    (fun _ => rfl) (fun h1 h2 => h2.trans h1) fun {t v t1 t'} hw hv hm hcut hw1 hmerge => ?_
  refine (hmerge.merges.extent_eq hp hw1 lo hi).trans
    (hcut.extent_eq hp hw hv hm (h.keepsRange.fills start e.asU64 v) (hkeep.imp (fun h => ?_) id))
  rw [h, midPiece, hp.fragment]

/-- What a removal has done: the bytes it took out of the tree are those of the VMAs it returns,
which are not empty. -/
structure Removed (t : VmaTree) (removed : List Vma) (t' : VmaTree) : Prop where
  wellFormed : t'.WellFormed
  nonempty : ∀ w ∈ removed, w.start.asU64 < w.end.asU64
  extent_eq : ∀ {p}, Attribute p → ∀ lo hi,
    t'.tally (extent p lo hi) + (removed.map (extent p lo hi)).sum = t.tally (extent p lo hi)

theorem Removed.refl (hw : t.WellFormed) : Removed t [] t :=
  ⟨hw, by simp, fun _ _ _ => by simp⟩

/-- **A removal returns what it takes out of the tree.** -/
theorem removeRangeRawEnd_extent (hw : t.WellFormed) {removed : List Vma}
    (h : t.removeRangeRawEnd start stop = .ok (removed, t')) : Removed t removed t' := by
  -- each turn adds to the result what it takes out
  have hrel : ∃ ws, removed = [] ++ ws ∧ Removed t ws t' := by
    refine removeRangeRawEnd_rel (R := fun s s' => s.2.WellFormed →
        ∃ ws, s'.1 = s.1 ++ ws ∧ Removed s.2 ws s'.2) (fun s hw => ⟨[], by simp, .refl hw⟩)
      (fun {a b c} h₁ h₂ hw => ?_) hw (fun {s v s'} hw hv hm hres hcut _ => ?_) h hw
    · obtain ⟨ws, hws, hr1⟩ := h₁ hw
      obtain ⟨ws', hws', hr2⟩ := h₂ hr1.wellFormed
      refine ⟨ws ++ ws', by rw [hws', hws, append_assoc], hr2.wellFormed, ?_, ?_⟩
      · intro w hmem
        rcases mem_append.mp hmem with hmem | hmem
        · exact hr1.nonempty w hmem
        · exact hr2.nonempty w hmem
      intro p hp lo hi
      have e1 := hr1.extent_eq hp lo hi
      have e2 := hr2.extent_eq hp lo hi
      rw [map_append, sum_append]
      omega
    have hsp := (splice_spec hw hv hm (fills_none start stop v)).of_map_eq hcut.map_eq
    refine ⟨[midPiece start stop v], hres, hsp.wellFormed, ?_, ?_⟩
    · intro w hmem
      obtain rfl := mem_singleton.mp hmem
      have h1 := (midPiece_fills start stop v).start_asU64 rfl
      have h2 := (midPiece_fills start stop v).end_asU64 rfl
      have := hm.nonempty
      have := hm.range
      have := hm.lt_end
      have := hm.start_lt
      omega
    · intro p hp lo hi
      exact hcut.extent_removed hp hw hv hm lo hi
  obtain ⟨ws, hws, hrem⟩ := hrel
  rwa [hws, nil_append]

/-- **An insertion adds the bytes of the new VMA.** -/
theorem insert_extent {vma : Vma} (hw : t.WellFormed) (h : t.insert vma = .ok (.ok (), t')) :
    t'.WellFormed ∧ vma.start.asU64 < vma.end.asU64 ∧ ∀ {p}, Attribute p → ∀ lo hi,
      t'.tally (extent p lo hi) = t.tally (extent p lo hi) + extent p lo hi vma := by
  rcases insert_run hw h with ⟨h', -⟩ | ⟨-, hne, hfit, hmerge⟩
  · cases h'
  have hput : (t.mapPut vma.start vma).WellFormed := (hw.store hne hfit).of_map_eq rfl
  refine ⟨hmerge.merges.wellFormed hput, hne, fun {p} hp lo hi => ?_⟩
  rw [hmerge.merges.extent_eq hp hput]
  have hst := tally_store (extent p lo hi) hw hfit hne
  have hcongr : (t.mapPut vma.start vma).tally (extent p lo hi) =
      (t.store vma).tally (extent p lo hi) := rfl
  omega

/-! ### Sums -/

theorem tally_add (f g : Vma → ℕ) (t : VmaTree) :
    t.tally (fun v => f v + g v) = t.tally f + t.tally g := by
  rw [tally, tally, tally, OrdMap.total, OrdMap.total, OrdMap.total, sum_map_add]

/-- Disjoint ranges above `lo` have no more bytes than there are above `lo`. -/
theorem sum_extent_le (p : Vma → Bool) (lo' hi : ℕ) (vs : List Vma) (lo : ℕ)
    (hord : vs.Pairwise fun v w => v.end.asU64 ≤ w.start.asU64)
    (hlo : ∀ v ∈ vs, lo ≤ v.start.asU64 ∧ v.start.asU64 < v.end.asU64) (hle : lo ≤ USER_VA_END) :
    (vs.map (extent p lo' hi)).sum + lo ≤ USER_VA_END := by
  induction vs generalizing lo with
  | nil => simpa using hle
  | cons v vs ih =>
  obtain ⟨hv, hvs⟩ := pairwise_cons.mp hord
  obtain ⟨h1, h2⟩ := hlo v (by simp)
  have h3 : v.end.asU64 < USER_VA_END := v.end.isUser
  have hrest := ih v.end.asU64 hvs
    (fun w hw => ⟨hv w hw, (hlo w (mem_cons_of_mem v hw)).2⟩) h3.le
  have hext : extent p lo' hi v ≤ v.end.asU64 - v.start.asU64 := by
    rw [extent]
    split_ifs <;> omega
  rw [map_cons, sum_cons]
  omega

/-- **The VMAs of a well-formed tree fit into the address range.** -/
theorem tally_extent_le (hw : t.WellFormed) (p : Vma → Bool) (lo hi : ℕ) :
    t.tally (extent p lo hi) ≤ USER_VA_END := by
  have h := sum_extent_le p lo hi t.map.values 0 (values_ordered hw) (fun v hv => ?_)
    (Nat.zero_le _)
  · exact h
  · obtain ⟨k, hk⟩ := OrdMap.mem_values_iff.mp hv
    exact ⟨Nat.zero_le _, hw.nonempty hk⟩

end VmaTree

end Oxide
