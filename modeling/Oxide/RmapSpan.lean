/-
Detaching and attaching the edges of a span.

Around a change of the tree, `rmap_resplit` takes the edges of every VMA it touches off the
reverse maps and puts the edges of the VMAs of the new tree on. This file says which edges are
there afterwards.

* `superRange_spec`: the span is the union of the VMAs that meet the range;
* `mem_detachObjects_file`, `mem_attachAll_file`: the edges of the mapped objects;
* `mem_detachFamilies_chain`, `mem_attachAll_chain`: the edges of the families;
* `FileRmap.Sound`, `Rmaps.Room`: the sequence numbers keep increasing while they have room.
-/
import Oxide.VmaReshape
import Oxide.AddressSpace

namespace Oxide

open Function List

variable {av f mm x : Arc} {t : FileRmapTarget} {vs : List Vma} {r : Rmaps} {v : Vma}
  {e n s start stop : ℕ}

/-! ### Sequence numbers -/

/-- The sequence numbers increase along the targets and stay below the next one. -/
structure FileRmap.Sound (r : FileRmap) : Prop where
  ordered : FileRmap.Ordered r.targets
  below : ∀ t ∈ r.targets, t.seq < r.nextSeq
  pos : 0 < r.nextSeq

theorem FileRmap.Sound.new : FileRmap.new.Sound where
  ordered := ⟨.nil, by simp [FileRmap.new]⟩
  below := by simp [FileRmap.new]
  pos := Nat.one_pos

theorem FileRmap.Sound.detach {r : FileRmap} (h : r.Sound) (mm : Arc) (start stop : ℕ) :
    (r.detach mm start stop).Sound where
  ordered := ⟨h.ordered.increasing.filter _, fun t ht => h.ordered.pos t (mem_filter.mp ht).1⟩
  below t ht := h.below t (mem_filter.mp ht).1
  pos := h.pos

theorem FileRmap.nextSeq_attach {r : FileRmap} (hroom : r.nextSeq + 1 < 2 ^ 64) (mm : Arc)
    (start stop page : ℕ) (mayWrite : Bool) :
    (r.attach mm start stop page mayWrite).nextSeq = r.nextSeq + 1 := by
  show max ((r.nextSeq + 1) % 2 ^ 64) 1 = r.nextSeq + 1
  omega

theorem FileRmap.Sound.attach {r : FileRmap} (h : r.Sound) (hroom : r.nextSeq + 1 < 2 ^ 64)
    (mm : Arc) (start stop page : ℕ) (mayWrite : Bool) :
    (r.attach mm start stop page mayWrite).Sound where
  ordered := by
    refine ⟨?_, fun t ht => ?_⟩
    · refine pairwise_append.mpr ⟨h.ordered.increasing, pairwise_singleton _ _, ?_⟩
      intro t ht t' ht'
      rw [mem_singleton.mp ht']
      exact h.below t ht
    rcases mem_append.mp ht with ht | ht
    · exact h.ordered.pos t ht
    · rw [mem_singleton.mp ht]
      exact h.pos
  below t ht := by
    rw [nextSeq_attach hroom]
    rcases mem_append.mp ht with ht | ht
    · exact (h.below t ht).trans (Nat.lt_succ_self _)
    · rw [mem_singleton.mp ht]
      exact Nat.lt_succ_self _
  pos := by
    rw [nextSeq_attach hroom]
    omega

namespace Rmaps

/-- The sequence numbers of every object are sound and have room for `n` more edges. -/
def Room (r : Rmaps) (n : ℕ) : Prop :=
  ∀ x, (r.file x).Sound ∧ (r.file x).nextSeq + n < 2 ^ 64

theorem Room.mono {m : ℕ} (h : r.Room n) (hmn : m ≤ n) : r.Room m :=
  fun x => ⟨(h x).1, by have := (h x).2; omega⟩

theorem Room.of_file {r' : Rmaps} (h : r.Room n) (he : r'.file = r.file) : r'.Room n := by
  intro x
  rw [he]
  exact h x

theorem Room.detachObject (h : r.Room n) (mm : Arc) (v : Vma) : (r.detachObject mm v).Room n := by
  intro x
  rw [Rmaps.detachObject]
  split
  · rename_i rmap _ _ _ _
    by_cases hx : x = rmap
    · subst hx
      simp only [Rmaps.detachFile, update_self]
      exact ⟨(h x).1.detach _ _ _, (h x).2⟩
    · simp only [Rmaps.detachFile, update_of_ne hx]
      exact h x
  · exact h x

/-- The file part of an attachment: the edge of a file VMA with a reverse map, or nothing. -/
theorem attachVma_file (r : Rmaps) (mm : Arc) (v : Vma) (start stop : ℕ) (x : Arc) :
    (∃ f off, v.fileRmap = some x ∧ v.backing = .file f off ∧
      (r.attachVma mm v start stop).file x = (r.file x).attach mm
        start stop (off.toNat / PAGE_SIZE_BYTES) (bitsContain v.mayProt VmaProt.WRITE)) ∨
    (r.attachVma mm v start stop).file x = r.file x := by
  rw [attachVma]
  cases v.fileRmap with
  | none =>
    refine .inr ?_
    cases v.anonVma <;> rfl
  | some rmap =>
  cases v.backing with
  | file f off =>
    by_cases hx : x = rmap
    · subst hx
      refine .inl ⟨f, off, rfl, rfl, ?_⟩
      cases v.anonVma <;> exact update_self ..
    · refine .inr ?_
      cases v.anonVma <;> exact update_of_ne hx _ _
  | _ =>
    refine .inr ?_
    cases v.anonVma <;> rfl

theorem Room.attachVma (h : r.Room (n + 1)) (mm : Arc) (v : Vma) (start stop : ℕ) :
    (r.attachVma mm v start stop).Room n := by
  intro x
  have hx := h x
  rcases attachVma_file r mm v start stop x with ⟨f, off, -, -, he⟩ | he
  · rw [he]
    refine ⟨hx.1.attach (by omega) _ _ _ _ _, ?_⟩
    rw [FileRmap.nextSeq_attach (by omega)]
    omega
  · rw [he]
    exact ⟨hx.1, by omega⟩

/-! ### Edges of many VMAs -/

/-- Attach every VMA over its own range. -/
def attachAll (mm : Arc) (vs : List Vma) (r : Rmaps) : Rmaps :=
  vs.foldl (fun r v => r.attachVma mm v v.start.asU64 v.end.asU64) r

theorem Room.attachAll (h : r.Room (n + vs.length)) (mm : Arc) : (r.attachAll mm vs).Room n := by
  induction vs generalizing r with
  | nil => exact h
  | cons v vs ih =>
    refine ih (Room.attachVma ?_ mm v _ _)
    exact h.mono (by rw [length_cons]; omega)

/-- An edge of an object that stands for a VMA. -/
structure EdgeOf (mm : Arc) (rmap : Arc) (v : Vma) (start «end» : ℕ) (t : FileRmapTarget) :
    Prop where
  mm_eq : t.mm = mm
  start_eq : t.start = start
  end_eq : t.end = «end»
  owner : v.fileRmap = some rmap
  page : ∃ f off, v.backing = .file f off ∧ t.filePageStart = off.toNat / PAGE_SIZE_BYTES

theorem EdgeOf.covers {a : ℕ} (h : EdgeOf mm x v start stop t) (h1 : start ≤ a) (h2 : a < stop) :
    t.mm = mm ∧ t.start ≤ a ∧ a < t.end := by
  obtain ⟨hm, rfl, rfl, -⟩ := h
  exact ⟨hm, h1, h2⟩

/-- Attaching a VMA adds its edge. -/
theorem mem_attachVma_file (h : t ∈ ((r.attachVma mm v start stop).file x).targets) :
    t ∈ (r.file x).targets ∨ EdgeOf mm x v start stop t := by
  rcases attachVma_file r mm v start stop x with ⟨f, off, hr, hb, he⟩ | he
  · rw [he] at h
    rcases mem_append.mp h with h | h
    · exact .inl h
    · rw [mem_singleton.mp h]
      exact .inr ⟨rfl, rfl, rfl, hr, f, off, hb, rfl⟩
  · rw [he] at h
    exact .inl h

theorem mem_attachVma_file_of_mem (h : t ∈ (r.file x).targets) :
    t ∈ ((r.attachVma mm v start stop).file x).targets := by
  rcases attachVma_file r mm v start stop x with ⟨f, off, -, -, he⟩ | he
  · rw [he]
    exact mem_append_left _ h
  · rwa [he]

theorem exists_attachVma_file (r : Rmaps) (mm x : Arc) (start stop : ℕ) (hr : v.fileRmap = some x)
    {off : BitVec 64} (hb : v.backing = .file f off) :
    ∃ t ∈ ((r.attachVma mm v start stop).file x).targets, EdgeOf mm x v start stop t := by
  have he : (r.attachVma mm v start stop).file = update r.file x ((r.file x).attach mm
      start stop (off.toNat / PAGE_SIZE_BYTES) (bitsContain v.mayProt VmaProt.WRITE)) := by
    rw [attachVma, hr, hb]
    cases v.anonVma <;> rfl
  rw [he, update_self]
  exact ⟨_, mem_append_right _ (mem_singleton.mpr rfl), rfl, rfl, rfl, hr, f, off, hb, rfl⟩

theorem mem_attachAll_file (h : t ∈ ((r.attachAll mm vs).file x).targets) :
    t ∈ (r.file x).targets ∨ ∃ v ∈ vs, EdgeOf mm x v v.start.asU64 v.end.asU64 t := by
  induction vs generalizing r with
  | nil => exact .inl h
  | cons v vs ih =>
  rcases ih h with h | ⟨w, hw, he⟩
  · rcases mem_attachVma_file h with h | he
    · exact .inl h
    · exact .inr ⟨v, by simp, he⟩
  · exact .inr ⟨w, mem_cons_of_mem v hw, he⟩

theorem mem_attachAll_file_of_mem (h : t ∈ (r.file x).targets) :
    t ∈ ((r.attachAll mm vs).file x).targets := by
  induction vs generalizing r with
  | nil => exact h
  | cons v vs ih => exact ih (mem_attachVma_file_of_mem h)

theorem exists_attachAll_file (r : Rmaps) (mm : Arc) (hv : v ∈ vs) (hr : v.fileRmap = some x)
    {off : BitVec 64} (hb : v.backing = .file f off) :
    ∃ t ∈ ((r.attachAll mm vs).file x).targets, EdgeOf mm x v v.start.asU64 v.end.asU64 t := by
  induction vs generalizing r with
  | nil => cases hv
  | cons w vs ih =>
  rcases mem_cons.mp hv with rfl | hv
  · obtain ⟨t, ht, he⟩ := exists_attachVma_file r mm x v.start.asU64 v.end.asU64 hr hb
    exact ⟨t, mem_attachAll_file_of_mem (r := r.attachVma mm v v.start.asU64 v.end.asU64) ht, he⟩
  · exact ih _ hv

/-- Detach the file edges of every VMA. -/
def detachObjects (mm : Arc) (vs : List Vma) (r : Rmaps) : Rmaps :=
  vs.foldl (fun r v => r.detachObject mm v) r

/-- The edge lies inside the VMA and belongs to it. -/
def EdgeInside (mm x : Arc) (v : Vma) (t : FileRmapTarget) : Prop :=
  t.mm = mm ∧ v.fileRmap = some x ∧ (∃ f off, v.backing = .file f off) ∧
    v.start.asU64 ≤ t.start ∧ t.end ≤ v.end.asU64

theorem mem_detachObject_file :
    t ∈ ((r.detachObject mm v).file x).targets ↔
      t ∈ (r.file x).targets ∧ ¬ EdgeInside mm x v t := by
  rw [detachObject]
  split
  · rename_i rmap f off hr hb
    by_cases hx : x = rmap
    · subst hx
      simp only [detachFile, update_self, FileRmap.detach, mem_filter,
        EdgeInside, hr, hb, Bool.or_eq_true, bne_iff_ne, decide_eq_true_eq]
      refine and_congr_right fun _ => ?_
      constructor
      · rintro h ⟨h1, -, -, h2, h3⟩
        rcases h with (h | h) | h
        · exact h h1
        · omega
        · omega
      intro h
      by_cases h1 : t.mm = mm
      · by_cases h2 : v.start.asU64 ≤ t.start
        · by_contra h3
          exact h ⟨h1, trivial, ⟨f, off, rfl⟩, h2, by omega⟩
        · exact .inl (.inr (by omega))
      · exact .inl (.inl h1)
    · simp only [detachFile, update_of_ne hx]
      refine ⟨fun h => ⟨h, fun he => hx ?_⟩, fun h => h.1⟩
      exact Option.some_inj.mp (he.2.1.symm.trans hr)
  · rename_i hno
    refine ⟨fun h => ⟨h, ?_⟩, fun h => h.1⟩
    rintro ⟨-, hr, ⟨f, off, hb⟩, -, -⟩
    exact hno _ _ _ hr hb

theorem mem_detachObjects_file :
    t ∈ ((r.detachObjects mm vs).file x).targets ↔
      t ∈ (r.file x).targets ∧ ∀ v ∈ vs, ¬ EdgeInside mm x v t := by
  induction vs generalizing r with
  | nil => simp [detachObjects]
  | cons v vs ih =>
  have h := ih (r := r.detachObject mm v)
  rw [mem_detachObject_file] at h
  rw [forall_mem_cons]
  refine h.trans ?_
  rw [and_assoc]

theorem Room.detachObjects (h : r.Room n) (mm : Arc) (vs : List Vma) :
    (r.detachObjects mm vs).Room n := by
  induction vs generalizing r with
  | nil => exact h
  | cons v vs ih => exact ih (h.detachObject mm v)

/-! ### What stays -/

section

variable (r : Rmaps) (mm : Arc)

/-- A loop over VMAs leaves what each of its steps leaves. -/
theorem foldl_keeps {γ : Type*} (g : Rmaps → γ) {step : Rmaps → Vma → Rmaps}
    (h : ∀ r v, g (step r v) = g r) (vs : List Vma) : g (vs.foldl step r) = g r := by
  induction vs generalizing r with
  | nil => rfl
  | cons v vs ih => exact (ih _).trans (h r v)

/-- What no edge is part of: the objects of the files, and how many families there are. -/
def owners : (Arc → Option Arc) × ℕ := (r.fileRmap, r.nextAnon)

theorem attachVma_owners (v : Vma) (start stop : ℕ) :
    (r.attachVma mm v start stop).owners = r.owners := by
  rw [attachVma]
  cases v.anonVma <;> cases v.fileRmap <;> cases v.backing <;> rfl

theorem attachAll_owners (vs : List Vma) : (r.attachAll mm vs).owners = r.owners :=
  foldl_keeps r owners (fun r v => attachVma_owners r mm v _ _) vs

theorem detachObject_keeps (v : Vma) :
    (r.detachObject mm v).owners = r.owners ∧ (r.detachObject mm v).chain = r.chain := by
  rw [detachObject]
  split <;> exact ⟨rfl, rfl⟩

theorem detachObjects_chain (vs : List Vma) : (r.detachObjects mm vs).chain = r.chain :=
  foldl_keeps r chain (fun r v => (detachObject_keeps r mm v).2) vs

/-! ### Edges of families -/

theorem attachVma_chain (v : Vma) (start stop : ℕ) (av : Arc) :
    (r.attachVma mm v start stop).chain av =
      if v.anonVma = some av then r.chain av ++ [⟨mm, start, stop⟩] else r.chain av := by
  have hanon : (r.attachVma mm v start stop).chain =
      (v.anonVma.elim r fun av => r.attachAnon av mm start stop).chain := by
    rw [attachVma]
    cases v.anonVma <;> cases v.fileRmap <;> cases v.backing <;> rfl
  rw [hanon]
  cases v.anonVma with
  | none => simp
  | some av' =>
  by_cases h : av' = av
  · subst h
    simp [attachAnon, AnonVma.attach]
  · simp [attachAnon, h, update_of_ne (Ne.symm h)]

end

theorem mem_attachAll_chain {e : RmapTarget} :
    e ∈ (r.attachAll mm vs).chain av ↔ e ∈ r.chain av ∨
      ∃ v ∈ vs, v.anonVma = some av ∧ e = ⟨mm, v.start.asU64, v.end.asU64⟩ := by
  induction vs generalizing r with
  | nil => simp [attachAll]
  | cons v vs ih =>
  have h := ih (r := r.attachVma mm v v.start.asU64 v.end.asU64)
  rw [attachVma_chain] at h
  refine h.trans ?_
  by_cases hv : v.anonVma = some av
  · simp [hv, or_assoc]
  · simp [hv]

/-- Detach the family edge of every VMA. -/
def detachFamilies (mm : Arc) (vs : List Vma) (r : Rmaps) : Rmaps :=
  vs.foldl (fun r v => r.detachFamily mm v) r

variable (r : Rmaps) (mm : Arc) (vs vs' : List Vma)

theorem detachFamily_keeps (v : Vma) :
    (r.detachFamily mm v).owners = r.owners ∧ (r.detachFamily mm v).file = r.file := by
  rw [detachFamily]
  cases v.anonVma <;> exact ⟨rfl, rfl⟩

theorem detachFamilies_file : (r.detachFamilies mm vs).file = r.file :=
  foldl_keeps r file (fun r v => (detachFamily_keeps r mm v).2) vs

theorem resplit_owners :
    (((r.detachFamilies mm vs).detachObjects mm vs).attachAll mm vs').owners = r.owners :=
  calc _ = ((r.detachFamilies mm vs).detachObjects mm vs).owners := attachAll_owners _ mm vs'
    _ = (r.detachFamilies mm vs).owners :=
      foldl_keeps _ owners (fun r v => (detachObject_keeps r mm v).1) vs
    _ = r.owners := foldl_keeps r owners (fun r v => (detachFamily_keeps r mm v).1) vs

end Rmaps

/-- `swap_remove` drops one occurrence of one element. -/
theorem mem_swapRemove {α : Type} {l : List α} {i : ℕ} {x : α} (hx : x ∈ l) (hi : i < l.length)
    (hne : l[i]? ≠ some x) : x ∈ swapRemove l i := by
  rcases eq_nil_or_concat l with rfl | ⟨ys, y, rfl⟩
  · cases hx
  rw [concat_eq_append] at hx hi hne ⊢
  rw [swapRemove, List.getLast?_append_of_ne_nil _ (by simp)]
  simp only [List.getLast?_singleton]
  by_cases hlt : i < ys.length
  · rw [set_append_left _ _ hlt, dropLast_concat]
    rw [List.getElem?_append_left hlt] at hne
    rcases mem_append.mp hx with hx | hx
    · obtain ⟨j, hj, rfl⟩ := mem_iff_getElem.mp hx
      have hij : i ≠ j := by
        rintro rfl
        exact hne (List.getElem?_eq_getElem hj)
      exact mem_iff_getElem.mpr ⟨j, by simpa using hj, getElem_set_of_ne hij _ _⟩
    · rw [mem_singleton.mp hx]
      exact mem_set hlt _
  -- the element removed is the last one
  have hlast : i = ys.length := by
    rw [length_append, length_singleton] at hi
    omega
  subst hlast
  rw [set_append_right _ _ le_rfl, Nat.sub_self, set_cons_zero, dropLast_concat]
  rcases mem_append.mp hx with hx | hx
  · exact hx
  · obtain rfl := mem_singleton.mp hx
    exact absurd (by simp) hne

theorem AnonVma.mem_detach {chain : List RmapTarget} {t : RmapTarget} (ht : t ∈ chain)
    (hne : t ≠ ⟨mm, start, stop⟩) : t ∈ AnonVma.detach chain mm start stop := by
  rw [AnonVma.detach]
  cases hi : chain.findIdx? (· == ⟨mm, start, stop⟩) with
  | none => exact ht
  | some =>
  obtain ⟨hlt, hget, -⟩ := List.findIdx?_eq_some_iff_getElem.mp hi
  refine mem_swapRemove ht hlt fun h => hne ?_
  rw [List.getElem?_eq_getElem hlt] at h
  rw [← Option.some_inj.mp h]
  exact beq_iff_eq.mp hget

theorem Rmaps.mem_detachFamilies_chain {t : RmapTarget} (ht : t ∈ r.chain av)
    (hne : ∀ v ∈ vs, v.anonVma = some av → t ≠ ⟨mm, v.start.asU64, v.end.asU64⟩) :
    t ∈ (r.detachFamilies mm vs).chain av := by
  induction vs generalizing r with
  | nil => exact ht
  | cons v vs ih =>
  refine ih (r := r.detachFamily mm v) ?_ fun w hw => hne w (mem_cons_of_mem v hw)
  rw [Rmaps.detachFamily]
  cases hv : v.anonVma with
  | none => exact ht
  | some av' =>
  by_cases h : av = av'
  · subst h
    simp only [Rmaps.detachAnon, update_self]
    exact AnonVma.mem_detach ht (hne v (by simp) hv)
  · simp only [Rmaps.detachAnon, update_of_ne h]
    exact ht

/-! ### The span of a range -/

namespace AddressSpace

theorem mem_overlapping_iff {t : VmaTree} (hw : t.WellFormed) :
    v ∈ overlapping t s e ↔ t.Has v ∧ s < v.end.asU64 ∧ v.start.asU64 < e := by
  rw [overlapping, VmaTree.iter, mem_filter, OrdMap.mem_values_iff]
  simp only [Bool.and_eq_true, decide_eq_true_eq]
  refine and_congr_left fun _ => ?_
  exact ⟨fun ⟨_, hk⟩ => hw.has hk, fun h => ⟨v.start, h⟩⟩

/-- The smallest start and the largest end. -/
theorem foldl_span (vs : List Vma) (a b : ℕ) :
    let p := vs.foldl (fun p v => (min p.1 v.start.asU64, max p.2 v.end.asU64)) (a, b)
    (p.1 ≤ a ∧ b ≤ p.2 ∧ ∀ v ∈ vs, p.1 ≤ v.start.asU64 ∧ v.end.asU64 ≤ p.2) ∧
      (p.1 = a ∨ ∃ v ∈ vs, p.1 = v.start.asU64) ∧ (p.2 = b ∨ ∃ v ∈ vs, p.2 = v.end.asU64) := by
  induction vs generalizing a b with
  | nil => simp
  | cons w vs ih =>
  obtain ⟨⟨h1, h2, h3⟩, h4, h5⟩ := ih (min a w.start.asU64) (max b w.end.asU64)
  refine ⟨⟨h1.trans (min_le_left _ _), (le_max_left _ _).trans h2, ?_⟩, ?_, ?_⟩
  · intro v hv
    rcases mem_cons.mp hv with rfl | hv
    · exact ⟨h1.trans (min_le_right _ _), (le_max_right _ _).trans h2⟩
    · exact h3 v hv
  · rcases h4 with h4 | ⟨v, hv, h4⟩
    · rcases min_choice a w.start.asU64 with h | h
      · exact .inl (h4.trans h)
      · exact .inr ⟨w, by simp, h4.trans h⟩
    · exact .inr ⟨v, mem_cons_of_mem w hv, h4⟩
  rcases h5 with h5 | ⟨v, hv, h5⟩
  · rcases max_choice b w.end.asU64 with h | h
    · exact .inl (h5.trans h)
    · exact .inr ⟨w, by simp, h5.trans h⟩
  · exact .inr ⟨v, mem_cons_of_mem w hv, h5⟩

/-- The span of a range: the VMAs that meet it are those that meet the range, and lie in it. -/
structure Span (t : VmaTree) (s e lo hi : ℕ) : Prop where
  lt : lo < hi
  inside : ∀ {v}, t.map.get? v.start = some v → s < v.end.asU64 → v.start.asU64 < e →
    lo ≤ v.start.asU64 ∧ v.end.asU64 ≤ hi
  meets : ∀ {v}, t.map.get? v.start = some v → lo < v.end.asU64 → v.start.asU64 < hi →
    s < v.end.asU64 ∧ v.start.asU64 < e

/-- **The span is the union of the VMAs that meet the range**, and inverted if there is none. -/
theorem superRange_spec {t : VmaTree} (hw : t.WellFormed) {lo hi : ℕ}
    (h : superRange t s e = (lo, hi)) :
    (overlapping t s e = [] ∧ hi < lo) ∨ (overlapping t s e ≠ [] ∧ Span t s e lo hi) := by
  have hspan := foldl_span (overlapping t s e) (2 ^ 64 - 1) 0
  rw [superRange] at h
  rw [h] at hspan
  obtain ⟨⟨-, -, hin⟩, hlo, hhi⟩ := hspan
  by_cases hnil : overlapping t s e = []
  · rw [hnil] at h
    cases h
    exact .inl ⟨hnil, by omega⟩
  refine .inr ⟨hnil, ?_⟩
  obtain ⟨w, hmem⟩ := exists_mem_of_ne_nil _ hnil
  have hwin := hin w hmem
  obtain ⟨hwg, hw1, hw2⟩ := (mem_overlapping_iff hw).mp hmem
  have hwne := hw.nonempty hwg
  have hwlt := w.end.asU64_lt
  -- both ends of the span are ends of VMAs that meet the range
  obtain ⟨a, ha, halo⟩ : ∃ v ∈ overlapping t s e, lo = v.start.asU64 := by
    rcases hlo with h | h
    · omega
    · exact h
  obtain ⟨b, hb, hbhi⟩ : ∃ v ∈ overlapping t s e, hi = v.end.asU64 := by
    rcases hhi with h | h
    · omega
    · exact h
  obtain ⟨hag, ha1, ha2⟩ := (mem_overlapping_iff hw).mp ha
  obtain ⟨hbg, hb1, hb2⟩ := (mem_overlapping_iff hw).mp hb
  refine ⟨by omega, fun hg h1 h2 => hin _ ((mem_overlapping_iff hw).mpr ⟨hg, h1, h2⟩), ?_⟩
  intro v hg h1 h2
  have hne := hw.nonempty hg
  constructor
  · rcases hw.eq_or_apart hg hag with rfl | h | h
    · exact ha1
    · omega
    · omega
  rcases hw.eq_or_apart hg hbg with rfl | h | h
  · exact hb2
  · omega
  · omega

end AddressSpace

end Oxide
