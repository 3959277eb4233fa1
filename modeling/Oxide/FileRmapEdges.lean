/-
The edges of the mapped objects against the tree.

An edge of a mapped object names an address space, a range of addresses and the file page at its
start. It is right when every page of the range shows the page of the object that the edge
says, and when the range lies in one VMA, so that a detachment of that VMA finds it.

* `FileEdges`: the edges of an address space are right, and every file page has one;
* `FileEdges.resplit`: **replacing the edges around a range operation keeps this**;
* `FileEdges.replace`: a range operation over VMAs without a reverse map keeps it as well;
* `FileEdges.publish`: so does a new mapping that its left neighbour does not absorb;
* `FileEdges.fresh`: the edges of a new address space are right, however its VMAs coalesced.
-/
import Oxide.VmRules

namespace Oxide

open VmaTree MergeView AddressSpace Vma Rmaps

variable {e : FileRmapTarget} {r r' : Rmaps}

/-- The reverse map and the file page of a place. -/
def Source.page (objects : Arc → Option Arc) : Source → Option (Arc × ℕ)
  | .file object off => (objects object).map fun x => (x, off / PAGE_SIZE_BYTES)
  | _ => none

/-- A VMA of whole pages that knows the reverse map of its object. -/
structure Vma.Paged (objects : Arc → Option Arc) (v : Vma) : Prop extends v.Whole where
  owned : v.fileRmap = v.backing.owner objects

namespace VmaTree

/-- The file page that an address shows. -/
def filePage (objects : Arc → Option Arc) (t : VmaTree) (va : UserVirtAddr) : Option (Arc × ℕ) :=
  (view content t va).bind fun c => c.source.page objects

variable {objects : Arc → Option Arc} {t t' : VmaTree} {mm x : Arc} {p : ℕ} {v : Vma}
  {va : UserVirtAddr}

theorem filePage_of_get? (hw : t.WellFormed) (hv : t.Has v)
    (hc : v.contains va = true) : t.filePage objects va = (v.source va).page objects := by
  rw [filePage, view_of_get? content hw hv hc]
  rfl

theorem source_page_iff (hp : v.Paged objects) (hva : va.asU64 % PAGE_SIZE_BYTES = 0)
    (hle : v.start.asU64 ≤ va.asU64) :
    (v.source va).page objects = some (x, p) ↔ v.fileRmap = some x ∧ ∃ f off,
      v.backing = .file f off ∧ objects f = some x ∧
      p = off.toNat / PAGE_SIZE_BYTES + (va.asU64 - v.start.asU64) / PAGE_SIZE_BYTES := by
  have hs := hp.start
  rw [hp.owned]
  cases hb : v.backing with
  | file f off =>
    -- whole pages are added to the offset
    have hdiv : (off.toNat + (va.asU64 - v.start.asU64)) / PAGE_SIZE_BYTES =
        off.toNat / PAGE_SIZE_BYTES + (va.asU64 - v.start.asU64) / PAGE_SIZE_BYTES := by
      simp only [PAGE_SIZE_BYTES] at *
      omega
    simp only [source, hb, Source.page, hdiv, Option.map_eq_some_iff,
      Prod.mk.injEq, VmaBacking.file.injEq]
    constructor
    · rintro ⟨y, hy, rfl, rfl⟩
      exact ⟨hy, f, off, ⟨rfl, rfl⟩, hy, rfl⟩
    · rintro ⟨hy, f', off', ⟨rfl, rfl⟩, -, rfl⟩
      exact ⟨x, hy, rfl, rfl⟩
  | _ => simp [source, hb, Source.page]

theorem source_page_fst (hp : v.Paged objects) (va : UserVirtAddr) :
    ((v.source va).page objects).map Prod.fst = v.fileRmap := by
  rw [hp.owned]
  cases hb : v.backing <;>
    simp [source, hb, Source.page, VmaBacking.owner, Function.comp_def]

theorem filePage_eq_some (hw : t.WellFormed) (hp : t.All (Vma.Paged objects))
    (hva : va.asU64 % PAGE_SIZE_BYTES = 0) (h : t.filePage objects va = some (x, p)) :
    ∃ v, t.Has v ∧ v.contains va = true ∧ v.fileRmap = some x ∧ ∃ f off,
      v.backing = .file f off ∧ objects f = some x ∧
      p = off.toNat / PAGE_SIZE_BYTES + (va.asU64 - v.start.asU64) / PAGE_SIZE_BYTES := by
  obtain ⟨c, hc, -⟩ := Option.bind_eq_some_iff.mp h
  obtain ⟨v, hfind, -⟩ := Option.map_eq_some_iff.mp hc
  obtain ⟨hv, hcon⟩ := (findContaining_eq_some_iff hw).mp hfind
  rw [filePage_of_get? hw hv hcon, source_page_iff (hp _ _ hv) hva (contains_iff.mp hcon).1] at h
  exact ⟨v, hv, hcon, h⟩

theorem filePage_congr (h : view content t' va = view content t va) :
    t'.filePage objects va = t.filePage objects va := by
  rw [filePage, filePage, h]

/-! ### Right edges -/

/-- Every page of the edge shows the page of the object `x` that the edge says. -/
structure RightEdge (objects : Arc → Option Arc) (t : VmaTree) (x : Arc) (e : FileRmapTarget) :
    Prop where
  start : e.start % PAGE_SIZE_BYTES = 0
  «end» : e.end % PAGE_SIZE_BYTES = 0
  nonempty : e.start < e.end
  inside : ∃ v, t.map.get? v.start = some v ∧ v.start.asU64 ≤ e.start ∧ e.end ≤ v.end.asU64
  page : ∀ va : UserVirtAddr, va.asU64 % PAGE_SIZE_BYTES = 0 → e.start ≤ va.asU64 →
    va.asU64 < e.end →
    t.filePage objects va = some (x, e.filePageStart + (va.asU64 - e.start) / PAGE_SIZE_BYTES)

/-- The edges of an address space say what its tree says. -/
structure FileEdges (objects : Arc → Option Arc) (mm : Arc) (t : VmaTree) (r : Rmaps) : Prop where
  right : ∀ x, ∀ e ∈ (r.file x).targets, e.mm = mm → RightEdge objects t x e
  cover : ∀ va : UserVirtAddr, va.asU64 % PAGE_SIZE_BYTES = 0 → ∀ x p,
    t.filePage objects va = some (x, p) →
    ∃ e ∈ (r.file x).targets, e.mm = mm ∧ e.start ≤ va.asU64 ∧ va.asU64 < e.end

theorem RightEdge.owner (h : RightEdge objects t x e) (hw : t.WellFormed)
    (hp : t.All (Vma.Paged objects)) :
    ∃ v, t.Has v ∧ v.start.asU64 ≤ e.start ∧ e.end ≤ v.end.asU64 ∧
      v.fileRmap = some x ∧ ∃ f off, v.backing = .file f off := by
  obtain ⟨v, hv, hs, he⟩ := h.inside
  have hne := h.nonempty
  have hlt : e.start < USER_VA_END := lt_of_lt_of_le (hne.trans_le he) v.end.isUser.le
  have hpage := h.page ⟨e.start, hlt⟩ h.start le_rfl hne
  have hcon : v.contains ⟨e.start, hlt⟩ = true := contains_iff.mpr ⟨hs, hne.trans_le he⟩
  rw [filePage_of_get? hw hv hcon, source_page_iff (hp _ _ hv) h.start hs] at hpage
  obtain ⟨hr, f, off, hb, -⟩ := hpage
  exact ⟨v, hv, hs, he, hr, f, off, hb⟩

/-- An edge stays right when its VMA lies in one VMA and its addresses show the same. -/
theorem RightEdge.transfer (h : RightEdge objects t x e) {u : Vma}
    (hu : t'.Has u) (hs : u.start.asU64 ≤ e.start)
    (he : e.end ≤ u.end.asU64)
    (hview : ∀ va : UserVirtAddr, e.start ≤ va.asU64 → va.asU64 < e.end →
      view content t' va = view content t va) : RightEdge objects t' x e where
  start := h.start
  «end» := h.end
  nonempty := h.nonempty
  inside := ⟨u, hu, hs, he⟩
  page va hva h1 h2 := by
    rw [filePage_congr (hview va h1 h2)]
    exact h.page va hva h1 h2

/-- The edge attached for a VMA of the tree is right. -/
theorem rightEdge_of_edgeOf (hw : t.WellFormed) (hp : v.Paged objects) (hv : t.Has v)
    (h : Rmaps.EdgeOf mm x v v.start.asU64 v.end.asU64 e) : RightEdge objects t x e := by
  obtain ⟨-, hs, he, hr, f, off, hb, hpage⟩ := h
  refine ⟨by rw [hs]; exact hp.start, by rw [he]; exact hp.end,
    by rw [hs, he]; exact hw.nonempty hv, ⟨v, hv, hs.ge, he.le⟩, fun va hva h1 h2 => ?_⟩
  rw [hs] at h1
  rw [he] at h2
  rw [filePage_of_get? hw hv (contains_iff.mpr ⟨h1, h2⟩), source_page_iff hp hva h1]
  have hown := hp.owned
  rw [hr, hb] at hown
  exact ⟨hr, f, off, hb, hown.symm, by rw [hpage, hs]⟩

theorem FileEdges.of_file (h : FileEdges objects mm t r) (hf : r'.file = r.file) :
    FileEdges objects mm t r' := by
  constructor
  · rw [hf]
    exact h.right
  · rw [hf]
    exact h.cover

/-- What the other address spaces attach does not matter. -/
theorem FileEdges.of_frame (h : FileEdges objects mm t r)
    (hf : ∀ x e, e.mm = mm → (e ∈ (r'.file x).targets ↔ e ∈ (r.file x).targets)) :
    FileEdges objects mm t r' where
  right x e he hmm := h.right x e ((hf x e hmm).mp he) hmm
  cover va hva x p hpage := by
    obtain ⟨e, he, hmm, hrest⟩ := h.cover va hva x p hpage
    exact ⟨e, (hf x e hmm).mpr he, hmm, hrest⟩

/-! ### Range operations -/

section Reshape

variable {start : UserVirtAddr} {stop : ℕ} {mid : Vma → Option Vma}
  (hk : KeepsContent mid start stop) (h : Reshape mid start stop t t') (hw : t.WellFormed)
  (hp : t.All (Vma.Paged objects))

include hk h hw hp

theorem Reshape.paged (hmid : ∀ v, v.fileRmap = v.backing.owner objects → ∀ m ∈ mid v,
      m.fileRmap = m.backing.owner objects)
    (hs : start.asU64 % PAGE_SIZE_BYTES = 0) (he : stop % PAGE_SIZE_BYTES = 0) :
    t'.All (Vma.Paged objects) := by
  have hwhole := h.whole hk hw (fun k v hv => (hp k v hv).toWhole) hs he
  have hclone : ∀ (v : Vma) (a b : UserVirtAddr), v.fileRmap = v.backing.owner objects →
      (v.cloneSubrange a b).fileRmap = (v.cloneSubrange a b).backing.owner objects := by
    intro v a b hv
    simp only [cloneSubrange, hv]
    cases v.backing <;> rfl
  have howned := h.all hk.fills hw
    (fun k v hv => (hp k v hv).owned)
    (fun v hv _ => forall_mem_pieces (fun _ => hclone _ _ _ hv) (hmid v hv)
      fun b _ _ => hclone _ _ _ hv)
    fun l r hl _ _ _ _ _ _ _ => hl
  exact fun k v hv => ⟨hwhole k v hv, howned k v hv⟩

/-- An edge whose VMA lies outside the range stays right. -/
theorem RightEdge.reshape (he : RightEdge objects t x e) (hrange : start.asU64 < stop)
    (hv : t.Has v) (hs : v.start.asU64 ≤ e.start) (hend : e.end ≤ v.end.asU64)
    (hout : v.end.asU64 ≤ start.asU64 ∨ stop ≤ v.start.asU64) : RightEdge objects t' x e := by
  have hfit : t.All Vma.FileFits := fun k v hv => (hp k v hv).fits
  obtain ⟨u, hu, h1, h2⟩ := h.covers hk hw hfit hrange hv le_rfl (hw.nonempty hv) le_rfl hout
  refine he.transfer hu (h1.trans hs) (hend.trans h2) fun va h3 h4 => ?_
  rcases h.content_eq hk hw hfit va with heq | ⟨h5, h6, -⟩
  · exact heq
  · omega

/-- A file page that shows afterwards showed before. -/
theorem Reshape.filePage_eq (hpage : t'.filePage objects va = some (x, p)) :
    t.filePage objects va = some (x, p) := by
  rcases h.content_eq hk hw (fun k v hv => (hp k v hv).fits) va with heq | ⟨-, -, hnone, -⟩
  · rwa [← filePage_congr heq]
  · rw [filePage, hnone] at hpage
    cases hpage

/-- **Replacing the edges around a range operation.** -/
theorem FileEdges.resplit (hedges : FileEdges objects mm t r)
    (hp' : t'.All (Vma.Paged objects)) (hrange : start.asU64 < stop) {lo hi : ℕ}
    (hspan : AddressSpace.Span t start.asU64 stop lo hi) :
    FileEdges objects mm t' (attachAll mm (overlapping t' lo hi)
      (r.detachObjects mm (overlapping t lo hi))) := by
  have hw' := h.wellFormed hk.fills hw
  constructor
  · intro x e he hmm
    rcases mem_attachAll_file he with he | ⟨v, hv, hedge⟩
    · -- an edge that was kept belongs to a VMA outside the span
      obtain ⟨hold, hkept⟩ := mem_detachObjects_file.mp he
      have hright := hedges.right x e hold hmm
      obtain ⟨v, hv, hs, hend, hr, f, off, hb⟩ := hright.owner hw hp
      have hne := hw.nonempty hv
      refine hright.reshape hk h hw hp hrange hv hs hend ?_
      by_contra hmeet
      obtain ⟨h1, h2⟩ := hspan.inside hv (by omega) (by omega)
      exact hkept v ((mem_overlapping_iff hw).mpr ⟨hv, by omega, by omega⟩)
        ⟨hmm, hr, ⟨f, off, hb⟩, hs, hend⟩
    · obtain ⟨hv, -, -⟩ := (mem_overlapping_iff hw').mp hv
      exact rightEdge_of_edgeOf hw' (hp' _ _ hv) hv hedge
  intro va hva x p hpage
  obtain ⟨v', hv', hcon, hr, f, off, hb, -⟩ := filePage_eq_some hw' hp' hva hpage
  obtain ⟨hc1, hc2⟩ := contains_iff.mp hcon
  by_cases hov : lo < v'.end.asU64 ∧ v'.start.asU64 < hi
  · obtain ⟨e, he, hedge⟩ := exists_attachAll_file
      (r.detachObjects mm (overlapping t lo hi)) mm
      ((mem_overlapping_iff hw').mpr ⟨hv', hov⟩) hr hb
    exact ⟨e, he, hedge.covers hc1 hc2⟩
  -- outside the span the old edge was kept
  obtain ⟨e, he, hmm, h1, h2⟩ := hedges.cover va hva x p (h.filePage_eq hk hw hp hpage)
  refine ⟨e, mem_attachAll_file_of_mem (mem_detachObjects_file.mpr ⟨he, ?_⟩), hmm, h1, h2⟩
  rintro v hv ⟨-, -, -, h3, h4⟩
  obtain ⟨hv, h5, h6⟩ := (mem_overlapping_iff hw).mp hv
  obtain ⟨h7, h8⟩ := hspan.meets hv h5 h6
  obtain ⟨h9, h10⟩ := hspan.inside hv h7 h8
  omega

/-- A range operation that touches no VMA with a reverse map. -/
theorem FileEdges.replace (hedges : FileEdges objects mm t r) (hrange : start.asU64 < stop)
    (hfree : t.All fun v => start.asU64 < v.end.asU64 → v.start.asU64 < stop → v.fileRmap = none) :
    FileEdges objects mm t' r := by
  constructor
  · intro x e he hmm
    have hright := hedges.right x e he hmm
    obtain ⟨v, hv, hs, hend, hr, -⟩ := hright.owner hw hp
    refine hright.reshape hk h hw hp hrange hv hs hend ?_
    by_contra hmeet
    have hnone := hfree _ _ hv (by omega) (by omega)
    cases hnone.symm.trans hr
  · intro va hva x p hpage
    exact hedges.cover va hva x p (h.filePage_eq hk hw hp hpage)

end Reshape

/-! ### New mappings -/

section Insert

variable {vma : Vma}

theorem Inserted.paged (h : Inserted t vma t') (hp : t.All (Vma.Paged objects))
    (hv : vma.Paged objects) : t'.All (Vma.Paged objects) :=
  h.all hp hv fun _ _ hl hr hm hne hne' _ _ => ⟨hl.absorb hr.toWhole hm hne hne', hl.owned⟩

/-- **A new mapping that no left neighbour absorbs keeps its start.** -/
theorem Inserted.keeps_start (h : Inserted t vma t') (hw : t.WellFormed)
    (hno : ∀ l, t.Has l → ¬ Vma.Mergeable l vma) :
    ∃ v, t'.Has v ∧ vma.end.asU64 ≤ v.end.asU64 ∧ ∃ e n, v = { vma with «end» := e, rss := n } := by
  have hne := h.nonempty
  have hmerge : ∀ {l r : Vma}, Vma.Mergeable l r → (∃ e n, r = { vma with «end» := e, rss := n }) →
      Vma.Mergeable l vma := by
    rintro l r hm ⟨e, n, rfl⟩
    exact mergeableWithNext_iff.mp (mergeableWithNext_iff.mpr hm :)
  -- VMAs before the new one are old, and the one at its start is the new one, maybe longer
  have hall : t'.All fun v => (v.start.asU64 < vma.start.asU64 → t.Has v) ∧
      (v.start = vma.start → ∃ e n, v = { vma with «end» := e, rss := n }) ∧
      (v.end.asU64 ≤ vma.start.asU64 ∨ vma.end.asU64 ≤ v.end.asU64) := by
    refine h.all ?_ ⟨fun hlt => absurd hlt (lt_irrefl _), fun _ => ⟨vma.end, vma.rss, rfl⟩,
      .inr le_rfl⟩ ?_
    · intro k v hv
      have hk := hw.keyed hv
      rw [← hk] at hv
      have hapart := h.fits _ _ hv
      have hnv := hw.nonempty hv
      refine ⟨fun _ => hv, fun heq => ?_, by omega⟩
      have := UserVirtAddr.eq_iff.mp heq
      omega
    intro l r ⟨hl, hls, hle⟩ ⟨hr, hrs, hre⟩ hm hnl hnr hlo hhi
    have habut := UserVirtAddr.eq_iff.mp hm.abut
    refine ⟨fun hlt => absurd hm ?_, fun heq => ?_, hre⟩
    · -- the left VMA is an old one, so it ends where the new one starts
      have hold := hl hlt
      have hapart := h.fits _ _ hold
      exact fun hm => hno l hold (hmerge hm (hrs (UserVirtAddr.eq_iff.mpr (by omega))))
    · obtain ⟨e, n, hl'⟩ := hls heq
      exact ⟨r.end, l.rss + r.rss, by rw [absorb, hl']⟩
  have hview := h.view_eq content hw vma.start
  rw [if_pos (contains_iff.mpr ⟨le_rfl, hne⟩)] at hview
  obtain ⟨v, hv, hc1, hc2⟩ := h.wellFormed.exists_of_view hview
  obtain ⟨hold, hsame, hend⟩ := hall _ _ hv
  have hstart : v.start = vma.start := by
    refine UserVirtAddr.eq_iff.mpr (le_antisymm hc1 (not_lt.mp fun hlt => ?_))
    have hapart := h.fits _ _ (hold hlt)
    omega
  exact ⟨v, hv, by omega, hsame hstart⟩

theorem Inserted.filePage_eq (h : Inserted t vma t') (hw : t.WellFormed) (va : UserVirtAddr) :
    t'.filePage objects va =
      if vma.contains va then (vma.source va).page objects else t.filePage objects va := by
  rw [filePage, h.view_eq content hw]
  split_ifs
  · rfl
  · rfl

theorem RightEdge.insert (he : RightEdge objects t x e)
    (h : Inserted t vma t') (hw : t.WellFormed) : RightEdge objects t' x e := by
  obtain ⟨v, hv, hs, hend⟩ := he.inside
  obtain ⟨u, hu, h1, h2⟩ := h.covers hw hv
  have hapart := h.fits _ _ hv
  refine he.transfer hu (h1.trans hs) (hend.trans h2) fun va h3 h4 => ?_
  rw [h.view_eq content hw, if_neg (by rw [contains_iff]; omega)]

/-- **A new mapping gets its edge**, unless a left neighbour absorbs it. -/
theorem FileEdges.publish (h : FileEdges objects mm t r) (hins : Inserted t vma t')
    (hw : t.WellFormed) (hp : t.All (Vma.Paged objects)) (hv : vma.Paged objects)
    (hno : vma.fileRmap ≠ none → ∀ l, t.Has l → ¬ Vma.Mergeable l vma)
    (hfind : t'.findContaining vma.start = some v) :
    FileEdges objects mm t' (r.attachVma mm v vma.start.asU64 vma.end.asU64) := by
  have hne := hins.nonempty
  have hw' := hins.wellFormed
  have hp' := hins.paged hp hv
  obtain ⟨hg, hcon⟩ := (findContaining_eq_some_iff hw').mp hfind
  -- the page of an address inside the new mapping
  have hsource : ∀ {va : UserVirtAddr} {x : Arc} {p : ℕ}, va.asU64 % PAGE_SIZE_BYTES = 0 →
      vma.contains va = true → (t'.filePage objects va = some (x, p) ↔
        vma.fileRmap = some x ∧ ∃ f off, vma.backing = .file f off ∧ objects f = some x ∧
        p = off.toNat / PAGE_SIZE_BYTES + (va.asU64 - vma.start.asU64) / PAGE_SIZE_BYTES) := by
    intro va x p hva hc
    rw [hins.filePage_eq hw, if_pos hc, source_page_iff hv hva (contains_iff.mp hc).1]
  -- the VMA at the start shows the object of the new mapping
  have hvr : v.fileRmap = vma.fileRmap := by
    rw [← source_page_fst hv vma.start, ← source_page_fst (hp' _ _ hg) vma.start,
      ← filePage_of_get? hw' hg hcon, hins.filePage_eq hw,
      if_pos (contains_iff.mpr ⟨le_rfl, hne⟩)]
  -- with a reverse map it is the new one, maybe longer
  have hkeep : vma.fileRmap ≠ none →
      vma.end.asU64 ≤ v.end.asU64 ∧ v.start = vma.start ∧ v.backing = vma.backing := by
    intro hr
    obtain ⟨u, hu, hend, e', n, hu'⟩ := hins.keeps_start hw (hno hr)
    have hcu : u.contains vma.start = true := contains_iff.mpr ⟨by rw [hu'], by omega⟩
    obtain rfl : v = u := Option.some_inj.mp
      (hfind.symm.trans ((findContaining_eq_some_iff hw').mpr ⟨hu, hcu⟩))
    exact ⟨hend, by rw [hu'], by rw [hu']⟩
  constructor
  · intro x e he hmm
    rcases mem_attachVma_file he with he | ⟨-, hs, he, hx, f, off, hb, hpage⟩
    · exact (h.right x e he hmm).insert hins hw
    rw [hvr] at hx
    obtain ⟨hend, hus, hvb⟩ := hkeep (by rw [hx]; simp)
    refine ⟨by rw [hs]; exact hv.start, by rw [he]; exact hv.end, by omega,
      ⟨v, hg, by rw [hus, hs], by rwa [he]⟩, fun va hva h1 h2 => ?_⟩
    rw [hvb] at hb
    have hown := hv.owned
    rw [hx, hb] at hown
    rw [hsource hva (contains_iff.mpr ⟨by omega, by omega⟩)]
    exact ⟨hx, f, off, hb, hown.symm, by rw [hpage, hs]⟩
  intro va hva x p hpage
  by_cases hc : vma.contains va = true
  · obtain ⟨hx, f, off, hb, -⟩ := (hsource hva hc).mp hpage
    obtain ⟨-, -, hvb⟩ := hkeep (by rw [hx]; simp)
    obtain ⟨e, he, hedge⟩ := exists_attachVma_file r mm x vma.start.asU64
      vma.end.asU64 (hvr.trans hx) (hvb.trans hb)
    obtain ⟨hc1, hc2⟩ := contains_iff.mp hc
    exact ⟨e, he, hedge.covers hc1 hc2⟩
  · rw [hins.filePage_eq hw, if_neg hc] at hpage
    obtain ⟨e, he, hrest⟩ := h.cover va hva x p hpage
    exact ⟨e, mem_attachVma_file_of_mem he, hrest⟩

end Insert

/-- **The edges of a new address space**, attached VMA by VMA. -/
theorem FileEdges.fresh (hw : t.WellFormed) (hp : t.All (Vma.Paged objects))
    (hno : ∀ x, ∀ e ∈ (r.file x).targets, e.mm ≠ mm) :
    FileEdges objects mm t (r.attachAll mm t.iter) := by
  constructor
  · intro x e he hmm
    rcases mem_attachAll_file he with he | ⟨v, hv, hedge⟩
    · exact absurd hmm (hno x e he)
    · obtain ⟨k, hk⟩ := OrdMap.mem_values_iff.mp hv
      have hv := hw.has hk
      exact rightEdge_of_edgeOf hw (hp _ _ hv) hv hedge
  intro va hva x p hpage
  obtain ⟨v, hv, hcon, hr, f, off, hb, -⟩ := filePage_eq_some hw hp hva hpage
  obtain ⟨hc1, hc2⟩ := contains_iff.mp hcon
  obtain ⟨e, he, hedge⟩ := exists_attachAll_file r mm
    (show v ∈ t.iter from OrdMap.mem_values_iff.mpr ⟨_, hv⟩) hr hb
  exact ⟨e, he, hedge.covers hc1 hc2⟩

theorem FileEdges.update {w : Vma} (h : FileEdges objects mm t r) (hu : Updated t v w t')
    (hw : t.WellFormed) (hobs : ∀ va, w.content va = v.content va) : FileEdges objects mm t' r := by
  have hview := hu.view_eq content hw hobs
  constructor
  · intro x e he hmm
    have hright := h.right x e he hmm
    obtain ⟨u, hug, hs, hend⟩ := hright.inside
    obtain ⟨u', hu', h1, h2⟩ := hu.covers hug
    exact hright.transfer hu' (h1.trans hs) (hend.trans h2) fun va _ _ => hview va
  · intro va hva x p hpage
    rw [filePage_congr (hview va)] at hpage
    exact h.cover va hva x p hpage

end VmaTree

end Oxide
