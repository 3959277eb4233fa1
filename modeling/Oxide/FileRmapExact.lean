/-
The file reverse map against the trees of all address spaces.

A walk over a file page visits the edges of the page's object. It is exact when it visits every
live address space at every address that shows the page, and no other address. Two operations
break this: a mapping that its left neighbour absorbs is attached with the page index of the
whole VMA, and a `MAP_FIXED` mapping leaves the edges of what it replaces.

* `FileInv`: the invariant of one address space, with the number of edges it may still attach;
* `FileWorld`: the invariant of the system, which `FileWorld.step` keeps;
* `FileSafe`: the condition on one step: neither of the two, and nothing wraps;
* `MmSystem.file_walks_exact`: **the walks are exact in every state of a safe run**;
* `adjacentMaps_visits_wrong_page`: one adjacent mapping is enough to break it.
-/
import Oxide.FileRmapEdges
import Oxide.MprotectWalk
import Oxide.VmAccounting

namespace Oxide

open Prog VmaTree AddressSpace Function MmSystem Rmaps FileRmap List

variable {s s' : AddressSpace} {env : Env} {addr va : UserVirtAddr}

/-- The invariant of the address space `mm` while it runs.  `r0` are the reverse maps it started
with and `n` is the number of edges it may still attach. -/
structure FileInv (objects : Arc → Option Arc) (mm : Arc) (r0 : Rmaps) (n : ℕ)
    (s : AddressSpace) : Prop where
  self : s.selfWeak = mm
  noUffd : s.hasUffd = false
  objects_eq : s.rmaps.fileRmap = objects
  wellFormed : s.tree.WellFormed
  paged : s.tree.All (Vma.Paged objects)
  edges : FileEdges objects mm s.tree s.rmaps
  frame : ∀ x e, e.mm ≠ mm → (e ∈ (s.rmaps.file x).targets ↔ e ∈ (r0.file x).targets)
  room : s.rmaps.Room n

/-- The condition on a mapping that is placed at `start`. -/
structure MmapSafe (s : AddressSpace) (start : UserVirtAddr)
    (replaced : Option UserVirtAddr) (len : ℕ) (prot mayProt : VmaProt) (flags : VmaFlags)
    (backing : VmaBacking) : Prop where
  /-- The mapping starts at the start of a page. -/
  aligned : start.asU64 % PAGE_SIZE_BYTES = 0
  /-- The file range does not wrap. -/
  fits : ∀ f off, backing = .file f off → off.toNat + len ≤ 2 ^ 64
  /-- Nothing with a reverse map is replaced. -/
  replaces : replaced ≠ none → s.tree.All fun v => start.asU64 < v.end.asU64 →
    v.start.asU64 < start.asU64 + len → v.fileRmap = none
  /-- No VMA absorbs the mapping. -/
  apart : backing.owner s.rmaps.fileRmap ≠ none → ∀ l, s.tree.map.get? l.start = some l →
    ∀ e : UserVirtAddr, e.asU64 = start.asU64 + len →
      l.mergeableWithNext (s.mappedVma start e prot mayProt flags backing none) = false

/-- The edges that one call may attach to an address space of `k` VMAs: `mprotect` takes at most
`k + 1` steps, and each adds at most two VMAs. -/
def edgeBudget (k : ℕ) : ℕ := (k + 1) * (3 * k + 2)

theorem add_two_le_edgeBudget (k : ℕ) : k + 2 ≤ edgeBudget k := by
  rw [edgeBudget, Nat.add_mul]
  omega

variable {mdwe : MdweMode} {placement : MmapPlacement} {ε : Type}

namespace FileInv

variable {objects : Arc → Option Arc} {mm : Arc} {r0 : Rmaps} {m n : ℕ} {s : AddressSpace}

variable {r : Rmaps}

section

variable (h : FileInv objects mm r0 n s)
include h

theorem mono (hmn : m ≤ n) : FileInv objects mm r0 m s :=
  { h with room := h.room.mono hmn }

theorem fileFits : s.tree.All Vma.FileFits :=
  fun k v hv => (h.paged k v hv).fits

theorem accounting (a : VmAccounting) : FileInv objects mm r0 n { s with accounting := a } :=
  ⟨h.self, h.noUffd, h.objects_eq, h.wellFormed, h.paged, h.edges, h.frame, h.room⟩

theorem tree {t : VmaTree} (hw : t.WellFormed) (hp : t.All (Vma.Paged objects))
    (he : FileEdges objects mm t s.rmaps) : FileInv objects mm r0 n { s with tree := t } :=
  ⟨h.self, h.noUffd, h.objects_eq, hw, hp, he, h.frame, h.room⟩

theorem rmaps (hf : r.file = s.rmaps.file) (ho : r.fileRmap = s.rmaps.fileRmap) :
    FileInv objects mm r0 n { s with rmaps := r } where
  self := h.self
  noUffd := h.noUffd
  objects_eq := ho.trans h.objects_eq
  wellFormed := h.wellFormed
  paged := h.paged
  edges := h.edges.of_file hf
  frame x e hne := by
    rw [hf]
    exact h.frame x e hne
  room := h.room.of_file hf

end

/-! ### Range operations -/

section Ranges

variable {start : UserVirtAddr} {stop : ℕ} {mid : Vma → Option Vma} {t' : VmaTree}
  (hk : KeepsContent mid start stop) (hresh : Reshape mid start stop s.tree t')
  (hmid : ∀ v, v.fileRmap = v.backing.owner objects → ∀ m ∈ mid v,
    m.fileRmap = m.backing.owner objects) (hrange : start.asU64 < stop)
  (hs : start.asU64 % PAGE_SIZE_BYTES = 0) (he : stop % PAGE_SIZE_BYTES = 0)

include hk hresh hmid hrange hs he

/-- **A range operation with its edges replaced.** -/
theorem resplit (h : FileInv objects mm r0 (n + t'.iter.length) s) {lo hi : ℕ}
    (hspan : Span s.tree start.asU64 stop lo hi) :
    FileInv objects mm r0 n (attachSpan lo hi { detachSpan lo hi s with tree := t' }) := by
  have hp' := hresh.paged hk h.wellFormed h.paged hmid hs he
  set vs := overlapping s.tree lo hi with hvs
  set vs' := overlapping t' lo hi with hvs'
  have hrm : (attachSpan lo hi { detachSpan lo hi s with tree := t' }).rmaps =
      ((s.rmaps.detachFamilies mm vs).detachObjects mm vs).attachAll mm vs' := by
    rw [← h.self]
    rfl
  have hbase : (s.rmaps.detachFamilies mm vs).file = s.rmaps.file := detachFamilies_file ..
  refine ⟨h.self, h.noUffd, ?_, hresh.wellFormed hk.fills h.wellFormed, hp', ?_, ?_, ?_⟩
  · exact (congrArg Prod.fst (resplit_owners ..)).trans h.objects_eq
  · rw [hrm]
    exact (h.edges.of_file hbase).resplit hk hresh h.wellFormed h.paged hp' hrange hspan
  · intro x e hne
    rw [hrm, ← h.frame x e hne]
    constructor
    · intro hmem
      rcases mem_attachAll_file hmem with hmem | ⟨v, -, hedge⟩
      · have hold := (mem_detachObjects_file.mp hmem).1
        rwa [hbase] at hold
      · exact absurd hedge.mm_eq hne
    intro hmem
    refine mem_attachAll_file_of_mem (mem_detachObjects_file.mpr ⟨?_, ?_⟩)
    · rwa [hbase]
    · rintro v - ⟨hmm, -⟩
      exact hne hmm
  rw [hrm]
  have hroom : (s.rmaps.detachFamilies mm vs).Room (n + t'.iter.length) := h.room.of_file hbase
  refine Rmaps.Room.attachAll ((hroom.detachObjects mm vs).mono ?_) mm
  have := length_filter_le (fun v : Vma => v.end.asU64 > lo && v.start.asU64 < hi) t'.iter
  exact Nat.add_le_add_left this n

theorem replace (h : FileInv objects mm r0 n s)
    (hfree : s.tree.All fun v => start.asU64 < v.end.asU64 → v.start.asU64 < stop →
      v.fileRmap = none) : FileInv objects mm r0 n { s with tree := t' } :=
  h.tree (hresh.wellFormed hk.fills h.wellFormed)
    (hresh.paged hk h.wellFormed h.paged hmid hs he)
    (h.edges.replace hk hresh h.wellFormed h.paged hrange hfree)

end Ranges

theorem munmap {len : ℕ} (h : FileInv objects mm r0 (n + (s.tree.iter.length + 2)) s) :
    (AddressSpace.munmap env addr len).Ends s fun _ s' => FileInv objects mm r0 n s' := by
  have hk : KeepsContent (fun _ => none) addr (addr.asU64 + len) := keepsContent_none _ _
  refine munmap_rule h.wellFormed (fun _ => h.mono (by omega)) ?_ ?_
  · intro t' a hpos hal hlen hnil hresh
    refine ((h.mono (by omega)).replace hk hresh (by simp) (by omega) hal (end_aligned hal hlen)
      ?_).accounting a
    intro k v hv h1 h2
    have hmem : v ∈ overlapping s.tree addr.asU64 (addr.asU64 + len) :=
      (mem_overlapping_iff h.wellFormed).mpr ⟨h.wellFormed.has hv, h1, h2⟩
    rw [hnil] at hmem
    cases hmem
  intro lo hi t' a hpos hal hlen hspan hresh
  have hcount : t'.iter.length ≤ s.tree.iter.length + 2 := hresh.length_le hk h.wellFormed
  exact ((h.mono (by omega)).resplit hk hresh (by simp) (by omega) hal (end_aligned hal hlen)
    hspan).accounting a

/-! ### Protection -/

theorem owned_protRewrite (newProt : VmaProt) (pkey : Option (BitVec 8)) (start : UserVirtAddr)
    (stop : ℕ) (v : Vma) (hv : v.fileRmap = v.backing.owner objects) :
    ∀ m ∈ some (protRewrite newProt pkey (midPiece start stop v)),
      m.fileRmap = m.backing.owner objects := by
  intro m hm
  cases hm
  show v.fileRmap = (v.backing.rebase _).owner objects
  rw [hv]
  cases v.backing <;> rfl

theorem mprotect {len : ℕ} {p : MprotectPolicy}
    (h : FileInv objects mm r0 (edgeBudget s.tree.iter.length) s) :
    (mprotectUserWithSecurity env addr len p).Ends s fun _ s' => FileInv objects mm r0 0 s' := by
  set k := s.tree.iter.length with hkdef
  -- with `n` steps to come the tree has room for two more VMAs each
  refine Ends.mono (mprotectUserWithSecurity_rule h.wellFormed h.fileFits
    (I := fun s' n => FileInv objects mm r0 (n * (3 * k + 2)) s' ∧
      s'.tree.iter.length + 2 * n ≤ 3 * k + 2) ?_ ?_) fun _ s' ⟨n, hI, _⟩ => hI.mono (Nat.zero_le _)
  · intro n hn
    exact ⟨h.mono (Nat.mul_le_mul_right _ hn), by omega⟩
  rintro s1 step n s' haddr hlen hin - - - ⟨hI, hcount⟩ happ
  obtain ⟨lo, hi, t', hspan, hrew, rfl⟩ := happ.exists_tree
  have hresh := hrew.reshape hI.wellFormed
  have hk := keepsContent_prot step.prot (some step.pkey) step.start
    (step.start.asU64 + step.len)
  have hcount' : t'.iter.length ≤ s1.tree.iter.length + 2 := hresh.length_le hk hI.wellFormed
  have hroom : n * (3 * k + 2) + t'.iter.length ≤ (n + 1) * (3 * k + 2) := by
    rw [Nat.add_mul]
    omega
  have hpos := hin.pos
  obtain ⟨hfirst, hlast⟩ := hin.ends (P := (· % PAGE_SIZE_BYTES = 0)) haddr
    (end_aligned haddr hlen) fun v hv => (h.paged _ _ hv).end
  refine ⟨(hI.mono hroom).resplit hk hresh (owned_protRewrite _ _ _ _) (by omega) hfirst hlast
    hspan, ?_⟩
  show t'.iter.length + 2 * n ≤ 3 * k + 2
  omega

/-! ### Mapping -/

variable {av : Option Arc}

theorem newFamily {backing : VmaBacking} {r' : Rmaps}
    (h : NewFamily r backing av r') : r'.file = r.file ∧ r'.fileRmap = r.fileRmap := by
  rw [NewFamily] at h
  split_ifs at h
  · rw [h.2]
    exact ⟨rfl, rfl⟩
  · rw [h.2]
    exact ⟨rfl, rfl⟩

section Mmap

variable {start : UserVirtAddr} {replaced : Option UserVirtAddr} {len : ℕ} {prot mayProt : VmaProt}
  {flags : VmaFlags} {backing : VmaBacking} {t : VmaTree}

section Cleared

variable (h : FileInv objects mm r0 n s)
  (hsafe : MmapSafe s start replaced len prot mayProt flags backing)
  (hclear : s.Cleared start len replaced t)

include h hsafe hclear

theorem cleared (hpos : 0 < len) (hlen : len % PAGE_SIZE_BYTES = 0) :
    FileInv objects mm r0 n { s with tree := t } := by
  rcases hclear.cases with rfl | ⟨hne, hclear⟩
  · exact h
  · exact h.replace (keepsContent_none _ _) hclear (by simp) (by omega) hsafe.aligned
      (end_aligned hsafe.aligned hlen) (hsafe.replaces hne)

/-- A VMA with a reverse map in the cleared tree is an old one. -/
theorem old_of_cleared : t.All fun v => v.fileRmap = v.backing.owner objects ∧
      (v.fileRmap ≠ none → s.tree.Has v) := by
  have hbase : s.tree.All fun v => v.fileRmap = v.backing.owner objects ∧
      (v.fileRmap ≠ none → s.tree.Has v) := by
    intro k v hv
    exact ⟨(h.paged k v hv).owned, fun _ => h.wellFormed.has hv⟩
  rcases hclear.cases with rfl | ⟨hne, hclear⟩
  · exact hbase
  have hclone : ∀ v, (v.fileRmap = v.backing.owner objects ∧ (v.fileRmap ≠ none → s.tree.Has v)) →
      Meets start (start.asU64 + len) v → ∀ a b, (v.cloneSubrange a b).fileRmap =
        (v.cloneSubrange a b).backing.owner objects ∧
        ((v.cloneSubrange a b).fileRmap ≠ none → s.tree.Has (v.cloneSubrange a b)) := by
    rintro v ⟨hown, hold⟩ hm a b
    refine ⟨?_, fun hr => ?_⟩
    · show v.fileRmap = (v.backing.rebase _).owner objects
      rw [hown]
      cases v.backing <;> rfl
    · -- a VMA that meets the range has no reverse map
      exact absurd (hsafe.replaces hne _ v (hold hr) hm.start_lt hm.lt_end) hr
  exact hclear.all_of_removal h.wellFormed hbase (fun v hv hm _ => hclone v hv hm _ _)
    fun v hv hm b _ _ => hclone v hv hm _ _

end Cleared

/-- **A mapping published where it is safe.** -/
theorem published (h : FileInv objects mm r0 (n + 1) s)
    (hsafe : MmapSafe s start replaced len prot mayProt flags backing) (hpos : 0 < len)
    (hlen : len % PAGE_SIZE_BYTES = 0) {e : UserVirtAddr} (he : e.asU64 = start.asU64 + len)
    (hclear : s.Cleared start len replaced t) {t' : VmaTree} (hfam : NewFamily s.rmaps backing av r)
    (hins : Inserted t (s.mappedVma start e prot mayProt flags backing av) t') {v : Vma}
    (hfind : t'.findContaining start = some v) :
    FileInv objects mm r0 n { s with
      tree := t', rmaps := r.attachVma s.selfWeak v start.asU64 e.asU64 } := by
  obtain ⟨hfile, hobj⟩ := newFamily hfam
  have h1 := (h.cleared hsafe hclear hpos hlen).rmaps hfile hobj
  set vma := s.mappedVma start e prot mayProt flags backing av with hvma
  have hpaged : vma.Paged objects := by
    refine ⟨mappedVma_whole hsafe.aligned hlen he hsafe.fits, ?_⟩
    show backing.owner s.rmaps.fileRmap = backing.owner objects
    rw [h.objects_eq]
  -- whatever would absorb the new VMA has a reverse map, so it is an old VMA
  have hno : vma.fileRmap ≠ none → ∀ l, t.Has l → ¬ Vma.Mergeable l vma := by
    intro hne l hl hm
    have hown : backing.owner s.rmaps.fileRmap ≠ none := hne
    have hav : av = none := by
      rw [NewFamily] at hfam
      split_ifs at hfam with hb
      · rw [hb] at hown
        exact absurd rfl hown
      · exact hfam.1
    have hl' := h.old_of_cleared hsafe hclear _ _ hl
    have hlne : l.fileRmap ≠ none := by
      rw [hl'.1]
      rw [h.objects_eq] at hown
      rcases VmaBacking.continuesTo_iff.mp hm.backing with ⟨-, hb⟩ | ⟨f, o, o', hb, hb', -⟩
      · have hb : backing = .anonymous := hb
        rw [hb] at hown
        exact absurd rfl hown
      have hb' : backing = .file f o' := hb'
      rw [hb'] at hown
      rwa [hb]
    have hmerge := hsafe.apart hown l (hl'.2 hlne) e he
    rw [hvma, hav, ← Vma.mergeableWithNext_iff] at hm
    cases hm.symm.trans hmerge
  refine ⟨h.self, h.noUffd, ?_, hins.wellFormed, hins.paged h1.paged hpaged, ?_, ?_, ?_⟩
  · exact (congrArg Prod.fst (attachVma_owners ..)).trans (hobj.trans h.objects_eq)
  · rw [h.self]
    exact h1.edges.publish hins h1.wellFormed h1.paged hpaged hno hfind
  · intro x e' hne
    rw [← h1.frame x e' hne]
    refine ⟨fun hmem => ?_, mem_attachVma_file_of_mem⟩
    rcases mem_attachVma_file hmem with hmem | hedge
    · exact hmem
    · exact absurd (hedge.mm_eq.trans h.self) hne
  · exact Rmaps.Room.attachVma h1.room _ _ _ _

theorem mmap
    (h : FileInv objects mm r0 (n + 1) s)
    (hsafe : ∀ start replaced,
      s.place (granule env placement backing) placement len = .ok (start, replaced) →
      MmapSafe s start replaced len prot mayProt flags backing) :
    (mmapWithMayAtInnerLocked env placement len prot mayProt flags backing mdwe).Ends s
      fun _ s' => FileInv objects mm r0 n s' := by
  refine (MmapCall.run_ends (c := ⟨env, placement, len, prot, mayProt, flags, backing, mdwe⟩)
    h.wellFormed).mono fun r s' hend => ?_
  cases hend with
  | refused hfam =>
    have h1 := h.mono (Nat.le_succ n)
    rcases hfam with rfl | rfl
    · exact h1
    · exact h1.rmaps rfl rfl
  | published hr hfam hins hfind =>
    exact (h.published (hsafe _ _ hr.placed) hr.pos hr.pages hr.end_eq hr.cleared hfam hins
      hfind).accounting _

end Mmap

/-! ### Faults and forks -/

section

variable (h : FileInv objects mm r0 n s)
include h

theorem updated {v w : Vma} {t' : VmaTree} (hu : Updated s.tree v w t')
    (hobs : ∀ va, w.content va = v.content va) (hb : w.backing = v.backing)
    (hr : w.fileRmap = v.fileRmap) : FileInv objects mm r0 n { s with tree := t' } := by
  have hv := h.paged _ _ hu.stored
  refine h.tree (hu.wellFormed h.wellFormed) (hu.all h.paged ⟨hu.whole hv.toWhole hb, ?_⟩)
    (h.edges.update hu h.wellFormed hobs)
  rw [hr, hb]
  exact hv.owned

theorem markAnonPage :
    (markAnonPage va : Vm ε Unit).Ends s fun _ s' => FileInv objects mm r0 n s' :=
  markAnonPage_rule h.wellFormed h fun _ _ _ hu => h.updated hu (fun _ => rfl) rfl rfl

theorem prepareAnonVma :
    (prepareAnonVma va).Ends s fun _ s' => FileInv objects mm r0 n s' := by
  refine prepareAnonVma_rule h.wellFormed (fun _ => h) (fun _ _ _ _ => h) ?_
  intro v t' _ _ hu
  have h' := h.updated hu (fun _ => rfl) rfl rfl
  exact h'.rmaps rfl rfl

end

/-- The tree of a child has VMAs of whole pages, no more than were inherited. -/
theorem forkTree {vmas : List Vma} (hvmas : ∀ v ∈ vmas, v.Paged objects) {t : VmaTree}
    (hrun : forkTree vmas .new = .ok (.ok (), t)) :
    t.WellFormed ∧ t.All (Vma.Paged objects) ∧ t.iter.length ≤ vmas.length := by
  have hrule := forkTree_rule (J := fun t done => (∀ v ∈ done, v.Paged objects) →
    t.All (Vma.Paged objects) ∧ t.All fun v => v.start.asU64 ∈ done.map fun w => w.start.asU64)
    ?_ vmas [] WellFormed.new (fun _ => ⟨?_, ?_⟩)
  · obtain ⟨hw, hJ⟩ := hrule _ _ hrun rfl
    obtain ⟨hp, hstarts⟩ := hJ hvmas
    refine ⟨hw, hp, ?_⟩
    have := hw.length_le hstarts
    rwa [length_map] at this
  · intro t done v t' hw hJ hins hdone
    obtain ⟨hp, hstarts⟩ := hJ fun w hw => hdone w (mem_append_left _ hw)
    have hv := hdone v (by simp)
    refine ⟨hins.paged hp ⟨⟨hv.start, hv.end, hv.fits⟩, hv.owned⟩, ?_⟩
    rw [map_append]
    refine hins.all (fun k w hw => mem_append_left _ (hstarts k w hw))
      (mem_append_right _ (mem_singleton.mpr rfl)) fun l r hl _ _ _ _ _ _ => hl
  · intro k v hv
    simp [VmaTree.new] at hv
  · intro k v hv
    simp [VmaTree.new] at hv

end FileInv

/-! ### All address spaces -/

namespace MmSystem

/-- The invariant of the system. -/
structure FileWorld (objects : Arc → Option Arc) (w : MmSystem) : Prop where
  objects_eq : w.rmaps.fileRmap = objects
  room : w.rmaps.Room 0
  /-- The edges belong to address spaces that have been created. -/
  known : ∀ x, ∀ e ∈ (w.rmaps.file x).targets, e.mm.ptr < w.nextMm
  created : ∀ mm s, w.space mm = some s → mm.ptr < w.nextMm
  spaces : ∀ mm s, w.space mm = some s → FileInv objects mm w.rmaps 0 { s with rmaps := w.rmaps }

variable {objects : Arc → Option Arc} {w w' : MmSystem} {mm : Arc}

theorem FileWorld.new (objects : Arc → Option Arc) : FileWorld objects (.new objects) where
  objects_eq := rfl
  room x := ⟨FileRmap.Sound.new, show 1 + 0 < 2 ^ 64 by decide⟩
  known x e he := absurd he (by simp [MmSystem.new, empty, FileRmap.new])
  created mm s h := absurd h (by simp [MmSystem.new])
  spaces mm s h := absurd h (by simp [MmSystem.new])

/-- The invariant does not look at the leaves. -/
theorem FileWorld.of_eq (h : FileWorld objects w) (hs : w'.space = w.space)
    (hr : w'.rmaps = w.rmaps) (hn : w'.nextMm = w.nextMm) : FileWorld objects w' where
  objects_eq := by rw [hr]; exact h.objects_eq
  room := by rw [hr]; exact h.room
  known := by rw [hr, hn]; exact h.known
  created := by rw [hs, hn]; exact h.created
  spaces := by rw [hs, hr]; exact h.spaces

/-- An address space that has its invariant is put into the system: the others do not notice what
it has attached. -/
theorem FileWorld.put (h : FileWorld objects w) (hs' : FileInv objects mm w.rmaps 0 s') {n : ℕ}
    (hlt : mm.ptr < n) (hn : w.nextMm ≤ n) (leaf : Arc → ℕ → Option Leaf) :
    FileWorld objects ⟨update w.space mm (some s'), s'.rmaps, n, leaf⟩ where
  objects_eq := hs'.objects_eq
  room := hs'.room
  known x e he := by
    by_cases hmm : e.mm = mm
    · rwa [hmm]
    · exact (h.known x e ((hs'.frame x e hmm).mp he)).trans_le hn
  created mm' s hs := by
    by_cases hmm : mm' = mm
    · rwa [hmm]
    · simp only [update_of_ne hmm] at hs
      exact (h.created mm' s hs).trans_le hn
  spaces mm' s hs := by
    by_cases hmm : mm' = mm
    · subst hmm
      simp only [update_self, Option.some_inj] at hs
      subst hs
      exact { hs' with frame := fun _ _ _ => Iff.rfl }
    simp only [update_of_ne hmm] at hs
    have hs := h.spaces mm' s hs
    exact ⟨hs.self, hs.noUffd, hs'.objects_eq, hs.wellFormed, hs.paged,
      hs.edges.of_frame fun x e he => hs'.frame x e (by rwa [he]), fun _ _ _ => Iff.rfl,
      hs'.room⟩

variable {α : Type}

/-- Code that keeps the invariant of its address space keeps that of the system. -/
theorem FileWorld.onSpace {m : Vm ε α} (h : FileWorld objects w)
    (hm : ∀ s, w.space mm = some s →
      m.Ends { s with rmaps := w.rmaps } fun _ s' => FileInv objects mm w.rmaps 0 s')
    {r : Option (Except ε α)} (hrun : w.onSpace mm m = .ok (r, w')) : FileWorld objects w' := by
  rcases onSpace_cases hrun with ⟨-, -, rfl⟩ | ⟨s, r', s', hs, hrun', -, rfl⟩
  · exact h
  · exact h.put (hm s hs _ _ hrun') (h.created mm s hs) le_rfl _

theorem FileWorld.onSpace_snd {m : Vm ε α} (h : FileWorld objects w)
    (hm : ∀ s, w.space mm = some s →
      m.Ends { s with rmaps := w.rmaps } fun _ s' => FileInv objects mm w.rmaps 0 s')
    (hrun : (w.onSpace mm m).map Prod.snd = .ok w') : FileWorld objects w' := by
  obtain ⟨_, hq, rfl⟩ := Except.map_eq_ok.mp hrun
  exact h.onSpace hm hq

/-! ### Steps of the system -/

/-- The sequence numbers of every object have room for what one call may attach. -/
def HasRoom (w : MmSystem) (mm : Arc) : Prop :=
  ∀ s, w.space mm = some s → ∀ x, (w.rmaps.file x).nextSeq + edgeBudget s.tree.iter.length < 2 ^ 64

/-- **The condition on one step** under which it keeps the walks exact. -/
def FileSafe (w : MmSystem) : MmEvent → Prop
  | .mmap env mm placement len prot mayProt flags backing _ => w.HasRoom mm ∧
      ∀ s, w.space mm = some s → ∀ start replaced,
        s.place (granule env placement backing) placement len = .ok (start, replaced) →
        MmapSafe { s with rmaps := w.rmaps } start replaced len prot mayProt flags backing
  | .munmap _ mm _ _ | .mprotect _ mm _ _ _ | .fork _ mm _ => w.HasRoom mm
  | .tryGrowStack mm va maxSize maxGrow =>
      ∀ s, w.space mm = some s → ¬ s.GrowsStack va maxSize maxGrow
  | .create _ _ | .fault _ _ _ _ _ | .drop _ => True

section

variable (h : FileWorld objects w)
include h

/-- An address space of the system, with the room it is about to use. -/
theorem FileWorld.space_room (hroom : w.HasRoom mm) (hs : w.space mm = some s) :
    FileInv objects mm w.rmaps (edgeBudget s.tree.iter.length) { s with rmaps := w.rmaps } :=
  { h.spaces mm s hs with room := fun x => ⟨(h.room x).1, hroom s hs x⟩ }

theorem FileWorld.mmap {len : ℕ} {prot mayProt : VmaProt} {flags : VmaFlags} {backing : VmaBacking}
    (hsafe : w.FileSafe (.mmap env mm placement len prot mayProt flags backing mdwe))
    (hrun : w.mmap env mm placement len prot mayProt flags backing mdwe = .ok w') :
    FileWorld objects w' := by
  -- the leaves are cleared first
  have hleaves : ∀ w1 : MmSystem, w1.space = w.space → w1.rmaps = w.rmaps → w1.nextMm = w.nextMm →
      (w1.onSpace mm (mmapWithMayAtInnerLocked env placement len prot mayProt flags backing
        mdwe)).map Prod.snd = .ok w' → FileWorld objects w' := by
    intro w1 hs hr hn hrun
    refine (h.of_eq hs hr hn).onSpace_snd (fun s hspace => ?_) hrun
    rw [hs] at hspace
    rw [hr]
    refine ((h.space_room hsafe.1 hspace).mono ?_).mmap fun start replaced hplace =>
      hsafe.2 s hspace start replaced hplace
    have := add_two_le_edgeBudget s.tree.iter.length
    omega
  cases placement with
  | fixed addr => exact hleaves (w.clearLeaves mm addr.asU64 (addr.asU64 + len)) rfl rfl rfl hrun
  | _ => exact hleaves w rfl rfl rfl hrun

theorem FileWorld.munmap {len : ℕ} (hroom : w.HasRoom mm)
    (hrun : w.munmap env mm addr len = .ok w') : FileWorld objects w' := by
  obtain ⟨q, hq, rfl⟩ := Except.map_eq_ok.mp hrun
  have hw1 : FileWorld objects q.2 := by
    refine h.onSpace (fun s hs => ?_) hq
    refine ((h.space_room hroom hs).mono ?_).munmap
    rw [Nat.zero_add]
    exact add_two_le_edgeBudget _
  split
  · exact hw1.of_eq rfl rfl rfl
  · exact hw1

theorem FileWorld.no_edges (x : Arc) : ∀ e ∈ (w.rmaps.file x).targets, e.mm ≠ ⟨w.nextMm⟩ := by
  intro e he hmm
  have hlt := h.known x e he
  rw [hmm] at hlt
  exact absurd hlt (lt_irrefl _)

theorem FileWorld.create (mmapBase : ℕ) (mmapTopdown : Bool) :
    FileWorld objects (w.create mmapBase mmapTopdown) := by
  have hpaged : VmaTree.new.All (Vma.Paged objects) := by
    intro k v hv
    simp [VmaTree.new] at hv
  have hnew : FileInv objects ⟨w.nextMm⟩ w.rmaps 0
      (.new ⟨w.nextMm⟩ mmapBase mmapTopdown w.rmaps) :=
    ⟨rfl, rfl, h.objects_eq, WellFormed.new, hpaged,
      FileEdges.fresh WellFormed.new hpaged h.no_edges, fun _ _ _ => Iff.rfl, h.room⟩
  exact h.put hnew (Nat.lt_succ_self _) (Nat.le_succ _) w.leaf

theorem FileWorld.drop (mm : Arc) : FileWorld objects (w.drop mm) where
  objects_eq := h.objects_eq
  room := h.room
  known := h.known
  created mm' s hs := by
    by_cases hmm : mm' = mm
    · subst hmm
      simp [MmSystem.drop] at hs
    · simp only [MmSystem.drop, update_of_ne hmm] at hs
      exact h.created mm' s hs
  spaces mm' s hs := by
    by_cases hmm : mm' = mm
    · subst hmm
      simp [MmSystem.drop] at hs
    · simp only [MmSystem.drop, update_of_ne hmm] at hs
      exact h.spaces mm' s hs

theorem FileWorld.mark {page : ℕ} {leaf : Leaf}
    (hrun : ((w.setLeaf mm page leaf).onSpace mm (markAnonPage va : Vm Error Unit)).map Prod.snd =
      .ok w') : FileWorld objects w' := by
  have h1 : FileWorld objects (w.setLeaf mm page leaf) := h.of_eq rfl rfl rfl
  exact h1.onSpace_snd (fun s hs => (h1.spaces mm s hs).markAnonPage) hrun

theorem FileWorld.handlePageFault {access : FaultAccess} {o : FaultAnswers}
    (hrun : w.handlePageFault env mm va access o = .ok w') : FileWorld objects w' := by
  rcases handlePageFault_cases hrun with rfl | rfl | ⟨s, v, av, -, -, -, hmark⟩ |
    ⟨s, v, r, w1, -, -, hprep, hrest⟩
  · exact h
  · exact h.of_eq rfl rfl rfl
  · exact h.mark hmark
  have hw1 := h.onSpace (fun s hs => (h.spaces mm s hs).prepareAnonVma) hprep
  rcases hrest with ⟨av, -, hmark⟩ | rfl
  · exact hw1.mark hmark
  · exact hw1

theorem FileWorld.fork {kind : ForkKind} (hroom : w.HasRoom mm)
    (hrun : w.fork env mm kind = .ok w') : FileWorld objects w' := by
  rcases fork_cases env mm kind hrun with rfl | ⟨parent, tree, hs, hf, hrun⟩
  · exact h
  have hparent := h.spaces mm parent hs
  have hinherited : ∀ v ∈ parent.tree.iter.filter kind.inherits, v.Paged objects := by
    intro v hv
    obtain ⟨k, hk⟩ := OrdMap.mem_values_iff.mp (mem_filter.mp hv).1
    exact hparent.paged k v hk
  obtain ⟨hw, hp, hlen⟩ := FileInv.forkTree hinherited hf
  -- the child's edges are those of its own VMAs
  have hchild : FileInv objects ⟨w.nextMm⟩ w.rmaps 0 (childSpace ⟨w.nextMm⟩ parent tree
      (attachChildRmaps ⟨w.nextMm⟩ tree w.rmaps)) := by
    refine ⟨rfl, rfl, (congrArg Prod.fst (attachAll_owners ..)).trans h.objects_eq, hw,
      hp, FileEdges.fresh hw hp h.no_edges, fun x e hne => ?_, ?_⟩
    · refine ⟨fun hmem => ?_, mem_attachAll_file_of_mem⟩
      have hmem' : e ∈ ((w.rmaps.attachAll ⟨w.nextMm⟩ tree.iter).file x).targets := hmem
      rcases mem_attachAll_file hmem' with hmem | ⟨v, -, hedge⟩
      · exact hmem
      · exact absurd hedge.mm_eq hne
    refine Rmaps.Room.attachAll (fun x => ⟨(h.room x).1, ?_⟩) _
    have h1 := hroom parent hs x
    have h2 := add_two_le_edgeBudget parent.tree.iter.length
    have h3 := length_filter_le kind.inherits parent.tree.iter
    omega
  have hw1 := h.put hchild (Nat.lt_succ_self _) (Nat.le_succ _) (update w.leaf ⟨w.nextMm⟩
    (inheritedLeaves kind parent.tree (w.leaf mm)))
  refine hw1.onSpace_snd (fun s hspace => ?_) hrun
  rw [dupUffdRegistrations, hparent.noUffd]
  exact ends_pure.mpr (hw1.spaces _ s hspace)

/-- **One safe step keeps the invariant.** -/
theorem FileWorld.step {e : MmEvent} (hsafe : w.FileSafe e) (hrun : e.run w = .ok w') :
    FileWorld objects w' := by
  cases e with
  | create =>
    rw [← Except.ok.inj hrun]
    exact h.create ..
  | mmap => exact h.mmap hsafe hrun
  | munmap => exact h.munmap hsafe hrun
  | mprotect =>
    exact h.onSpace_snd (fun s hs => (h.space_room hsafe hs).mprotect) hrun
  | tryGrowStack mm =>
    refine h.onSpace_snd (fun s hs => ?_) hrun
    refine (tryGrowStack_of_not_grows (h.spaces mm s hs).wellFormed (hsafe s hs)).mono ?_
    rintro _ s' rfl
    exact h.spaces mm s hs
  | fault => exact h.handlePageFault hrun
  | fork => exact h.fork hsafe hrun
  | drop mm =>
    rw [← Except.ok.inj hrun]
    exact h.drop mm

end

/-! ### Walks -/

/-- The walks over file pages visit the pages of the current file VMAs, and nothing else. -/
structure FileWalksExact (w : MmSystem) : Prop where
  /-- Every page of a file VMA is visited. -/
  complete : ∀ mm s, w.space mm = some s → ∀ v ∈ s.tree.iter, ∀ f off x,
    v.backing = .file f off → w.rmaps.fileRmap f = some x →
    ∀ i, v.start.asU64 + i * PAGE_SIZE_BYTES < v.end.asU64 →
      (mm, v.start.asU64 + i * PAGE_SIZE_BYTES) ∈
        walkPage w.live (w.rmaps.file x) (off.toNat / PAGE_SIZE_BYTES + i)
  /-- Every visit is such a page. -/
  sound : ∀ x p mm va, (mm, va) ∈ walkPage w.live (w.rmaps.file x) p →
    ∃ s v f off i, w.space mm = some s ∧ v ∈ s.tree.iter ∧ v.backing = .file f off ∧
      w.rmaps.fileRmap f = some x ∧ va = v.start.asU64 + i * PAGE_SIZE_BYTES ∧
      va < v.end.asU64 ∧ p = off.toNat / PAGE_SIZE_BYTES + i

theorem FileWorld.walks_exact (h : FileWorld objects w) : w.FileWalksExact where
  complete mm s hs v hv f off x hb hx i hi := by
    have hinv := h.spaces mm s hs
    obtain ⟨k, hk⟩ := OrdMap.mem_values_iff.mp hv
    have hv := hinv.wellFormed.has hk
    have hp := hinv.paged _ _ hv
    have hstart := hp.start
    rw [h.objects_eq] at hx
    -- the address of the page shows it, so an edge covers it
    set va : UserVirtAddr := ⟨v.start.asU64 + i * PAGE_SIZE_BYTES, hi.trans v.end.isUser⟩
    have hva : va.asU64 = v.start.asU64 + i * PAGE_SIZE_BYTES := rfl
    have halign : va.asU64 % PAGE_SIZE_BYTES = 0 := by
      rwa [Nat.add_mul_mod_self_right]
    have hpage : s.tree.filePage objects va = some (x, off.toNat / PAGE_SIZE_BYTES + i) := by
      rw [filePage_of_get? hinv.wellFormed hv (Vma.contains_iff.mpr ⟨by omega, hi⟩),
        source_page_iff hp halign (by omega)]
      have hown := hp.owned
      rw [hb] at hown
      refine ⟨hown.trans hx, f, off, hb, hx, ?_⟩
      rw [Nat.add_sub_cancel_left, Nat.mul_div_cancel _ (by decide)]
    obtain ⟨e, he, hmm, h1, h2⟩ := hinv.edges.cover va halign x _ hpage
    have hright := hinv.edges.right x e he hmm
    have hsame := hright.page va halign h1 h2
    rw [hpage, Option.some_inj, Prod.mk.injEq] at hsame
    have hbound : off.toNat / PAGE_SIZE_BYTES + i + 1 < 2 ^ 64 := by
      have hi' : v.start.asU64 + i * 4096 < v.end.asU64 := hi
      have h3 := v.end.asU64_lt
      simp only [PAGE_SIZE_BYTES] at *
      omega
    refine (mem_walkPage_iff (h.room x).1.ordered hbound).mpr ⟨by rw [live, hs]; rfl, e, he,
      hmm, ?_⟩
    have h3 := hright.start
    have h4 := hright.end
    simp only [PAGE_SIZE_BYTES] at *
    omega
  sound x p mm va hvisit := by
    by_cases hbound : p + 1 < 2 ^ 64
    · obtain ⟨hlive, e, he, hmm, h1, h2, hva⟩ :=
        (mem_walkPage_iff (h.room x).1.ordered hbound).mp hvisit
      obtain ⟨s, hs⟩ := Option.isSome_iff_exists.mp hlive
      have hinv := h.spaces mm s hs
      have hright := hinv.edges.right x e he hmm
      obtain ⟨u, -, -, hue⟩ := hright.inside
      have h3 := hright.start
      have hlt : va < e.end := by
        simp only [PAGE_SIZE_BYTES] at *
        omega
      have halign : va % PAGE_SIZE_BYTES = 0 := by
        simp only [PAGE_SIZE_BYTES] at *
        omega
      have hpage := hright.page ⟨va, lt_of_lt_of_le hlt (hue.trans u.end.isUser.le)⟩ halign
        (by simp only; omega) hlt
      obtain ⟨v, hv, hcon, -, f, off, hb, hx, hp⟩ :=
        filePage_eq_some hinv.wellFormed hinv.paged halign hpage
      obtain ⟨hc1, hc2⟩ := Vma.contains_iff.mp hcon
      have hstart := (hinv.paged _ _ hv).start
      refine ⟨s, v, f, off, (va - v.start.asU64) / PAGE_SIZE_BYTES, hs,
        OrdMap.mem_values_iff.mpr ⟨_, hv⟩, hb, by rwa [h.objects_eq], ?_, hc2, ?_⟩
      · simp only [PAGE_SIZE_BYTES] at *
        omega
      · simp only [PAGE_SIZE_BYTES] at *
        omega
    · rw [walkPage_eq_nil (by omega)] at hvisit
      cases hvisit

/-- **In every state of a safe run the walks over file pages are exact.** -/
theorem file_walks_exact (objects : Arc → Option Arc) {events : List MmEvent} {w : MmSystem}
    (hsafe : MmEvent.Meeting FileSafe (.new objects) events)
    (hrun : MmEvent.runAll (.new objects) events = .ok w) : w.FileWalksExact :=
  (hsafe.invariant (I := FileWorld objects) (fun _ _ _ h hs hr => h.step hs hr) (.new objects)
    hrun).walks_exact

/-! ### Runs -/

/-- One mapped object, with a reverse map. -/
def oneObject (f : Arc) : Option Arc := if f = ⟨7⟩ then some ⟨70⟩ else none

theorem firstPage_isUser : 0x10000 < USER_VA_END := by decide

theorem secondPage_isUser : 0x11000 < USER_VA_END := by decide

/-- Map `len` bytes of the object from `off` at `addr`. -/
def mapObject (addr : UserVirtAddr) (len : ℕ) (off : BitVec 64) : MmEvent :=
  .mmap .plain ⟨0⟩ (.fixedNoReplace addr) len VmaProt.READ VmaProt.READ VmaFlags.SHARED
    (.file ⟨7⟩ off) .check

/-- Map the first two pages of the object, and unmap the second. -/
def mapThenUnmap : List MmEvent :=
  [.create 0x100000 true, mapObject ⟨0x10000, firstPage_isUser⟩ 0x2000 0,
    .munmap .plain ⟨0⟩ ⟨0x11000, secondPage_isUser⟩ 0x1000]

theorem mapThenUnmap_safe : MmEvent.Meeting FileSafe (.new oneObject) mapThenUnmap := by
  refine ⟨trivial, fun w1 h1 => ?_⟩
  cases h1
  refine ⟨⟨?_, ?_⟩, fun w2 h2 => ?_⟩
  · intro s hs x
    cases hs
    show 1 + edgeBudget 0 < 2 ^ 64
    decide
  · intro s hs start replaced hplace
    cases hs
    cases hplace
    refine ⟨by decide, ?_, by simp, ?_⟩
    · intro f off hb
      obtain ⟨-, rfl⟩ := VmaBacking.file.inj hb
      decide
    · intro _ l hl
      simp [AddressSpace.new, VmaTree.new] at hl
  -- one edge has been attached to the object
  cases h2
  refine ⟨?_, fun _ _ => trivial⟩
  intro s hs x
  cases hs
  show nextSeq (update (fun _ => FileRmap.new) ⟨70⟩ _ x) + edgeBudget 1 < 2 ^ 64
  by_cases hx : x = ⟨70⟩
  · rw [hx]
    decide
  · rw [update_of_ne hx]
    decide

theorem mapThenUnmap_walks_exact :
    ∃ w, MmEvent.runAll (.new oneObject) mapThenUnmap = .ok w ∧ w.FileWalksExact :=
  ⟨_, rfl, file_walks_exact oneObject mapThenUnmap_safe rfl⟩

/-- Map the first page of the object, and the second behind it. -/
def adjacentMaps : List MmEvent :=
  [.create 0x100000 true, mapObject ⟨0x10000, firstPage_isUser⟩ 0x1000 0,
    mapObject ⟨0x11000, secondPage_isUser⟩ 0x1000 0x1000]

/-- **The second mapping is absorbed and attached as page 0**: the walk over page 1 misses it, and
the walk over page 0 visits it. -/
theorem adjacentMaps_visits_wrong_page :
    ∃ w, MmEvent.runAll (.new oneObject) adjacentMaps = .ok w ∧
      walkPage w.live (w.rmaps.file ⟨70⟩) 0 = [(⟨0⟩, 0x10000), (⟨0⟩, 0x11000)] ∧
      walkPage w.live (w.rmaps.file ⟨70⟩) 1 = [] ∧ ¬ w.FileWalksExact := by
  refine ⟨_, rfl, rfl, rfl, fun h => ?_⟩
  -- the one VMA of the address space maps page 1 at `0x11000`
  have hmem := h.complete ⟨0⟩ _ rfl _ (mem_singleton.mpr rfl) ⟨7⟩ 0 ⟨70⟩ rfl rfl 1 (by decide)
  exact not_mem_nil hmem

end MmSystem

end Oxide
