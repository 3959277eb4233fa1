/-
Pages that were recorded with a family and an index.

When a private page is faulted in, its frame records the family of the VMA and the index of the
page, counted from the start of the VMA. A walk adds the index to the starts of the family's
edges. It finds the page as long as the page's VMA has kept its family and its start, and an
edge with that start reaches the page.

* `Homed`: every recorded page is in a VMA with its family, at its index;
* `FamilyEdges`: every VMA with a family has edges from its start that reach its addresses;
* `SameHome`: the recorded pages of a VMA come from one with the same start and family;
* `SameHome.absorb`: **coalescing is harmless when the right VMA holds no page**;
* `FamilyEdges.resplit`: the edges after a range operation.
-/
import Oxide.MprotectWalk

namespace Oxide

open VmaTree MergeView UserVirtAddr Vma AddressSpace

variable {start va : UserVirtAddr} {t t' : VmaTree} {hi lo page stop : ℕ}

/-- The page of the VMA is recorded with a family. -/
def Holds (leaf : ℕ → Option Leaf) (v : Vma) (page : ℕ) : Prop :=
  v.start.asU64 ≤ page ∧ page < v.end.asU64 ∧ ∃ av idx, leaf page = some ⟨some (av, idx)⟩

/-- Every recorded page lies in one of the VMAs `D`, with its family and at its index. -/
def HomedIn (D : Vma → Prop) (leaf : ℕ → Option Leaf) : Prop :=
  ∀ page av idx, leaf page = some ⟨some (av, idx)⟩ →
    ∃ v, D v ∧ v.start.asU64 ≤ page ∧ page < v.end.asU64 ∧ v.anonVma = some av ∧
      page = v.start.asU64 + idx * PAGE_SIZE_BYTES

/-- Every recorded page lies in a VMA of the tree with its family and at its index. -/
def Homed (t : VmaTree) (leaf : ℕ → Option Leaf) : Prop := HomedIn t.Has leaf

/-- The recorded pages of the VMA come from one of `D` with the same start and family. -/
def SameHome (D : Vma → Prop) (leaf : ℕ → Option Leaf) (v : Vma) : Prop :=
  ∀ page, Holds leaf v page → ∃ u, D u ∧ u.start.asU64 ≤ page ∧ page < u.end.asU64 ∧
    u.start = v.start ∧ u.anonVma = v.anonVma

/-- The VMAs do not overlap. -/
def Apart (D : Vma → Prop) : Prop :=
  ∀ u v, D u → D v → u = v ∨ u.end.asU64 ≤ v.start.asU64 ∨ v.end.asU64 ≤ u.start.asU64

theorem VmaTree.WellFormed.apart (hw : t.WellFormed) : Apart t.Has :=
  fun _ _ hu hv => hw.eq_or_apart hu hv

section Pages

variable {D : Vma → Prop} {leaf leaf' : ℕ → Option Leaf} {v l r : Vma} {t t' : VmaTree}

theorem Holds.mono {w : Vma} (h : Holds leaf w page) (hs : v.start.asU64 ≤ w.start.asU64)
    (he : w.end.asU64 ≤ v.end.asU64) : Holds leaf v page :=
  ⟨hs.trans h.1, h.2.1.trans_le he, h.2.2⟩

theorem sameHome_self (hv : D v) : SameHome D leaf v :=
  fun _ h => ⟨v, hv, h.1, h.2.1, rfl, rfl⟩

/-- What is recorded on the leaves `leaf'` is recorded on `leaf`. -/
def RecordedIn (leaf' leaf : ℕ → Option Leaf) : Prop :=
  ∀ page x, leaf' page = some ⟨some x⟩ → leaf page = some ⟨some x⟩

theorem Holds.recorded (h : Holds leaf' v page) (hl : RecordedIn leaf' leaf) :
    Holds leaf v page := by
  obtain ⟨h1, h2, av, idx, hpage⟩ := h
  exact ⟨h1, h2, av, idx, hl page _ hpage⟩

/-- Forgetting leaves keeps the homes of the others. -/
theorem HomedIn.mono (h : HomedIn D leaf) (hl : RecordedIn leaf' leaf) : HomedIn D leaf' :=
  fun page av idx hpage => h page av idx (hl page _ hpage)

/-- Pages whose VMAs come from their homes are at home. -/
theorem HomedIn.transfer (h : HomedIn D leaf) (hD : Apart D)
    (hsame : t.All (SameHome D leaf))
    (hmapped : ∀ page v, D v → Holds leaf v page →
      ∃ w, t.Has w ∧ w.start.asU64 ≤ page ∧ page < w.end.asU64) : Homed t leaf := by
  intro page av idx hpage
  obtain ⟨v, hv, h1, h2, hav, hidx⟩ := h page av idx hpage
  obtain ⟨w, hwt, h3, h4⟩ := hmapped page v hv ⟨h1, h2, av, idx, hpage⟩
  obtain ⟨u, hu, h5, h6, hstart, hfam⟩ := hsame _ _ hwt page ⟨h3, h4, av, idx, hpage⟩
  -- the home is the VMA the page came from
  rcases hD u v hu hv with rfl | hap | hap
  · exact ⟨w, hwt, h3, h4, hfam.symm.trans hav, by rwa [← hstart]⟩
  · omega
  · omega

/-! ### Cuts -/

/-- No VMA of `D` that starts below `x` holds a page at or above `x`. -/
def Clean (D : Vma → Prop) (leaf : ℕ → Option Leaf) (x : ℕ) : Prop :=
  ∀ u, D u → u.start.asU64 < x → ∀ page, Holds leaf u page → page < x

theorem Clean.leaves {x : ℕ} (h : Clean D leaf x) (hl : RecordedIn leaf' leaf) : Clean D leaf' x :=
  fun u hu hlt page hold => h u hu hlt page (hold.recorded hl)

theorem VmaTree.WellFormed.clean_end (hw : t.WellFormed) (hv : t.Has v) :
    Clean t.Has leaf v.end.asU64 := by
  intro u hu hlt page hold
  have hne := hw.nonempty hv
  have h2 := hold.2.1
  rcases hw.apart u v hu hv with rfl | h | h
  · exact h2
  · omega
  · omega

/-- A fragment that starts with the VMA or at a clean point. -/
theorem SameHome.cloneSubrange (h : SameHome D leaf v) {a b : UserVirtAddr}
    (ha : v.start.asU64 ≤ a.asU64) (hb : b.asU64 ≤ v.end.asU64)
    (hclean : v.start.asU64 < a.asU64 → Clean D leaf a.asU64) :
    SameHome D leaf (v.cloneSubrange a b) := by
  intro page hold
  have hstart : a.asU64 ≤ page := hold.1
  obtain ⟨u, hu, h1, h2, hs, hf⟩ := h page (hold.mono ha hb)
  by_cases hlt : v.start.asU64 < a.asU64
  · have := hclean hlt u hu (by rwa [hs]) page ⟨h1, h2, hold.2.2⟩
    omega
  · have heq : v.start = a := eq_iff.mpr (by omega)
    exact ⟨u, hu, h1, h2, hs.trans heq, hf⟩

/-- **Removal leaves recorded pages alone** when the end of the range is clean. -/
theorem sameHome_of_removal (h : Reshape (fun _ => none) start stop t t') (hw : t.WellFormed)
    (hclean : Clean t.Has leaf stop) : t'.All (SameHome t.Has leaf) := by
  refine h.all_of_removal hw (fun k v hv => sameHome_self (hw.has hv)) (fun v hv hm _ => ?_)
    fun v hv hm b hb _ => ?_
  · exact hv.cloneSubrange le_rfl hm.start_lt.le fun h => absurd h (lt_irrefl _)
  · have := hm.lt_end
    exact hv.cloneSubrange (by omega) le_rfl fun _ => by rw [hb]; exact hclean

/-! ### Coalescing -/

/-- Every address of the VMA shows what it shows in one of `D`. -/
def Shows {α : Type} (f : MergeView α) (D : Vma → Prop) (v : Vma) : Prop :=
  ∀ va, v.contains va = true → ∃ u, D u ∧ u.contains va = true ∧ f.obs u va = f.obs v va

variable {α : Type}

theorem shows_self (f : MergeView α) (hv : D v) : Shows f D v :=
  fun _ hc => ⟨v, hv, hc, rfl⟩

variable {f : MergeView α}

theorem Shows.absorb (hl : Shows f D l) (hr : Shows f D r)
    (hm : Vma.Mergeable l r) (hne : l.start.asU64 ≤ l.end.asU64) : Shows f D (l.absorb r) := by
  intro va hc
  obtain ⟨hc1, hc2⟩ := contains_iff.mp hc
  have hc1' : l.start.asU64 ≤ va.asU64 := hc1
  have hc2' : va.asU64 < r.end.asU64 := hc2
  have habut := eq_iff.mp hm.abut
  by_cases hlt : va.asU64 < l.end.asU64
  · obtain ⟨u, hu, hcu, hobs⟩ := hl va (contains_iff.mpr ⟨hc1', hlt⟩)
    exact ⟨u, hu, hcu, hobs.trans (f.absorb_left hm).symm⟩
  · obtain ⟨u, hu, hcu, hobs⟩ := hr va (contains_iff.mpr ⟨by omega, hc2'⟩)
    exact ⟨u, hu, hcu, hobs.trans (f.absorb_right hm hne (by omega)).symm⟩

/-- The VMAs `l` and `r` of the tree are what `l0` and `r0` have become around the point where
they meet. -/
structure Joint {α : Type} (f : MergeView α) (l0 r0 l r : Vma) : Prop where
  abut : l0.end = r0.start
  start_eq : r0.start = r.start
  nonempty : l0.start.asU64 < l0.end.asU64
  left : ∀ va : UserVirtAddr, va.asU64 + 1 = l.end.asU64 → f.obs l0 va = f.obs l va
  right : f.obs r0 r.start = f.obs r r.start

/-- **Coalescing leaves recorded pages alone** when the right VMA holds none. -/
theorem SameHome.absorb (hD : Apart D) (hl : SameHome D leaf l)
    (hr : SameHome D leaf r) (hls : Shows f D l) (hrs : Shows f D r) (hm : Vma.Mergeable l r)
    (hnl : l.start.asU64 < l.end.asU64) (hnr : r.start.asU64 < r.end.asU64)
    (hjoin : ∀ l0 r0, D l0 → D r0 → Joint f l0 r0 l r → ∀ page, ¬ Holds leaf r0 page) :
    SameHome D leaf (l.absorb r) := by
  intro page hold
  obtain ⟨h1, h2, hrec⟩ := hold
  have h1' : l.start.asU64 ≤ page := h1
  have h2' : page < r.end.asU64 := h2
  have habut := eq_iff.mp hm.abut
  by_cases hlt : page < l.end.asU64
  · exact hl page ⟨h1', hlt, hrec⟩
  -- a page of the right VMA: its home starts where the two meet
  exfalso
  obtain ⟨r0, hr0, h3, h4, hstart, -⟩ := hr page ⟨by omega, h2', hrec⟩
  have hstart' := eq_iff.mp hstart
  have hpred : r.start.asU64 - 1 < USER_VA_END := lt_of_le_of_lt (Nat.sub_le _ _) r.start.isUser
  obtain ⟨l0, hl0, hcl, hobsl⟩ := hls ⟨r.start.asU64 - 1, hpred⟩
    (contains_iff.mpr ⟨by simp only; omega, by simp only; omega⟩)
  obtain ⟨r1, hr1, hcr, hobsr⟩ := hrs r.start (contains_iff.mpr ⟨le_rfl, hnr⟩)
  obtain ⟨hcl1, hcl2⟩ := contains_iff.mp hcl
  obtain ⟨hcr1, hcr2⟩ := contains_iff.mp hcr
  simp only at hcl1 hcl2
  obtain rfl : r1 = r0 := by
    rcases hD r1 r0 hr1 hr0 with h | h | h
    · exact h
    · omega
    · omega
  have hend : l0.end = r1.start := by
    refine eq_iff.mpr ?_
    rcases hD l0 r1 hl0 hr0 with rfl | h | h
    · omega
    · omega
    · omega
  refine hjoin l0 r1 hl0 hr0 ⟨hend, hstart, by omega, fun va hva => ?_, hobsr⟩ page ⟨h3, h4, hrec⟩
  obtain rfl : va = ⟨r.start.asU64 - 1, hpred⟩ := eq_iff.mpr (by simp only; omega)
  exact hobsl

end Pages

/-! ### What would coalesce -/

section Join

variable {l0 r0 l r : Vma}

theorem Vma.source_eq_anonymous {v : Vma} (h : v.source va = .anonymous) :
    v.backing = .anonymous := by
  cases hb : v.backing with
  | anonymous => rfl
  | _ => simp [source, hb] at h

theorem Vma.source_eq_file {v : Vma} {f : Arc} {o : ℕ} (h : v.source va = .file f o) :
    ∃ off, v.backing = .file f off ∧ off.toNat + (va.asU64 - v.start.asU64) = o := by
  cases hb : v.backing with
  | file f' off =>
    simp only [source, hb, Source.file.injEq] at h
    exact ⟨off, by rw [h.1], h.2⟩
  | _ => simp [source, hb] at h

/-- VMAs that show the same around the point where two mergeable ones meet are mergeable as well,
up to their protection. -/
theorem mergeable_of_content (hm : Vma.Mergeable l r) (hnl : l.start.asU64 < l.end.asU64)
    (hj : Joint content l0 r0 l r) :
    Vma.Mergeable { l0 with prot := r0.prot, pkey := r0.pkey } r0 := by
  have habut := eq_iff.mp hm.abut
  have hstart := eq_iff.mp hj.start_eq
  have habut0 := eq_iff.mp hj.abut
  have hne0 := hj.nonempty
  have hpred : l.end.asU64 - 1 < USER_VA_END := lt_of_le_of_lt (Nat.sub_le _ _) l.end.isUser
  have hleft : l0.content ⟨l.end.asU64 - 1, hpred⟩ = l.content ⟨l.end.asU64 - 1, hpred⟩ :=
    hj.left _ (by simp only; omega)
  have hright : r0.content r.start = r.content r.start := hj.right
  have hattr : ∀ {β : Type} (g : Content → β), g (l.content ⟨l.end.asU64 - 1, hpred⟩) =
      g (r.content r.start) → g (l0.content ⟨l.end.asU64 - 1, hpred⟩) = g (r0.content r.start) := by
    intro β g h
    rwa [hleft, hright]
  refine ⟨hj.abut, rfl, hattr Content.mayProt hm.mayProt, rfl, hattr Content.flags hm.flags,
    hattr Content.anonName hm.anonName, hattr Content.uffd hm.uffd,
    hattr Content.mempolicy hm.mempolicy, ?_⟩
  have hsl : l0.source ⟨l.end.asU64 - 1, hpred⟩ = l.source ⟨l.end.asU64 - 1, hpred⟩ :=
    congrArg Content.source hleft
  have hsr : r0.source r.start = r.source r.start := congrArg Content.source hright
  refine VmaBacking.continuesTo_iff.mpr ?_
  rcases VmaBacking.continuesTo_iff.mp hm.backing with ⟨hb, hb'⟩ | ⟨f, off, off', hb, hb', hoff⟩
  · refine .inl ⟨source_eq_anonymous (hsl.trans ?_), source_eq_anonymous (hsr.trans ?_)⟩
    · simp [source, hb]
    · simp [source, hb']
  -- both offsets are those of the point where the VMAs meet
  have hlf : l.source ⟨l.end.asU64 - 1, hpred⟩ =
      .file f (off.toNat + (l.end.asU64 - 1 - l.start.asU64)) := by simp [source, hb]
  have hrf : r.source r.start = .file f off'.toNat := by simp [source, hb']
  obtain ⟨o, ho, heq⟩ := source_eq_file (hsl.trans hlf)
  obtain ⟨o', ho', heq'⟩ := source_eq_file (hsr.trans hrf)
  have hlen : l.lenBytes.toNat = l.end.asU64 - l.start.asU64 := toNat_bits_sub hnl.le
  have hlen0 : l0.lenBytes.toNat = l0.end.asU64 - l0.start.asU64 := toNat_bits_sub hne0.le
  refine .inr ⟨f, o, o', ho, ho', ?_⟩
  show o.toNat + l0.lenBytes.toNat = o'.toNat
  simp only at heq heq'
  omega

end Join

namespace VmaTree

/-- The contents with the protection, as a view that coalescing does not change. -/
def MergeView.full : MergeView (Content × VmaProt × BitVec 8) where
  obs v va := (v.content va, v.prot, v.pkey)
  absorb_left hm := Prod.ext (content.absorb_left hm) rfl
  absorb_right hm hl hva := Prod.ext (content.absorb_right hm hl hva)
    (Prod.ext hm.prot hm.pkey)

end VmaTree

/-- With the protection shown as well they are mergeable. -/
theorem mergeable_of_full {l0 r0 l r : Vma} (hm : Vma.Mergeable l r)
    (hnl : l.start.asU64 < l.end.asU64) (hj : Joint full l0 r0 l r) : Vma.Mergeable l0 r0 := by
  have hcontent : Joint content l0 r0 l r :=
    ⟨hj.abut, hj.start_eq, hj.nonempty, fun va hva => congrArg Prod.fst (hj.left va hva),
      congrArg Prod.fst hj.right⟩
  have hpred : l.end.asU64 - 1 < USER_VA_END := lt_of_le_of_lt (Nat.sub_le _ _) l.end.isUser
  have hleft := congrArg Prod.snd (hj.left ⟨l.end.asU64 - 1, hpred⟩ (by simp only; omega))
  have hright := congrArg Prod.snd hj.right
  obtain ⟨hp, hk⟩ := Prod.mk.inj hleft
  obtain ⟨hp', hk'⟩ := Prod.mk.inj hright
  have hres := mergeable_of_content hm hnl hcontent
  rw [show r0.prot = l0.prot from hp'.trans (hm.prot.symm.trans hp.symm),
    show r0.pkey = l0.pkey from hk'.trans (hm.pkey.symm.trans hk.symm)] at hres
  exact hres

/-! ### Edges -/

/-- Every VMA with a family has edges from its start that reach its addresses. -/
def FamilyEdges (mm : Arc) (t : VmaTree) (chain : Arc → List RmapTarget) : Prop :=
  ∀ v, t.Has v → ∀ av, v.anonVma = some av → ∀ va, v.start.asU64 ≤ va → va < v.end.asU64 →
    ∃ e ∈ chain av, e.mm = mm ∧ e.start = v.start.asU64 ∧ va < e.end

namespace FamilyEdges

variable {mm : Arc} {t t' : VmaTree} {r : Rmaps}

theorem mono {chain chain' : Arc → List RmapTarget} (h : FamilyEdges mm t chain)
    (hsub : ∀ v, t.Has v → ∀ av, v.anonVma = some av → ∀ e ∈ chain av, e.mm = mm → e ∈ chain' av) :
    FamilyEdges mm t chain' := by
  intro v hv av hav va h1 h2
  obtain ⟨e, he, hmm, hrest⟩ := h v hv av hav va h1 h2
  exact ⟨e, hsub v hv av hav e he hmm, hmm, hrest⟩

/-- VMAs that start where old VMAs of their family start and do not reach further. -/
theorem of_old {chain : Arc → List RmapTarget} (h : FamilyEdges mm t chain)
    (hold : t'.All fun v => v.anonVma ≠ none → ∃ u, t.Has u ∧ u.start = v.start ∧
      u.anonVma = v.anonVma ∧ v.end.asU64 ≤ u.end.asU64) : FamilyEdges mm t' chain := by
  intro v hv av hav va h1 h2
  obtain ⟨u, hu, hs, hf, he⟩ := hold _ _ hv (by rw [hav]; simp)
  obtain ⟨e, hmem, hmm, hstart, hlt⟩ := h u hu av (hf.trans hav) va (by rw [hs]; exact h1)
    (h2.trans_le he)
  exact ⟨e, hmem, hmm, hstart.trans (by rw [hs]), hlt⟩

/-- **The edges around a range operation are replaced.**  A VMA outside the span keeps its own. -/
theorem resplit (h : FamilyEdges mm t r.chain) (hw : t.WellFormed) (hw' : t'.WellFormed)
    (hout : t'.All fun v => (lo < v.end.asU64 ∧ v.start.asU64 < hi) ∨ t.Has v) :
    FamilyEdges mm t' (Rmaps.attachAll mm (overlapping t' lo hi)
      ((r.detachFamilies mm (overlapping t lo hi)).detachObjects mm
        (overlapping t lo hi))).chain := by
  intro v hv av hav va h1 h2
  by_cases hov : lo < v.end.asU64 ∧ v.start.asU64 < hi
  · exact ⟨⟨mm, v.start.asU64, v.end.asU64⟩, Rmaps.mem_attachAll_chain.mpr (.inr ⟨v,
      (mem_overlapping_iff hw').mpr ⟨hv, hov⟩, hav, rfl⟩), rfl, rfl, h2⟩
  have hold : t.Has v := (hout _ _ hv).resolve_left hov
  obtain ⟨e, he, hmm, hstart, hlt⟩ := h v hold av hav va h1 h2
  refine ⟨e, Rmaps.mem_attachAll_chain.mpr (.inl ?_), hmm, hstart, hlt⟩
  rw [Rmaps.detachObjects_chain]
  refine Rmaps.mem_detachFamilies_chain he fun u hu _ heq => hov ?_
  -- a VMA with the start of `v` would be `v`, which is outside the span
  obtain ⟨hu, h3, h4⟩ := (mem_overlapping_iff hw).mp hu
  rw [heq] at hstart
  have hkey : u.start = v.start := eq_iff.mpr hstart
  rw [Has, hkey, hold] at hu
  cases hu
  exact ⟨h3, h4⟩

end FamilyEdges

/-- What a removal leaves outside the span of the range is old. -/
theorem outside_of_removal (h : Reshape (fun _ => none) start stop t t') (hw : t.WellFormed)
    (hspan : AddressSpace.Span t start.asU64 stop lo hi) :
    t'.All fun v => (lo < v.end.asU64 ∧ v.start.asU64 < hi) ∨ t.Has v := by
  have hall : t'.All fun v => (lo ≤ v.start.asU64 ∧ v.end.asU64 ≤ hi) ∨ t.Has v := by
    have hin : ∀ v, (lo ≤ v.start.asU64 ∧ v.end.asU64 ≤ hi) ∨ t.Has v → Meets start stop v →
        lo ≤ v.start.asU64 ∧ v.end.asU64 ≤ hi := fun v hv hm =>
      hv.elim id fun hv => hspan.inside hv hm.start_lt hm.lt_end
    refine h.all_of_removal hw (fun k v hv => .inr (hw.has hv)) (fun v hv hm _ => .inl ?_)
      fun v hv hm b hb _ => .inl ?_
    · have h1 := hm.start_lt
      have h2 := hin v hv hm
      exact ⟨h2.1, show start.asU64 ≤ hi by omega⟩
    · have h1 := hm.lt_end
      have h2 := hin v hv hm
      exact ⟨show lo ≤ b.asU64 by omega, h2.2⟩
  intro k v hv
  have hne := (h.wellFormed (keepsContent_none _ _).fills hw).nonempty hv
  refine (hall k v hv).imp_left fun hin => ?_
  omega

/-- What an `mprotect` step leaves outside the span of the range is old. -/
theorem outside_of_rewritten {prot : VmaProt} {pkey : Option (BitVec 8)}
    (h : Rewritten t prot pkey start stop t') (hw : t.WellFormed)
    (hspan : AddressSpace.Span t start.asU64 stop lo hi) :
    t'.All fun v => (lo < v.end.asU64 ∧ v.start.asU64 < hi) ∨ t.Has v := by
  obtain ⟨hlt, v, t1, hv, hs, he, hmap, hmerge⟩ := h
  have hm : Meets start stop v := ⟨hw.nonempty hv, hlt, by omega, by omega⟩
  obtain ⟨hlo, hhi⟩ := hspan.inside hv hm.start_lt hm.lt_end
  have hfill : Fills start stop v (some (protRewrite prot pkey (midPiece start stop v))) :=
    (keepsContent_prot prot pkey start stop).fills v
  have hw1 : t1.WellFormed := ((splice_spec hw hv hm hfill).of_map_eq hmap).wellFormed
  have hcut : t1.All fun w => (lo < w.end.asU64 ∧ w.start.asU64 < hi) ∨ t.Has w := by
    have hbase : t.All fun w => (lo < w.end.asU64 ∧ w.start.asU64 < hi) ∨ t.Has w :=
      fun k w hw' => .inr (hw.has hw')
    refine (hbase.splice (forall_mem_pieces ?_ ?_ ?_)).of_map_eq hmap
    · intro hlt'
      exact .inl ⟨show lo < start.asU64 by omega, show v.start.asU64 < hi by omega⟩
    · intro m hmem
      have h1 := hfill.start_asU64 hmem
      have h2 := hfill.end_asU64 hmem
      omega
    · intro b hb hb'
      exact .inl ⟨show lo < v.end.asU64 by omega, show b.asU64 < hi by omega⟩
  -- a coalesced VMA reaches across a point of the range
  refine hmerge.all hw1 hcut fun l r _ _ hmg hnl hnr h1 h2 => .inl ?_
  have habut := eq_iff.mp hmg.abut
  exact ⟨show lo < r.end.asU64 by omega, show l.start.asU64 < hi by omega⟩

end Oxide
