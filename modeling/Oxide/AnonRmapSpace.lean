/-
The families of one address space.

The operations of an address space keep its recorded pages at home and the edges of its VMAs when
they cut no VMA in front of a recorded page, let no VMA absorb one that holds a page, and leave the
VMAs with a family alone that have no edge of their own.

* `AnonInv`: the invariant of one address space;
* `AnonInv.munmap`, `AnonInv.mprotect`, `AnonInv.mmap`: the operations keep it;
* `MprotectSafe`, `AnonMmapSafe`: the conditions under which they do;
* `AnonInv.touch`, `AnonInv.prepareAnonVma`: a page that is faulted in is at home;
* `AnonInv.child`: **a child starts with the invariant**.
-/
import Oxide.AnonRmapPages
import Oxide.VmAccounting

namespace Oxide

open Prog VmaTree AddressSpace Function OrdMap MergeView UserVirtAddr MmSystem.ForkKind Vma Rmaps
open Option

variable {av : Option Arc} {addr e va : UserVirtAddr} {l r u v vma : Vma} {D : Vma → Prop}
  {t t' : VmaTree} {leaf' : ℕ → Option Leaf}

/-- A VMA of whole pages; anonymous memory has a family. -/
structure Vma.Plain (v : Vma) : Prop extends v.Whole where
  family : v.backing = .anonymous → v.anonVma ≠ none

/-- The invariant of the address space `mm` while it runs.  `leaf` are the leaves of its page
table and `r0` the reverse maps it started with. -/
structure AnonInv (mm : Arc) (leaf : ℕ → Option Leaf) (r0 : Rmaps) (s : AddressSpace) : Prop where
  self : s.selfWeak = mm
  noUffd : s.hasUffd = false
  wellFormed : s.tree.WellFormed
  plain : s.tree.All Vma.Plain
  /-- The families have been created. -/
  known : s.tree.All fun v => ∀ av, v.anonVma = some av → av.ptr < s.rmaps.nextAnon
  edges : FamilyEdges mm s.tree s.rmaps.chain
  homed : Homed s.tree leaf
  created : r0.nextAnon ≤ s.rmaps.nextAnon
  /-- The edges of the other address spaces stay. -/
  frame : ∀ av, av.ptr < r0.nextAnon → ∀ e ∈ r0.chain av, e.mm ≠ mm → e ∈ s.rmaps.chain av

theorem VmaBacking.rebase_zero (b : VmaBacking) : b.rebase 0 = b := by
  cases b <;> simp [VmaBacking.rebase]

theorem Vma.Mergeable.anonymous_iff (h : Vma.Mergeable l r) :
    l.backing = .anonymous ↔ r.backing = .anonymous := by
  rcases VmaBacking.continuesTo_iff.mp h.backing with ⟨hb, hb'⟩ | ⟨f, off, off', hb, hb', -⟩
  · simp [hb, hb']
  · simp [hb, hb']

namespace VmaTree

theorem has_of_store (h : (t.store v).Has u) : u = v ∨ t.Has u := by
  rcases of_get?_insert h with ⟨-, hu⟩ | ⟨-, hu⟩
  · exact .inl hu
  · exact .inr hu

theorem has_store (hne : v.start.asU64 < v.end.asU64) (hfits : t.Fits v) (hw : t.WellFormed)
    (hu : t.Has u) : (t.store v).Has u := by
  rw [Has, store, get?_insert, if_neg]
  · exact hu
  intro hk
  have h1 := eq_iff.mp hk
  have h2 := hfits _ _ hu
  have h3 := hw.nonempty hu
  omega

section Reshape

variable {t t' : VmaTree} {start : UserVirtAddr} {stop : ℕ} {mid : Vma → Option Vma}

/-- What a range operation writes inside the range keeps the family of the VMA. -/
def KeepsFamily (mid : Vma → Option Vma) : Prop :=
  ∀ v, ∀ m ∈ mid v, m.anonVma = v.anonVma ∧ (m.backing = .anonymous → v.backing = .anonymous)

theorem rebase_anonymous {b : VmaBacking} {d : BitVec 64} (h : b.rebase d = .anonymous) :
    b = .anonymous := by
  cases b <;> simp_all [VmaBacking.rebase]

theorem keepsFamily_prot (prot : VmaProt) (pkey : Option (BitVec 8)) (start : UserVirtAddr)
    (stop : ℕ) : KeepsFamily fun v => some (protRewrite prot pkey (midPiece start stop v)) := by
  intro v m hm
  cases hm
  exact ⟨rfl, rebase_anonymous⟩

section

variable (hk : KeepsContent mid start stop) (hf : KeepsFamily mid) (h : Reshape mid start stop t t')
  (hw : t.WellFormed)

include hk hf h hw

theorem Reshape.known {n : ℕ} (hn : t.All fun v => ∀ av, v.anonVma = some av → av.ptr < n) :
    t'.All fun v => ∀ av, v.anonVma = some av → av.ptr < n := by
  refine h.all hk.fills hw hn (fun v hv _ => forall_mem_pieces (fun _ => hv) ?_ fun _ _ _ => hv)
    fun l r hl _ _ _ _ _ _ _ => hl
  intro m hm
  rwa [(hf v m hm).1]

theorem Reshape.plain (hp : t.All Vma.Plain) (hs : start.asU64 % PAGE_SIZE_BYTES = 0)
    (he : stop % PAGE_SIZE_BYTES = 0) : t'.All Vma.Plain := by
  have hwhole := h.whole hk hw (fun k v hv => (hp k v hv).toWhole) hs he
  have hfam : t'.All fun v => v.backing = .anonymous → v.anonVma ≠ none := by
    refine h.all hk.fills hw (fun k v hv => (hp k v hv).family)
      (fun v hv _ => forall_mem_pieces (fun _ hb => hv (rebase_anonymous hb)) ?_
        fun _ _ _ hb => hv (rebase_anonymous hb)) fun l r hl _ _ _ _ _ _ _ => hl
    intro m hm hb
    rw [(hf v m hm).1]
    exact hv ((hf v m hm).2 hb)
  exact fun k v hv => ⟨hwhole k v hv, hfam k v hv⟩

end

end Reshape

end VmaTree

/-- The condition on an `mprotect` of `[start, end)`: no recorded page lies behind an end of the
range in a VMA that is cut there, and none in a VMA that its left neighbour may absorb. -/
structure MprotectSafe (t : VmaTree) (leaf : ℕ → Option Leaf) (start «end» : ℕ) : Prop where
  start_clean : Clean t.Has leaf start
  end_clean : Clean t.Has leaf «end»
  joins : ∀ l r, t.Has l → t.Has r → start ≤ r.start.asU64 → r.start.asU64 ≤ «end» →
    mergeableWithNext { l with prot := r.prot, pkey := r.pkey } r = true →
    ∀ page, ¬ Holds leaf r page

/-- The condition on a mapping that is placed at `start`. -/
structure AnonMmapSafe (s : AddressSpace) (start : UserVirtAddr)
    (replaced : Option UserVirtAddr) (len : ℕ) (prot mayProt : VmaProt) (flags : VmaFlags)
    (backing : VmaBacking) : Prop where
  /-- The mapping starts at the start of a page. -/
  aligned : start.asU64 % PAGE_SIZE_BYTES = 0
  /-- The file range does not wrap. -/
  fits : ∀ f off, backing = .file f off → off.toNat + len ≤ 2 ^ 64
  /-- No VMA with a family is cut at the end of a replaced range. -/
  replaces : replaced ≠ none → s.tree.All fun v => v.anonVma ≠ none →
    v.start.asU64 < start.asU64 + len → v.end.asU64 ≤ start.asU64 + len
  /-- No VMA with a family absorbs the mapping. -/
  left : ∀ v, s.tree.Has v → v.start.asU64 < start.asU64 → start.asU64 ≤ v.end.asU64 →
    ∀ e : UserVirtAddr, e.asU64 = start.asU64 + len → mergeableWithNext { v with «end» := start }
        (s.mappedVma start e prot mayProt flags backing none) = true → v.anonVma = none
  /-- The mapping absorbs no VMA with a family. -/
  right : ∀ v, s.tree.Has v → ∀ e : UserVirtAddr, e.asU64 = start.asU64 + len →
    (s.mappedVma start e prot mayProt flags backing none).mergeableWithNext v = true →
      v.anonVma = none

namespace AnonInv

variable {mm : Arc} {leaf : ℕ → Option Leaf} {r0 : Rmaps} {s : AddressSpace}

section

variable (h : AnonInv mm leaf r0 s)
include h

theorem fileFits : s.tree.All Vma.FileFits :=
  fun k v hv => (h.plain k v hv).fits

theorem accounting (a : VmAccounting) : AnonInv mm leaf r0 { s with accounting := a } :=
  ⟨h.self, h.noUffd, h.wellFormed, h.plain, h.known, h.edges, h.homed, h.created, h.frame⟩

theorem leaves (hl : RecordedIn leaf' leaf) : AnonInv mm leaf' r0 s :=
  { h with homed := h.homed.mono hl }

/-- The invariant against the reverse maps that the address space has now. -/
theorem rebase : AnonInv mm leaf s.rmaps { s with rmaps := s.rmaps } :=
  { h with created := le_rfl, frame := fun _ _ _ he _ => he }

theorem family_of_holds (hv : s.tree.Has v) {page : ℕ} (hold : Holds leaf v page) :
    v.anonVma ≠ none := by
  obtain ⟨h1, h2, av, idx, hpage⟩ := hold
  obtain ⟨u, hu, h3, h4, hav, -⟩ := h.homed page av idx hpage
  rcases h.wellFormed.apart u v hu hv with rfl | hap | hap
  · rw [hav]
    simp
  · omega
  · omega

end

/-! ### Removal -/

section Removal

variable {start : UserVirtAddr} {stop : ℕ} {t' : VmaTree}

/-- **The pages that are left after a removal are at home.** -/
theorem homed_of_removal (h : AnonInv mm leaf r0 s)
    (hresh : Reshape (fun _ => none) start stop s.tree t') (hclean : Clean s.tree.Has leaf stop)
    (hgone : ∀ page, start.asU64 ≤ page → page < stop → leaf page = none) : Homed t' leaf := by
  refine h.homed.transfer h.wellFormed.apart (sameHome_of_removal hresh h.wellFormed hclean) ?_
  intro page v hv hold
  obtain ⟨h1, h2, av, idx, hpage⟩ := hold
  have hlt : page < USER_VA_END := h2.trans v.end.isUser
  -- a recorded page is outside the range, so it is still mapped
  have hview : view content t' ⟨page, hlt⟩ = view content s.tree ⟨page, hlt⟩ := by
    rcases hresh.content_eq (keepsContent_none _ _) h.wellFormed h.fileFits ⟨page, hlt⟩ with
      heq | ⟨h3, h4, -⟩
    · exact heq
    · cases (hgone page h3 h4).symm.trans hpage
  rw [view_of_get? content h.wellFormed hv (contains_iff.mpr ⟨h1, h2⟩)] at hview
  exact (hresh.wellFormed (keepsContent_none _ _).fills h.wellFormed).exists_of_view hview

end Removal

/-- **A range operation with its edges replaced.** -/
theorem resplit (h : AnonInv mm leaf r0 s) {lo hi : ℕ} (hw' : t'.WellFormed)
    (hp' : t'.All Vma.Plain)
    (hk' : t'.All fun v => ∀ av, v.anonVma = some av → av.ptr < s.rmaps.nextAnon)
    (hout : t'.All fun v => (lo < v.end.asU64 ∧ v.start.asU64 < hi) ∨ s.tree.Has v)
    (hhomed : Homed t' leaf') :
    AnonInv mm leaf' r0 (attachSpan lo hi { detachSpan lo hi s with tree := t' }) := by
  set vs := overlapping s.tree lo hi with hvs
  set vs' := overlapping t' lo hi with hvs'
  have hrm : (attachSpan lo hi { detachSpan lo hi s with tree := t' }).rmaps =
      ((s.rmaps.detachFamilies mm vs).detachObjects mm vs).attachAll mm vs' := by
    rw [← h.self]
    rfl
  have hnext : (attachSpan lo hi { detachSpan lo hi s with tree := t' }).rmaps.nextAnon =
      s.rmaps.nextAnon := by
    exact congrArg Prod.snd (resplit_owners ..)
  refine ⟨h.self, h.noUffd, hw', hp', ?_, ?_, hhomed, ?_, ?_⟩
  · rwa [hnext]
  · rw [hrm]
    exact h.edges.resplit h.wellFormed hw' hout
  · rw [hnext]
    exact h.created
  intro av hav e he hne
  rw [hrm]
  refine mem_attachAll_chain.mpr (.inl ?_)
  rw [detachObjects_chain]
  refine mem_detachFamilies_chain (h.frame av hav e he hne) fun v _ _ heq => hne ?_
  rw [heq]

/-- The leaves without those of a range. -/
def clearRange (leaf : ℕ → Option Leaf) (start «end» : ℕ) (va : ℕ) : Option Leaf :=
  if start ≤ va ∧ va < «end» then none else leaf va

theorem recordedIn_clearRange (leaf : ℕ → Option Leaf) (start stop : ℕ) :
    RecordedIn (clearRange leaf start stop) leaf := by
  intro page x hpage
  rw [clearRange] at hpage
  split_ifs at hpage
  exact hpage

theorem tree (h : AnonInv mm leaf r0 s) (hw' : t'.WellFormed) (hp' : t'.All Vma.Plain)
    (hk' : t'.All fun v => ∀ av, v.anonVma = some av → av.ptr < s.rmaps.nextAnon)
    (hedges : FamilyEdges mm t' s.rmaps.chain) (hhomed : Homed t' leaf') :
    AnonInv mm leaf' r0 { s with tree := t' } :=
  ⟨h.self, h.noUffd, hw', hp', hk', hedges, hhomed, h.created, h.frame⟩

theorem keepsFamily_none : KeepsFamily fun _ => none := by
  intro v m hm
  cases hm

/-- `munmap` clears the leaves of the range when it succeeds. -/
theorem munmap {env : Env} {len : ℕ} (h : AnonInv mm leaf r0 s)
    (hclean : Clean s.tree.Has leaf (addr.asU64 + len)) :
    (AddressSpace.munmap env addr len).Ends s fun r s' =>
      (r = .ok () → AnonInv mm (clearRange leaf addr.asU64 (addr.asU64 + len)) r0 s') ∧
        (∀ e, r = .error e → AnonInv mm leaf r0 s') := by
  set leaf' := clearRange leaf addr.asU64 (addr.asU64 + len) with hleaf'
  have hl := recordedIn_clearRange leaf addr.asU64 (addr.asU64 + len)
  have h' : AnonInv mm leaf' r0 s := h.leaves hl
  have hgone : ∀ page, addr.asU64 ≤ page → page < addr.asU64 + len → leaf' page = none := by
    intro page h1 h2
    rw [hleaf', clearRange, if_pos ⟨h1, h2⟩]
  have hk := keepsContent_none addr (addr.asU64 + len)
  refine munmap_rule h.wellFormed (fun e => ⟨by simp, fun _ _ => h⟩) ?_ ?_
  · intro t' a hpos hal hlen hnil hresh
    have hold : t'.All s.tree.Has := by
      -- no VMA meets the range, so all of them are old
      have hno : ∀ v, s.tree.Has v → ¬ Meets addr (addr.asU64 + len) v := by
        intro v hv hm
        have hmem := (mem_overlapping_iff h.wellFormed).mpr ⟨hv, hm.start_lt, hm.lt_end⟩
        rw [hnil] at hmem
        cases hmem
      exact hresh.all_of_removal h.wellFormed (fun k v hv => h.wellFormed.has hv)
        (fun v hv hm => absurd hm (hno v hv)) fun v hv hm => absurd hm (hno v hv)
    have hinv := h'.tree (hresh.wellFormed hk.fills h.wellFormed)
      (hresh.plain hk keepsFamily_none h.wellFormed h.plain hal (end_aligned hal hlen))
      (hresh.known hk keepsFamily_none h.wellFormed h.known)
      (h.edges.of_old fun k v hv _ => ⟨v, hold k v hv, rfl, rfl, le_rfl⟩)
      (h'.homed_of_removal hresh (hclean.leaves hl) hgone)
    exact ⟨fun _ => hinv.accounting a, by simp⟩
  intro lo hi t' a hpos hal hlen hspan hresh
  have hinv := h.resplit (hresh.wellFormed hk.fills h.wellFormed)
    (hresh.plain hk keepsFamily_none h.wellFormed h.plain hal (end_aligned hal hlen))
    (hresh.known hk keepsFamily_none h.wellFormed h.known)
    (outside_of_removal hresh h.wellFormed hspan)
    (h'.homed_of_removal hresh (hclean.leaves hl) hgone)
  exact ⟨fun _ => hinv.accounting a, by simp⟩

/-! ### Protection -/

/-- The recorded pages of `v` come from `D`, and so does what its addresses show. -/
def Kept {α : Type} (f : MergeView α) (D : Vma → Prop) (leaf : ℕ → Option Leaf) (v : Vma) : Prop :=
  SameHome D leaf v ∧ Shows f D v

theorem kept_self {α : Type} (f : MergeView α) (hv : D v) : Kept f D leaf v :=
  ⟨sameHome_self hv, shows_self f hv⟩

theorem Kept.cloneSubrange (h : Kept content D leaf v) (hfit : v.FileFits)
    {a b : UserVirtAddr} (ha : v.start.asU64 ≤ a.asU64) (hb : b.asU64 ≤ v.end.asU64)
    (hclean : v.start.asU64 < a.asU64 → Clean D leaf a.asU64) :
    Kept content D leaf (v.cloneSubrange a b) := by
  refine ⟨h.1.cloneSubrange ha hb hclean, fun va hc => ?_⟩
  obtain ⟨hc1, hc2⟩ := contains_iff.mp hc
  have hc1' : a.asU64 ≤ va.asU64 := hc1
  have hc2' : va.asU64 < b.asU64 := hc2
  obtain ⟨u, hu, hcu, hobs⟩ := h.2 va (contains_iff.mpr ⟨by omega, by omega⟩)
  refine ⟨u, hu, hcu, hobs.trans ?_⟩
  exact (content_cloneSubrange hfit ha hc1' (by omega)).symm

/-- One step of `mprotect` between clean points, where no right neighbour holds a page. -/
theorem kept_of_rewritten (hD : Apart D) {prot : VmaProt} {pkey : Option (BitVec 8)}
    {start : UserVirtAddr} {stop : ℕ} (h : Rewritten t prot pkey start stop t')
    (hw : t.WellFormed) (hfit : t.All Vma.FileFits) (hkept : t.All (Kept content D leaf))
    (hs : Clean D leaf start.asU64) (he : Clean D leaf stop)
    (hjoin : ∀ l r, D l → D r → start.asU64 ≤ r.start.asU64 → r.start.asU64 ≤ stop →
      Vma.Mergeable { l with prot := r.prot, pkey := r.pkey } r → ∀ page, ¬ Holds leaf r page) :
    t'.All (Kept content D leaf) := by
  have hk := keepsContent_prot prot pkey start stop
  have hboth : t.All fun v => v.FileFits ∧ Kept content D leaf v :=
    fun k v hv => ⟨hfit k v hv, hkept k v hv⟩
  have hall : t'.All fun v => v.FileFits ∧ Kept content D leaf v := by
    refine (h.reshape hw).all hk.fills hw hboth (fun v hv hm => forall_mem_pieces ?_ ?_ ?_) ?_
    · intro hlt
      exact ⟨hv.1.cloneSubrange le_rfl hlt hm.start_lt.le,
        hv.2.cloneSubrange hv.1 le_rfl hm.start_lt.le fun h => absurd h (lt_irrefl _)⟩
    · intro m hmem
      refine ⟨hk.fileFits v hv.1 hm m hmem, ?_⟩
      cases hmem
      obtain ⟨h1, h2, h3⟩ := hm.clip
      have hclean : v.start.asU64 < (clipStart start v).asU64 →
          Clean D leaf (clipStart start v).asU64 := by
        intro hlt
        have hc := clipStart_asU64 start v
        rwa [show (clipStart start v).asU64 = start.asU64 by omega]
      -- the protection is not looked at
      exact (hv.2.cloneSubrange hv.1 h1 h3 hclean :)
    · intro b hb hlt
      have := hm.lt_end
      exact ⟨hv.1.cloneSubrange (by omega) hlt le_rfl,
        hv.2.cloneSubrange hv.1 (by omega) le_rfl fun _ => by rw [hb]; exact he⟩
    intro l r hl hr hm hnl hnr hlo hhi _
    refine ⟨hr.1.absorb hm hnl.le hnr.le, ?_, hl.2.2.absorb hr.2.2 hm hnl.le⟩
    refine hl.2.1.absorb hD hr.2.1 hl.2.2 hr.2.2 hm hnl hnr fun l0 r0 hl0 hr0 hj => ?_
    have hst := eq_iff.mp hj.start_eq
    exact hjoin l0 r0 hl0 hr0 (by omega) (by omega) (mergeable_of_content hm hnl hj)
  exact fun k v hv => (hall k v hv).2

theorem mprotect {env : Env} {len : ℕ} {p : MprotectPolicy} (h : AnonInv mm leaf r0 s)
    (hsafe : MprotectSafe s.tree leaf addr.asU64 (addr.asU64 + len)) :
    (mprotectUserWithSecurity env addr len p).Ends s fun _ s' => AnonInv mm leaf r0 s' := by
  -- the pages come from the VMAs of the tree before the call
  refine Ends.mono (mprotectUserWithSecurity_rule h.wellFormed h.fileFits
    (I := fun s' _ => AnonInv mm (fun _ => none) r0 s' ∧
      s'.tree.All (Kept content s.tree.Has leaf) ∧
      ∀ va, view content s'.tree va = view content s.tree va) ?_ ?_) ?_
  · intro n _
    exact ⟨h.leaves fun page x hpage => absurd hpage (by simp),
      fun k v hv => kept_self _ (h.wellFormed.has hv), fun _ => rfl⟩
  · rintro s1 step n s' haddr hlen hin hw1 hfit1 - ⟨hinv, hkept, hview⟩ happ
    obtain ⟨lo, hi, t', hspan, hrew, rfl⟩ := happ.exists_tree
    have hk := keepsContent_prot step.prot (some step.pkey) step.start
      (step.start.asU64 + step.len)
    have hf := keepsFamily_prot step.prot (some step.pkey) step.start
      (step.start.asU64 + step.len)
    have hresh := hrew.reshape hw1
    have h1 := hin.le_start
    have h2 := hin.end_le
    obtain ⟨hfirst, hlast⟩ := hin.ends
      (P := fun a => a % PAGE_SIZE_BYTES = 0 ∧ Clean s.tree.Has leaf a)
      ⟨haddr, hsafe.start_clean⟩ ⟨end_aligned haddr hlen, hsafe.end_clean⟩
      fun v hv => ⟨(h.plain _ _ hv).end, h.wellFormed.clean_end hv⟩
    refine ⟨hinv.resplit (hresh.wellFormed hk.fills hw1)
      (hresh.plain hk hf hw1 hinv.plain hfirst.1 hlast.1) (hresh.known hk hf hw1 hinv.known)
      (outside_of_rewritten hrew hw1 hspan) (fun _ _ _ hpage => absurd hpage (by simp)),
      kept_of_rewritten h.wellFormed.apart hrew hw1 hfit1 hkept hfirst.2 hlast.2 ?_,
      fun va => (hresh.view_prot hw1 hfit1 va).trans (hview va)⟩
    intro l r hl hr h3 h4 hm
    exact hsafe.joins l r hl hr (by omega) (by omega) (mergeableWithNext_iff.mpr hm)
  rintro _ s' ⟨_, hinv, hkept, hview⟩
  refine { hinv with homed := ?_ }
  refine h.homed.transfer h.wellFormed.apart (fun k v hv => (hkept k v hv).1) ?_
  rintro page v hv ⟨h1, h2, -⟩
  have hlt : page < USER_VA_END := h2.trans v.end.isUser
  have hv' := hview ⟨page, hlt⟩
  rw [view_of_get? content h.wellFormed hv (contains_iff.mpr ⟨h1, h2⟩)] at hv'
  exact hinv.wellFormed.exists_of_view hv'

/-! ### Mapping -/

/-- **An insertion where no right neighbour of a coalescing holds a page.** -/
theorem kept_of_inserted (hD : Apart D)
    (h : Inserted t vma t') (hkept : t.All (Kept full D leaf)) (hvma : D vma)
    (hjoin : ∀ l r, D l → D r → vma.start.asU64 ≤ r.start.asU64 → r.start.asU64 ≤ vma.end.asU64 →
      Vma.Mergeable l r → ∀ page, ¬ Holds leaf r page) :
    t'.All (Kept full D leaf) := by
  refine h.all hkept (kept_self _ hvma) fun l r hl hr hm hnl hnr hlo hhi => ?_
  refine ⟨hl.1.absorb hD hr.1 hl.2 hr.2 hm hnl hnr fun l0 r0 hl0 hr0 hj => ?_,
    hl.2.absorb hr.2 hm hnl.le⟩
  have hst := eq_iff.mp hj.start_eq
  exact hjoin l0 r0 hl0 hr0 (by omega) (by omega) (mergeable_of_full hm hnl hj)

/-- A VMA with a family is one of `D` after insertions that coalesce no VMA with a family. -/
theorem untouched_of_inserted (hD : Apart D)
    (h : Inserted t vma t') (hold : t.All D) (hvma : D vma)
    (hjoin : ∀ l r, D l → D r → vma.start.asU64 ≤ r.start.asU64 → r.start.asU64 ≤ vma.end.asU64 →
      Vma.Mergeable l r → l.anonVma = none) :
    t'.All fun v => v.anonVma ≠ none → D v := by
  have hall : t'.All fun v => Shows full D v ∧ (v.anonVma ≠ none → D v) := by
    refine h.all (fun k v hv => ⟨shows_self _ (hold k v hv), fun _ => hold k v hv⟩)
      ⟨shows_self _ hvma, fun _ => hvma⟩ fun l r hl hr hm hnl hnr hlo hhi => ?_
    refine ⟨hl.1.absorb hr.1 hm hnl.le, fun hne => absurd ?_ hne⟩
    by_contra hfam
    have hl0 : D l := hl.2 hfam
    have habut := eq_iff.mp hm.abut
    -- what `r` starts with is the start of one of `D`, since `l` ends there
    obtain ⟨r0, hr0, hc, hobs⟩ := hr.1 r.start (contains_iff.mpr ⟨le_rfl, hnr⟩)
    obtain ⟨hc1, hc2⟩ := contains_iff.mp hc
    have hstart : r0.start = r.start := by
      refine eq_iff.mpr ?_
      rcases hD l r0 hl0 hr0 with rfl | hap | hap
      · omega
      · omega
      · omega
    have hj : Joint full l r0 l r :=
      ⟨hm.abut.trans hstart.symm, hstart, hnl, fun _ _ => rfl, hobs⟩
    have hst := eq_iff.mp hstart
    exact hfam (hjoin l r0 hl0 hr0 (by omega) (by omega) (mergeable_of_full hm hnl hj))
  exact fun k v hv => (hall k v hv).2

section Mmap

variable {start : UserVirtAddr} {replaced : Option UserVirtAddr} {len : ℕ} {prot mayProt : VmaProt}
  {flags : VmaFlags} {backing : VmaBacking} {t : VmaTree}

/-- A VMA with a family that a cleared tree holds: an old one, or what is left of one below the
range. -/
def Survivor (t : VmaTree) (start : UserVirtAddr) (v : Vma) : Prop :=
  ∃ u, t.Has u ∧ (v = u ∨ u.start.asU64 < start.asU64 ∧ start.asU64 < u.end.asU64 ∧
    v = u.cloneSubrange u.start start)

section Cleared

variable (h : AnonInv mm leaf r0 s)
  (hsafe : AnonMmapSafe s start replaced len prot mayProt flags backing)
  (hclear : s.Cleared start len replaced t)

include h hsafe hclear

theorem survivor_of_cleared : t.All fun v => v.anonVma ≠ none → Survivor s.tree start v := by
  have hbase : s.tree.All fun v => v.anonVma ≠ none → Survivor s.tree start v :=
    fun k v hv _ => ⟨v, h.wellFormed.has hv, .inl rfl⟩
  rcases hclear.cases with rfl | ⟨hne, hclear⟩
  · exact hbase
  refine hclear.all_of_removal h.wellFormed hbase (fun v hv hm hlt hfam => ?_)
    fun v hv hm b hb hlt hfam => ?_
  · -- only an old VMA reaches into the range
    have h1 := hm.start_lt
    obtain ⟨u, hu, rfl | ⟨-, -, rfl⟩⟩ := hv hfam
    · exact ⟨v, hu, .inr ⟨hlt, by omega, rfl⟩⟩
    · exact absurd h1 (lt_irrefl _)
  -- nothing with a family reaches beyond it
  exfalso
  obtain ⟨u, hu, rfl | ⟨-, -, rfl⟩⟩ := hv hfam
  · have := hsafe.replaces hne _ _ hu hfam hm.lt_end
    omega
  · exact absurd hm.start_lt (lt_irrefl _)

theorem cleared (hlen : len % PAGE_SIZE_BYTES = 0)
    (hgone : replaced ≠ none → ∀ page, start.asU64 ≤ page → page < start.asU64 + len →
      leaf page = none) : AnonInv mm leaf r0 { s with tree := t } := by
  have hsurv := h.survivor_of_cleared hsafe hclear
  rcases hclear.cases with rfl | ⟨hne, hclear⟩
  · exact h
  have hk := keepsContent_none start (start.asU64 + len)
  refine h.tree (hclear.wellFormed hk.fills h.wellFormed)
    (hclear.plain hk keepsFamily_none h.wellFormed h.plain hsafe.aligned
      (end_aligned hsafe.aligned hlen))
    (hclear.known hk keepsFamily_none h.wellFormed h.known) (h.edges.of_old ?_)
    (h.homed_of_removal hclear ?_ (hgone hne))
  · intro k v hv hfam
    obtain ⟨u, hu, rfl | ⟨h1, h2, rfl⟩⟩ := hsurv k v hv hfam
    · exact ⟨v, hu, rfl, rfl, le_rfl⟩
    · exact ⟨u, hu, rfl, rfl, h2.le⟩
  · intro u hu hlt page hold
    have hle := hsafe.replaces hne _ u hu (h.family_of_holds hu hold) hlt
    exact hold.2.1.trans_le hle

end Cleared

section Safe

variable (hsurv : t.All fun v => v.anonVma ≠ none → Survivor s.tree start v)
  (hsafe : AnonMmapSafe s start replaced len prot mayProt flags backing)
  (he : e.asU64 = start.asU64 + len)

include hsurv hsafe he

/-- A VMA with a family in the cleared tree does not coalesce with the mapping on its right. -/
theorem left_of_safe (hw : t.WellFormed) (hl : t.Has l)
    (hm : Vma.Mergeable l (s.mappedVma start e prot mayProt flags backing av)) :
    l.anonVma = none := by
  by_contra hfam
  have hend : l.end = start := hm.abut
  have hne := hw.nonempty hl
  obtain ⟨u, hu, rfl | ⟨h1, h2, rfl⟩⟩ := hsurv _ _ hl hfam
  · refine hfam (hsafe.left l hu (by rwa [← hend]) (by rw [hend]) e he ?_)
    rw [← hend] at hm ⊢
    exact (mergeableWithNext_iff.mpr hm :)
  -- the part that is left starts where the VMA did
  refine hfam (hsafe.left u hu h1 h2.le e he (mergeableWithNext_iff.mpr ⟨rfl, hm.prot,
    hm.mayProt, hm.pkey, hm.flags, hm.anonName, hm.uffd, hm.mempolicy, ?_⟩))
  have hb : (u.cloneSubrange u.start start).backing = u.backing := by
    show u.backing.rebase (u.start.bits - u.start.bits) = u.backing
    rw [BitVec.sub_self]
    exact VmaBacking.rebase_zero _
  have := hm.backing
  rwa [hb] at this

/-- The mapping does not coalesce with a VMA with a family on its right. -/
theorem right_of_safe (hr : t.Has r)
    (hm : Vma.Mergeable (s.mappedVma start e prot mayProt flags backing av) r) :
    r.anonVma = none := by
  by_contra hfam
  have habut : e = r.start := hm.abut
  obtain ⟨u, hu, rfl | ⟨h1, h2, rfl⟩⟩ := hsurv _ _ hr hfam
  · exact hfam (hsafe.right r hu e he (mergeableWithNext_iff.mpr hm :))
  · have : e.asU64 = u.start.asU64 := eq_iff.mp habut
    omega

/-- What coalesces with the new VMA has no family, and then it has none itself. -/
theorem joins_of_safe (h : AnonInv mm leaf r0 { s with tree := t })
    (hfits : t.Fits (s.mappedVma start e prot mayProt flags backing av))
    (hpos : 0 < len) (hfam : av ≠ none → backing = .anonymous)
    (hl : (t.store (s.mappedVma start e prot mayProt flags backing av)).Has l)
    (hr : (t.store (s.mappedVma start e prot mayProt flags backing av)).Has r)
    (hlo : start.asU64 ≤ r.start.asU64) (hhi : r.start.asU64 ≤ e.asU64)
    (hm : Vma.Mergeable l r) : l.anonVma = none ∧ r.anonVma = none := by
  have habut := eq_iff.mp hm.abut
  -- a neighbour without a family is not anonymous, so neither is the mapping
  have hnone : ∀ v : Vma, t.Has v → v.anonVma = none →
      (v.backing = .anonymous ↔ backing = .anonymous) → av = none := by
    intro v hv hn hiff
    by_contra hav
    exact (h.plain _ _ hv).family (hiff.mpr (hfam hav)) hn
  rcases has_of_store hl with rfl | hl
  · rcases has_of_store hr with rfl | hr
    · have : e.asU64 = start.asU64 := habut
      omega
    · have hr' := right_of_safe hsurv hsafe he hr hm
      exact ⟨hnone r hr hr' hm.anonymous_iff.symm, hr'⟩
  rcases has_of_store hr with rfl | hr
  · have hl' := left_of_safe hsurv hsafe he h.wellFormed hl hm
    exact ⟨hl', hnone l hl hl' hm.anonymous_iff⟩
  -- two VMAs of the tree do not meet inside the mapping
  exfalso
  have h1 : l.end.asU64 ≤ start.asU64 ∨ e.asU64 ≤ l.start.asU64 := hfits _ _ hl
  have h2 : r.end.asU64 ≤ start.asU64 ∨ e.asU64 ≤ r.start.asU64 := hfits _ _ hr
  have h3 := h.wellFormed.nonempty hl
  have h4 := h.wellFormed.nonempty hr
  omega

end Safe

/-- The edges and the counter after a new mapping got its family. -/
theorem newFamily_spec {r r' : Rmaps} (h : NewFamily r backing av r') :
    r.nextAnon ≤ r'.nextAnon ∧ (∀ a, a.ptr < r.nextAnon → r'.chain a = r.chain a) ∧
      (∀ a, av = some a → a.ptr < r'.nextAnon) ∧ (av ≠ none ↔ backing = .anonymous) := by
  rw [NewFamily] at h
  split_ifs at h with hb
  · obtain ⟨rfl, rfl⟩ := h
    refine ⟨Nat.le_succ _, fun a ha => ?_, ?_, by simp [hb]⟩
    · refine update_of_ne ?_ _ _
      rintro rfl
      exact absurd ha (lt_irrefl _)
    · intro a ha
      rw [← some_inj.mp ha]
      exact Nat.lt_succ_self _
  · obtain ⟨rfl, rfl⟩ := h
    exact ⟨le_rfl, fun _ _ => rfl, fun a ha => absurd ha (by simp), by simp [hb]⟩

variable (h : AnonInv mm leaf r0 s)
include h

/-- New edges, and families that were not known before. -/
theorem moreRmaps {r : Rmaps} (hn : s.rmaps.nextAnon ≤ r.nextAnon)
    (hc : ∀ a, a.ptr < s.rmaps.nextAnon → ∀ e ∈ s.rmaps.chain a, e ∈ r.chain a) :
    AnonInv mm leaf r0 { s with rmaps := r } where
  self := h.self
  noUffd := h.noUffd
  wellFormed := h.wellFormed
  plain := h.plain
  known k v hv av hav := (h.known k v hv av hav).trans_le hn
  edges := h.edges.mono fun _ hv av hav e he _ => hc av (h.known _ _ hv av hav) e he
  homed := h.homed
  created := h.created.trans hn
  frame av hav e he hne := hc av (hav.trans_le h.created) e (h.frame av hav e he hne)

/-- **A mapping published where it is safe.** -/
theorem published (hsafe : AnonMmapSafe s start replaced len prot mayProt flags backing)
    (hpos : 0 < len) (hlen : len % PAGE_SIZE_BYTES = 0) (he : e.asU64 = start.asU64 + len)
    (hclear : s.Cleared start len replaced t)
    (hgone : replaced ≠ none → ∀ page, start.asU64 ≤ page → page < start.asU64 + len →
      leaf page = none) {r : Rmaps} (hfam : NewFamily s.rmaps backing av r)
    (hins : Inserted t (s.mappedVma start e prot mayProt flags backing av) t')
    (hfind : t'.findContaining start = some v) :
    AnonInv mm leaf r0 { s with
      tree := t', rmaps := r.attachVma s.selfWeak v start.asU64 e.asU64 } := by
  obtain ⟨hnext, hchain, hfresh, hanon⟩ := newFamily_spec hfam
  have h₁ := h.cleared hsafe hclear hlen hgone
  have h₂ : AnonInv mm leaf r0 { s with tree := t, rmaps := r } :=
    h₁.moreRmaps hnext fun a ha e he => by rwa [hchain a ha]
  have hsurv := h.survivor_of_cleared hsafe hclear
  set vma := s.mappedVma start e prot mayProt flags backing av with hvma
  have hplain : vma.Plain := ⟨mappedVma_whole hsafe.aligned hlen he hsafe.fits, hanon.mpr⟩
  -- the VMAs before the coalescing, with the new one among them
  have hw : t.WellFormed := h₂.wellFormed
  have hD : Apart (t.store vma).Has := hins.put.apart
  have hself : (t.store vma).Has vma := by
    rw [Has, store, get?_insert, if_pos rfl]
  have hold : t.All (t.store vma).Has :=
    fun k u hu => has_store hins.nonempty hins.fits hw (hw.has hu)
  have hjoin : ∀ l r, (t.store vma).Has l → (t.store vma).Has r →
      vma.start.asU64 ≤ r.start.asU64 → r.start.asU64 ≤ vma.end.asU64 → Vma.Mergeable l r →
      l.anonVma = none ∧ r.anonVma = none := fun l r hl hr hlo hhi hm =>
    joins_of_safe hsurv hsafe he h₁ hins.fits hpos hanon.mp hl hr hlo hhi hm
  have hempty : ∀ u, (t.store vma).Has u → u.anonVma = none → ∀ page, ¬ Holds leaf u page := by
    intro u hu hnone page hold
    rcases has_of_store hu with rfl | hu
    · -- a recorded page is in another VMA
      obtain ⟨h1, h2, a, idx, hpage⟩ := hold
      obtain ⟨w, hwt, h3, h4, -⟩ := h₁.homed page a idx hpage
      have := hins.fits _ _ hwt
      omega
    · exact h₁.family_of_holds hu hold hnone
  have hkept : t'.All (Kept full (t.store vma).Has leaf) :=
    kept_of_inserted hD hins (fun k u hu => kept_self _ (hold k u hu)) hself
    fun l r hl hr hlo hhi hm => hempty r hr (hjoin l r hl hr hlo hhi hm).2
  have hun := untouched_of_inserted hD hins hold hself
    fun l r hl hr hlo hhi hm => (hjoin l r hl hr hlo hhi hm).1
  have hmem : ∀ a, ∀ e' ∈ r.chain a,
      e' ∈ (r.attachVma s.selfWeak v start.asU64 e.asU64).chain a := by
    intro a e' he'
    rw [attachVma_chain]
    split
    · exact List.mem_append_left _ he'
    · exact he'
  have hnext : (r.attachVma s.selfWeak v start.asU64 e.asU64).nextAnon = r.nextAnon :=
    congrArg Prod.snd (attachVma_owners ..)
  refine ⟨h.self, h.noUffd, hins.wellFormed, ?_, ?_, ?_, ?_, h₂.created.trans_eq hnext.symm, ?_⟩
  · refine hins.all h₂.plain hplain fun l r hl hr hm hnl hnr _ _ => ?_
    exact ⟨hl.absorb hr.toWhole hm hnl hnr, hl.family⟩
  · rw [hnext]
    exact hins.all h₂.known hfresh fun l r hl _ _ _ _ _ _ => hl
  · intro u hu a hua va h1 h2
    rcases has_of_store (hun _ _ hu (by rw [hua]; simp)) with rfl | hut
    · -- the new VMA is the one that was found
      have hv : v = vma := by
        refine some_inj.mp (hfind.symm.trans ?_)
        exact (findContaining_eq_some_iff hins.wellFormed).mpr
          ⟨hu, contains_iff.mpr ⟨le_rfl, hins.nonempty⟩⟩
      refine ⟨⟨mm, start.asU64, e.asU64⟩, ?_, rfl, rfl, h2⟩
      rw [attachVma_chain, hv, if_pos hua, h.self]
      exact List.mem_append_right _ (List.mem_singleton.mpr rfl)
    · obtain ⟨e', he', hrest⟩ := h₂.edges u hut a hua va h1 h2
      exact ⟨e', hmem a e' he', hrest⟩
  · have hhome : HomedIn (t.store vma).Has leaf := by
      intro page a idx hpage
      obtain ⟨u, hu, hrest⟩ := h₁.homed page a idx hpage
      exact ⟨u, hold _ _ hu, hrest⟩
    refine hhome.transfer hD (fun k u hu => (hkept k u hu).1) ?_
    rintro page u hu ⟨h1, h2, a, idx, hpage⟩
    obtain ⟨w, hwt, h3, h4, -⟩ := h₁.homed page a idx hpage
    obtain ⟨w', hw', h5, h6⟩ := hins.covers hw hwt
    exact ⟨w', hw', by omega, by omega⟩
  · intro a ha e' he' hne
    exact hmem a e' (h₂.frame a ha e' he' hne)

theorem mmap {env : Env} {placement : MmapPlacement} {mdwe : MdweMode} (hsafe : ∀ start replaced,
      s.place (granule env placement backing) placement len = .ok (start, replaced) →
      AnonMmapSafe s start replaced len prot mayProt flags backing)
    (hgone : ∀ start, placement = .fixed start → ∀ page, start.asU64 ≤ page →
      page < start.asU64 + len → leaf page = none) :
    (mmapWithMayAtInnerLocked env placement len prot mayProt flags backing mdwe).Ends s
      fun _ s' => AnonInv mm leaf r0 s' := by
  have hgone' : ∀ start replaced,
      s.place (granule env placement backing) placement len = .ok (start, replaced) →
      replaced ≠ none → ∀ page, start.asU64 ≤ page → page < start.asU64 + len →
      leaf page = none := by
    intro start replaced hplace hne
    obtain ⟨e, rfl⟩ := ne_none_iff_exists'.mp hne
    exact hgone start (of_place_replaced hplace).1
  refine (MmapCall.run_ends (c := ⟨env, placement, len, prot, mayProt, flags, backing, mdwe⟩)
    h.wellFormed).mono fun r s' hend => ?_
  cases hend with
  | refused hfam _ =>
    rcases hfam with rfl | rfl
    · exact h
    · obtain ⟨hnext, hchain, -⟩ :=
        newFamily_spec (show NewFamily s.rmaps .anonymous _ _ from ⟨rfl, rfl⟩)
      exact h.moreRmaps hnext fun b hb e he => by rw [hchain b hb]; exact he
  | published hr hfam hins hfind =>
    exact (h.published (hsafe _ _ hr.placed) hr.pos hr.pages hr.end_eq hr.cleared
      (hgone' _ _ hr.placed) hfam hins hfind).accounting _

end Mmap

/-! ### Faults -/

section

variable (h : AnonInv mm leaf r0 s)
include h

/-- **A page that is faulted in is at home**, when its index fits in 32 bits. -/
theorem touch (hfind : s.tree.findContaining va = some v) {av : Arc} (hav : v.anonVma = some av)
    (hidx : va.asU64 - v.start.asU64 < 2 ^ 32 * PAGE_SIZE_BYTES) (hu : u.start = v.start) :
    AnonInv mm (update leaf (MmSystem.pageOf va)
      (some ⟨some (av, MmSystem.pageIndex u va)⟩)) r0 s := by
  obtain ⟨hv, hc⟩ := (findContaining_eq_some_iff h.wellFormed).mp hfind
  obtain ⟨h1, h2⟩ := contains_iff.mp hc
  have hstart := (h.plain _ _ hv).start
  refine { h with homed := ?_ }
  intro page a idx hpage
  by_cases hp : page = MmSystem.pageOf va
  · subst hp
    rw [update_self] at hpage
    obtain ⟨rfl, rfl⟩ := hpage
    refine ⟨v, hv, ?_, ?_, hav, ?_⟩
    · simp only [MmSystem.pageOf, PAGE_SIZE_BYTES] at *
      omega
    · simp only [MmSystem.pageOf] at *
      omega
    · simp only [MmSystem.pageIndex, MmSystem.pageOf, hu, PAGE_SIZE_BYTES] at *
      omega
  · rw [update_of_ne hp] at hpage
    exact h.homed page a idx hpage

theorem updated {w : Vma} (hu : Updated s.tree v w t') (hb : w.backing = v.backing)
    (hf : v.anonVma ≠ none → w.anonVma = v.anonVma)
    (hknown : ∀ av, w.anonVma = some av → av.ptr < s.rmaps.nextAnon)
    (hedge : ∀ av, w.anonVma = some av → ∀ va, v.start.asU64 ≤ va → va < v.end.asU64 →
      ∃ e ∈ s.rmaps.chain av, e.mm = mm ∧ e.start = v.start.asU64 ∧ va < e.end) :
    AnonInv mm leaf r0 { s with tree := t' } := by
  have hv := h.plain _ _ hu.stored
  have hself : t'.Has w := by
    rw [Has, hu.start_eq]
    exact hu.get?_self
  -- a VMA with another start is an old one
  have hother : ∀ x, x.start ≠ v.start → (t'.Has x ↔ s.tree.Has x) := by
    intro x hne
    rw [Has, hu.get?_of_ne hne]
  refine h.tree (hu.wellFormed h.wellFormed) (hu.all h.plain ⟨hu.whole hv.toWhole hb, ?_⟩)
    (hu.all h.known hknown) ?_ ?_
  · intro hwb
    have hne := hv.family (hb.symm.trans hwb)
    rwa [hf hne]
  · intro x hx av hav va h1 h2
    by_cases hxs : x.start = v.start
    · rw [Has, hxs, hu.get?_self] at hx
      cases hx
      rw [hu.start_eq] at h1 ⊢
      rw [hu.end_eq] at h2
      exact hedge av hav va h1 h2
    · exact h.edges x ((hother x hxs).mp hx) av hav va h1 h2
  intro page av idx hpage
  obtain ⟨x, hx, h1, h2, hav, hidx⟩ := h.homed page av idx hpage
  by_cases hxs : x.start = v.start
  · rw [Has, hxs, hu.stored] at hx
    cases hx
    refine ⟨w, hself, ?_, ?_, ?_, ?_⟩
    · rwa [hu.start_eq]
    · rwa [hu.end_eq]
    · rw [hf (by rw [hav]; simp)]
      exact hav
    · rwa [hu.start_eq]
  · exact ⟨x, (hother x hxs).mpr hx, h1, h2, hav, hidx⟩

theorem markAnonPage {ε : Type} :
    (MmSystem.markAnonPage va : Vm ε Unit).Ends s fun _ s' => AnonInv mm leaf r0 s' :=
  MmSystem.markAnonPage_rule h.wellFormed h fun v _ _ hu =>
    h.updated hu rfl (fun _ => rfl) (h.known _ v hu.stored) (h.edges v hu.stored)

/-- The VMA at the address has the family afterwards, and its start. -/
theorem prepareAnonVma :
    (MmSystem.prepareAnonVma va).Ends s fun r s' => AnonInv mm leaf r0 s' ∧
      ∀ av, r = .ok av → ∃ v w, s.tree.findContaining va = some v ∧
        s'.tree.findContaining va = some w ∧ w.start = v.start ∧ w.anonVma = some av := by
  refine MmSystem.prepareAnonVma_rule h.wellFormed (fun _ => ⟨h, by simp⟩) ?_ ?_
  · intro v av hfind hav
    refine ⟨h, fun av' heq => ⟨v, v, hfind, hfind, rfl, ?_⟩⟩
    rwa [← Except.ok.inj heq]
  intro v t' hfind hnone hu
  set av := s.rmaps.newAnon.1 with hav
  set r := s.rmaps.newAnon.2.attachAnon av s.selfWeak v.start.asU64 v.end.asU64 with hr
  have hnext : r.nextAnon = s.rmaps.nextAnon + 1 := rfl
  have hchain : r.chain av = [⟨mm, v.start.asU64, v.end.asU64⟩] := by
    have hnil : s.rmaps.newAnon.2.chain av = [] := update_self ..
    refine (update_self ..).trans ?_
    rw [hnil, h.self]
    rfl
  have hold : ∀ a, a.ptr < s.rmaps.nextAnon → ∀ e ∈ s.rmaps.chain a, e ∈ r.chain a := by
    intro a ha e he
    have hne : a ≠ av := by
      rintro rfl
      exact absurd ha (lt_irrefl _)
    have : r.chain a = s.rmaps.chain a :=
      (update_of_ne hne _ _).trans (update_of_ne hne _ _)
    rwa [this]
  have h₁ := h.moreRmaps (by omega) hold
  refine ⟨h₁.updated hu rfl (fun hne => absurd hnone hne) ?_ ?_, ?_⟩
  · rintro a ha
    rw [← some_inj.mp ha]
    exact Nat.lt_succ_self _
  · rintro a ha va' h1 h2
    obtain rfl : av = a := some_inj.mp ha
    refine ⟨⟨mm, v.start.asU64, v.end.asU64⟩, ?_, rfl, rfl, h2⟩
    rw [hchain]
    exact List.mem_singleton.mpr rfl
  intro a ha
  refine ⟨v, _, hfind, ?_, hu.start_eq, congrArg some (Except.ok.inj ha)⟩
  obtain ⟨-, hc⟩ := (findContaining_eq_some_iff h.wellFormed).mp hfind
  refine (findContaining_eq_some_iff (hu.wellFormed h.wellFormed)).mpr ⟨hu.get?_self, ?_⟩
  exact hc

end

/-! ### Fork -/

section Fork

variable {kind : MmSystem.ForkKind}

/-- The VMAs a child inherits. -/
def Inherited (t : VmaTree) (kind : MmSystem.ForkKind) (c : Vma) : Prop :=
  ∃ v, t.Has v ∧ kind.inherits v = true ∧ c = MmSystem.childVma v

theorem apart_inherited (hw : t.WellFormed) : Apart (Inherited t kind) := by
  rintro _ _ ⟨u, hu, -, rfl⟩ ⟨v, hv, -, rfl⟩
  rcases hw.apart u v hu hv with rfl | hap
  · exact .inl rfl
  · exact .inr hap

/-- What a child inherits was recorded on the parent's leaf. -/
theorem inheritedLeaves_spec (hw : t.WellFormed) {page : ℕ} {x : Arc × ℕ}
    (hpage : MmSystem.inheritedLeaves kind t leaf page = some ⟨some x⟩) :
    kind = .cow ∧ leaf page = some ⟨some x⟩ ∧ ∃ v, t.Has v ∧ kind.inherits v = true ∧
      v.start.asU64 ≤ page ∧ page < v.end.asU64 := by
  simp only [MmSystem.inheritedLeaves, bind_eq_bind, bind_eq_some_iff] at hpage
  obtain ⟨va, hva, v, hfind, l, hl, hin⟩ := hpage
  obtain ⟨hv, hc⟩ := (findContaining_eq_some_iff hw).mp hfind
  obtain ⟨h1, h2⟩ := contains_iff.mp hc
  have hpage : va.asU64 = page := by
    rw [UserVirtAddr.new] at hva
    split_ifs at hva
    rw [← some_inj.mp hva]
  cases kind with
  | lazy => simp [inheritLeaf] at hin
  | eager =>
    -- copies are not recorded
    simp only [inheritLeaf] at hin
    split at hin
    · simp at hin
    · simp at hin
    · simp at hin
  | cow =>
  by_cases hdont : bitsContain v.flags VmaFlags.DONTFORK = true
  · simp [inheritLeaf, hdont] at hin
  rw [inheritLeaf, if_neg hdont] at hin
  have hsame : l = ⟨some x⟩ := by
    cases hb : v.backing with
    | anonymous =>
      simp only [hb] at hin
      split_ifs at hin
      exact some_inj.mp hin
    | kernelBytes =>
      simp only [hb] at hin
      exact some_inj.mp hin
    | file =>
      simp only [hb] at hin
      exact some_inj.mp hin
    | _ => simp [hb] at hin
  rw [hsame] at hl
  refine ⟨rfl, hl, v, hv, ?_, by omega, by omega⟩
  simp [inherits, hdont]

variable (h : AnonInv mm leaf r0 s)
include h

/-- The pages of a child are at home in what it inherits. -/
theorem homedIn_inherited :
    HomedIn (Inherited s.tree kind) (MmSystem.inheritedLeaves kind s.tree leaf) := by
  intro page av idx hpage
  obtain ⟨-, hleaf, v, hv, hin, h1, h2⟩ := inheritedLeaves_spec h.wellFormed hpage
  obtain ⟨u, hu, h3, h4, hav, hidx⟩ := h.homed page av idx hleaf
  obtain rfl : u = v := by
    rcases h.wellFormed.apart u v hu hv with rfl | hap | hap
    · rfl
    · omega
    · omega
  exact ⟨MmSystem.childVma u, ⟨u, hu, hin, rfl⟩, h3, h4, hav, hidx⟩

variable
  (hjoin : ∀ l r, Inherited s.tree kind l → Inherited s.tree kind r → Vma.Mergeable l r →
    ∀ page, ¬ Holds (MmSystem.inheritedLeaves kind s.tree leaf) r page)
  (hrun : MmSystem.forkTree (s.tree.iter.filter kind.inherits) .new = .ok (.ok (), t))

include hjoin hrun

/-- What is kept while the tree of a child is built. -/
theorem forkTree :
    t.WellFormed ∧ t.All Vma.Plain ∧
      (t.All fun v => ∀ av, v.anonVma = some av → av.ptr < s.rmaps.nextAnon) ∧
      Homed t (MmSystem.inheritedLeaves kind s.tree leaf) := by
  set leaf' := MmSystem.inheritedLeaves kind s.tree leaf with hleaf'
  have hnew : ∀ P : Vma → Prop, VmaTree.new.All P :=
    fun P k v hv => absurd hv (by simp [VmaTree.new])
  have hrule := MmSystem.forkTree_rule (J := fun t done =>
    (∀ v ∈ done, s.tree.Has v ∧ kind.inherits v = true) →
      t.All (fun v => v.Plain ∧ (∀ av, v.anonVma = some av → av.ptr < s.rmaps.nextAnon)) ∧
      t.All (Kept full (Inherited s.tree kind) leaf') ∧
      ∀ v ∈ done, ∀ va, v.contains va = true → view content t va ≠ none)
    ?_ (s.tree.iter.filter kind.inherits) [] WellFormed.new
    (fun _ => ⟨hnew _, hnew _, by simp⟩)
  · obtain ⟨hw, hJ⟩ := hrule _ _ hrun rfl
    have hall : ∀ v ∈ s.tree.iter.filter kind.inherits, s.tree.Has v ∧ kind.inherits v = true := by
      intro v hv
      obtain ⟨hmem, hin⟩ := List.mem_filter.mp hv
      obtain ⟨k, hk⟩ := mem_values_iff.mp hmem
      exact ⟨h.wellFormed.has hk, hin⟩
    obtain ⟨hplain, hkept, hmapped⟩ := hJ hall
    refine ⟨hw, fun k v hv => (hplain k v hv).1, fun k v hv => (hplain k v hv).2, ?_⟩
    refine h.homedIn_inherited.transfer (apart_inherited h.wellFormed)
      (fun k v hv => (hkept k v hv).1) ?_
    rintro page _ ⟨v, hv, hin, rfl⟩ ⟨h1, h2, -⟩
    have hlt : page < USER_VA_END := h2.trans v.end.isUser
    have hmem : v ∈ s.tree.iter.filter kind.inherits :=
      List.mem_filter.mpr ⟨mem_values_iff.mpr ⟨_, hv⟩, hin⟩
    have hne := hmapped v hmem ⟨page, hlt⟩ (contains_iff.mpr ⟨h1, h2⟩)
    obtain ⟨c, hc⟩ := ne_none_iff_exists'.mp hne
    exact hw.exists_of_view hc
  intro t done v t' hw hJ hins hdone
  obtain ⟨hplain, hkept, hmapped⟩ := hJ fun u hu => hdone u (List.mem_append_left _ hu)
  obtain ⟨hv, hin⟩ := hdone v (by simp)
  have hvp := h.plain _ _ hv
  refine ⟨hins.all hplain ⟨⟨⟨hvp.start, hvp.end, hvp.fits⟩, hvp.family⟩, h.known _ v hv⟩ ?_,
    kept_of_inserted (apart_inherited h.wellFormed) hins hkept ⟨v, hv, hin, rfl⟩
      fun l r hl hr _ _ hm => hjoin l r hl hr hm, ?_⟩
  · intro l r hl hr hm hnl hnr _ _
    exact ⟨⟨hl.1.absorb hr.1.toWhole hm hnl hnr, hl.1.family⟩, hl.2⟩
  intro u hu va hc
  rw [hins.view_eq content hw]
  split_ifs with hcv
  · simp
  rcases List.mem_append.mp hu with hu | hu
  · exact hmapped u hu va hc
  · rw [List.mem_singleton.mp hu] at hc
    exact absurd hc hcv

/-- **A child starts with the invariant.**  Its edges are those of its VMAs. -/
theorem child (c : Arc) (parent : AddressSpace) :
    AnonInv c (MmSystem.inheritedLeaves kind s.tree leaf) s.rmaps
      (MmSystem.childSpace c parent t (MmSystem.attachChildRmaps c t s.rmaps)) := by
  obtain ⟨hw, hplain, hknown, hhomed⟩ := h.forkTree hjoin hrun
  have hnext : (MmSystem.attachChildRmaps c t s.rmaps).nextAnon = s.rmaps.nextAnon :=
    congrArg Prod.snd (attachAll_owners ..)
  refine ⟨rfl, rfl, hw, hplain, ?_, ?_, hhomed, hnext.ge, ?_⟩
  · show t.All fun v => ∀ av, v.anonVma = some av →
      av.ptr < (MmSystem.attachChildRmaps c t s.rmaps).nextAnon
    rwa [hnext]
  · intro v hv av hav va h1 h2
    exact ⟨⟨c, v.start.asU64, v.end.asU64⟩, mem_attachAll_chain.mpr (.inr ⟨v,
      mem_values_iff.mpr ⟨_, hv⟩, hav, rfl⟩), rfl, rfl, h2⟩
  · intro av _ e he _
    exact mem_attachAll_chain.mpr (.inl he)

end Fork

end AnonInv

end Oxide
