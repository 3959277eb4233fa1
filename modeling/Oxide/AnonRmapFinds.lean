/-
The anonymous reverse map finds every recorded page.

`rmap_walk_anon` looks for the pages of a family by their recorded indices. A page is missed
once its VMA has lost its start or its family, which cutting, coalescing, replacing and growing a
VMA can do. In runs where these leave the recorded pages alone every one of them is found.

* `AnonWorld`: the invariant of the system, which `AnonWorld.step` keeps;
* `AnonSafe`: the condition on one step;
* `MmSystem.anon_walks_find`: **the walks find every recorded page in a safe run**;
* `touchThenUnmap_misses`: unmapping the first page of a VMA loses the second.
-/
import Oxide.AnonRmapSpace
import Oxide.FileRmapExact

namespace Oxide

open Prog VmaTree AddressSpace Function Option

variable {s s' : AddressSpace} {leaf' : ℕ → Option Leaf}

namespace MmSystem

/-! ### All address spaces -/

/-- The invariant of the system. -/
structure AnonWorld (w : MmSystem) : Prop where
  created : ∀ mm s, w.space mm = some s → mm.ptr < w.nextMm
  /-- An address space that is gone has no recorded page. -/
  dead : ∀ mm, w.space mm = none → ∀ page x, w.leaf mm page ≠ some ⟨some x⟩
  spaces : ∀ mm s, w.space mm = some s → AnonInv mm (w.leaf mm) w.rmaps { s with rmaps := w.rmaps }

variable {objects : Arc → Option Arc} {w w' : MmSystem} {mm : Arc}

theorem AnonWorld.new (objects : Arc → Option Arc) : AnonWorld (.new objects) where
  created mm s h := absurd h (by simp [MmSystem.new])
  dead mm _ page x := by simp [MmSystem.new]
  spaces mm s h := absurd h (by simp [MmSystem.new])

theorem AnonWorld.other {s'' : AddressSpace} {mm' : Arc} (hne : mm' ≠ mm)
    (hs' : AnonInv mm leaf' w.rmaps s')
    (h : AnonInv mm' (w.leaf mm') w.rmaps { s'' with rmaps := w.rmaps }) :
    AnonInv mm' (w.leaf mm') s'.rmaps { s'' with rmaps := s'.rmaps } where
  self := h.self
  noUffd := h.noUffd
  wellFormed := h.wellFormed
  plain := h.plain
  known k v hv av hav := (h.known k v hv av hav).trans_le hs'.created
  edges := h.edges.mono fun _ hv av hav e he hmm =>
    hs'.frame av (h.known _ _ hv av hav) e he (by rwa [hmm])
  homed := h.homed
  created := le_rfl
  frame _ _ _ he _ := he

/-- Only one address space has changed, and the others keep their edges. -/
theorem AnonWorld.change (h : AnonWorld w) (mm : Arc)
    (hspace : ∀ mm' ≠ mm, w'.space mm' = w.space mm') (hleaf : ∀ mm' ≠ mm, w'.leaf mm' = w.leaf mm')
    (hnext : w.nextMm ≤ w'.nextMm)
    (hother : ∀ mm' (s : AddressSpace), mm' ≠ mm →
      AnonInv mm' (w.leaf mm') w.rmaps { s with rmaps := w.rmaps } →
      AnonInv mm' (w.leaf mm') w'.rmaps { s with rmaps := w'.rmaps })
    (hdead : w'.space mm = none → ∀ page x, w'.leaf mm page ≠ some ⟨some x⟩)
    (hself : ∀ s, w'.space mm = some s → mm.ptr < w'.nextMm ∧
      AnonInv mm (w'.leaf mm) w'.rmaps { s with rmaps := w'.rmaps }) : AnonWorld w' where
  created mm' s hs := by
    by_cases hmm : mm' = mm
    · subst hmm
      exact (hself s hs).1
    · rw [hspace mm' hmm] at hs
      exact (h.created mm' s hs).trans_le hnext
  dead mm' hs page x := by
    by_cases hmm : mm' = mm
    · subst hmm
      exact hdead hs page x
    · rw [hspace mm' hmm] at hs
      rw [hleaf mm' hmm]
      exact h.dead mm' hs page x
  spaces mm' s hs := by
    by_cases hmm : mm' = mm
    · subst hmm
      exact (hself s hs).2
    · rw [hspace mm' hmm] at hs
      rw [hleaf mm' hmm]
      exact hother mm' s hmm (h.spaces mm' s hs)

/-- An address space that has its invariant is put into the system with its leaves. -/
theorem AnonWorld.put (h : AnonWorld w) (hs' : AnonInv mm leaf' w.rmaps s') {n : ℕ}
    (hlt : mm.ptr < n) (hn : w.nextMm ≤ n) :
    AnonWorld ⟨update w.space mm (some s'), s'.rmaps, n, update w.leaf mm leaf'⟩ := by
  refine h.change mm (fun _ hne => update_of_ne hne _ _) (fun _ hne => update_of_ne hne _ _) hn
    (fun _ _ hne => AnonWorld.other hne hs') (fun hg => ?_) fun s hs => ⟨hlt, ?_⟩
  · simp at hg
  · simp only [update_self, some_inj] at hs ⊢
    subst hs
    exact hs'.rebase

theorem AnonWorld.leave (h : AnonWorld w) (hs : w.space mm = some s)
    (hs' : AnonInv mm leaf' w.rmaps s') :
    AnonWorld { w.leave mm s' with leaf := update w.leaf mm leaf' } :=
  h.put hs' (h.created mm s hs) le_rfl

theorem AnonWorld.leaves (h : AnonWorld w) (hrec : RecordedIn leaf' (w.leaf mm)) :
    AnonWorld { w with leaf := update w.leaf mm leaf' } := by
  refine h.change mm (fun _ _ => rfl) (fun _ hne => update_of_ne hne _ _) le_rfl (fun _ _ _ h => h)
    (fun hg page x hpage => ?_) fun s hs => ⟨h.created mm s hs, ?_⟩
  · simp only [update_self] at hpage
    exact h.dead mm hg page x (hrec page x hpage)
  · simp only [update_self]
    exact (h.spaces mm s hs).leaves hrec

variable {α ε : Type} {m : Vm ε α}

/-- Code that runs after the leaves of its address space were changed to `leaf'`. -/
theorem AnonWorld.onSpace (h : AnonWorld w)
    (hdead : w.space mm = none → RecordedIn leaf' (w.leaf mm))
    (hm : ∀ s, w.space mm = some s →
      m.Ends { s with rmaps := w.rmaps } fun _ s' => AnonInv mm leaf' w.rmaps s')
    (hrun : (({ w with leaf := update w.leaf mm leaf' } : MmSystem).onSpace mm m).map
      Prod.snd = .ok w') : AnonWorld w' := by
  obtain ⟨⟨_, _⟩, hq, rfl⟩ := Except.map_eq_ok.mp hrun
  rcases onSpace_cases hq with ⟨hnone, -, rfl⟩ | ⟨s, r', s', hs, hrun', -, rfl⟩
  · exact h.leaves (hdead hnone)
  · exact h.leave hs (hm s hs _ _ hrun')

theorem AnonWorld.onSpace_self (h : AnonWorld w)
    (hm : ∀ s, w.space mm = some s →
      m.Ends { s with rmaps := w.rmaps } fun _ s' => AnonInv mm (w.leaf mm) w.rmaps s')
    (hrun : (w.onSpace mm m).map Prod.snd = .ok w') : AnonWorld w' := by
  have hsame : RecordedIn (w.leaf mm) (w.leaf mm) := fun _ _ hp => hp
  refine h.onSpace (fun _ => hsame) hm ?_
  rwa [update_eq_self]

/-! ### Steps of the system -/

/-- **The condition on one step** under which no recorded page is lost. -/
def AnonSafe (w : MmSystem) : MmEvent → Prop
  | .mmap env mm placement len prot mayProt flags backing _ =>
      ∀ s, w.space mm = some s → ∀ start replaced,
        s.place (granule env placement backing) placement len = .ok (start, replaced) →
        AnonMmapSafe { s with rmaps := w.rmaps } start replaced len prot mayProt flags backing
  | .munmap _ mm addr len =>
      ∀ s, w.space mm = some s → Clean s.tree.Has (w.leaf mm) (addr.asU64 + len)
  | .mprotect _ mm addr len _ =>
      ∀ s, w.space mm = some s → MprotectSafe s.tree (w.leaf mm) addr.asU64 (addr.asU64 + len)
  | .tryGrowStack mm va maxSize maxGrow =>
      ∀ s, w.space mm = some s → ¬ s.GrowsStack va maxSize maxGrow
  | .fault _ mm va _ _ =>
      ∀ s v, w.space mm = some s → s.tree.findContaining va = some v →
        va.asU64 - v.start.asU64 < 2 ^ 32 * PAGE_SIZE_BYTES
  | .fork _ mm .cow =>
      ∀ s, w.space mm = some s → ∀ l r, s.tree.Has l → s.tree.Has r →
        (childVma l).mergeableWithNext (childVma r) = true → ∀ page, ¬ Holds (w.leaf mm) r page
  | .create _ _ | .fork _ _ _ | .drop _ => True

section

variable (h : AnonWorld w)
include h

variable {env : Env} {len : ℕ}

theorem AnonWorld.mmap {placement : MmapPlacement} {prot mayProt : VmaProt}
    {flags : VmaFlags} {backing : VmaBacking} {mdwe : MdweMode}
    (hsafe : w.AnonSafe (.mmap env mm placement len prot mayProt flags backing mdwe))
    (hrun : w.mmap env mm placement len prot mayProt flags backing mdwe = .ok w') :
    AnonWorld w' := by
  -- a fixed mapping tears down the leaves of its range first
  have hleaves : ∀ leaf', RecordedIn leaf' (w.leaf mm) →
      (∀ start, placement = .fixed start → ∀ page, start.asU64 ≤ page →
        page < start.asU64 + len → leaf' page = none) →
      (({ w with leaf := update w.leaf mm leaf' } : MmSystem).onSpace mm
        (mmapWithMayAtInnerLocked env placement len prot mayProt flags backing mdwe)).map Prod.snd =
          .ok w' → AnonWorld w' := by
    intro leaf' hrec hgone hrun
    refine h.onSpace (fun _ => hrec) (fun s hs => ?_) hrun
    exact ((h.spaces mm s hs).leaves hrec).mmap (hsafe s hs) hgone
  cases placement with
  | fixed addr =>
    refine hleaves (AnonInv.clearRange (w.leaf mm) addr.asU64 (addr.asU64 + len))
      (AnonInv.recordedIn_clearRange _ _ _) ?_ hrun
    rintro start heq page h1 h2
    cases heq
    rw [AnonInv.clearRange, if_pos ⟨h1, h2⟩]
  | _ =>
    refine hleaves (w.leaf mm) (fun _ _ hp => hp) (by simp) ?_
    rwa [update_eq_self]

theorem AnonWorld.munmap {addr : UserVirtAddr} (hsafe : w.AnonSafe (.munmap env mm addr len))
    (hrun : w.munmap env mm addr len = .ok w') : AnonWorld w' := by
  obtain ⟨⟨r, w1⟩, hq, hend⟩ := Except.map_eq_ok.mp hrun
  rcases onSpace_cases hq with ⟨-, rfl, rfl⟩ | ⟨s, r', s', hs, hrun', rfl, rfl⟩
  · rwa [← hend]
  obtain ⟨hok, herr⟩ := (h.spaces mm s hs).munmap (hsafe s hs) _ _ hrun'
  cases r' with
  | ok =>
    rw [← hend]
    exact h.leave hs (hok rfl)
  | error e =>
  have hw1 := h.leave hs (herr e rfl)
  rw [update_eq_self] at hw1
  rwa [← hend]

theorem AnonWorld.create (mmapBase : ℕ) (mmapTopdown : Bool) :
    AnonWorld (w.create mmapBase mmapTopdown) := by
  have hnew : ∀ P : Vma → Prop, VmaTree.new.All P :=
    fun P k v hv => absurd hv (by simp [VmaTree.new])
  have hnone : w.space ⟨w.nextMm⟩ = none := by
    refine eq_none_iff_forall_ne_some.mpr fun s hs => ?_
    exact absurd (h.created _ s hs) (lt_irrefl _)
  have hs' : AnonInv ⟨w.nextMm⟩ (w.leaf ⟨w.nextMm⟩) w.rmaps
      (.new ⟨w.nextMm⟩ mmapBase mmapTopdown w.rmaps) := by
    refine ⟨rfl, rfl, WellFormed.new, hnew _, hnew _, ?_, ?_, le_rfl, fun _ _ _ he _ => he⟩
    · intro v hv
      exact absurd hv (by simp [AddressSpace.new, VmaTree.new])
    · intro page av idx hpage
      exact absurd hpage (h.dead _ hnone page _)
  have hw1 := h.put hs' (Nat.lt_succ_self _) (Nat.le_succ _)
  rwa [update_eq_self] at hw1

theorem AnonWorld.drop (mm : Arc) : AnonWorld (w.drop mm) := by
  refine h.change mm (fun _ hne => update_of_ne hne _ _) (fun _ hne => update_of_ne hne _ _) le_rfl
    (fun _ _ _ h => h) (fun _ page x hpage => ?_) fun s hs => ?_
  · simp [MmSystem.drop] at hpage
  · simp [MmSystem.drop] at hs

variable {va : UserVirtAddr}

/-- The first touch of a page of the VMA `v`, whose family is known. -/
theorem AnonWorld.mark {u v : Vma} {av : Arc} (hs : w.space mm = some s)
    (hfind : s.tree.findContaining va = some u) (hav : u.anonVma = some av)
    (hstart : v.start = u.start) (hidx : va.asU64 - u.start.asU64 < 2 ^ 32 * PAGE_SIZE_BYTES)
    (hrun : ((w.setLeaf mm (pageOf va) ⟨some (av, pageIndex v va)⟩).onSpace mm
      (markAnonPage va : Vm Error Unit)).map Prod.snd = .ok w') : AnonWorld w' := by
  refine h.onSpace (fun hnone => ?_) (fun s1 hs1 => ?_) hrun
  · cases hs.symm.trans hnone
  · rw [hs] at hs1
    cases hs1
    exact ((h.spaces mm s hs).touch hfind hav hidx hstart).markAnonPage

theorem AnonWorld.handlePageFault {access : FaultAccess}
    {o : FaultAnswers} (hsafe : w.AnonSafe (.fault env mm va access o))
    (hrun : w.handlePageFault env mm va access o = .ok w') : AnonWorld w' := by
  rcases handlePageFault_cases hrun with rfl | rfl | ⟨s, v, av, hs, hfind, hav, hmark⟩ |
    ⟨s, v, r, w1, hs, hfind, hprep, hrest⟩
  · exact h
  · -- a leaf that records nothing
    have hrec : RecordedIn (update (w.leaf mm) (pageOf va) (some ⟨none⟩)) (w.leaf mm) := by
      intro page x hpage
      by_cases hp : page = pageOf va
      · subst hp
        simp at hpage
      · rwa [update_of_ne hp] at hpage
    exact h.leaves hrec
  · exact h.mark hs hfind hav rfl (hsafe s v hs hfind) hmark
  rcases onSpace_cases hprep with ⟨hnone, -, -⟩ | ⟨s1, r', s', hs1, hrun', rfl, rfl⟩
  · cases hs.symm.trans hnone
  rw [hs] at hs1
  cases hs1
  obtain ⟨hinv, hpost⟩ := (h.spaces mm s hs).prepareAnonVma _ _ hrun'
  have hw1 := h.leave hs hinv
  rw [update_eq_self] at hw1
  rcases hrest with ⟨av, hr, hmark⟩ | rfl
  · -- the VMA has the family now, and its old start
    obtain ⟨v', u, hfind', hfindu, hstart, hav⟩ := hpost av (some_inj.mp hr)
    obtain rfl : v = v' := some_inj.mp (hfind.symm.trans hfind')
    refine hw1.mark (update_self ..) hfindu hav hstart.symm ?_ hmark
    rw [hstart]
    exact hsafe s v hs hfind
  · exact hw1

theorem AnonWorld.fork {kind : ForkKind} (hsafe : w.AnonSafe (.fork env mm kind))
    (hrun : w.fork env mm kind = .ok w') : AnonWorld w' := by
  rcases fork_cases env mm kind hrun with rfl | ⟨parent, tree, hs, hf, hrun⟩
  · exact h
  have hparent := h.spaces mm parent hs
  -- only `fork_cow_pages` passes recorded pages on
  have hjoin : ∀ l r, AnonInv.Inherited parent.tree kind l →
      AnonInv.Inherited parent.tree kind r → Vma.Mergeable l r →
      ∀ page, ¬ Holds (inheritedLeaves kind parent.tree (w.leaf mm)) r page := by
    rintro _ _ ⟨l, hl, -, rfl⟩ ⟨r, hr, -, rfl⟩ hm page ⟨h1, h2, av, idx, hpage⟩
    obtain ⟨rfl, hleaf, -⟩ := AnonInv.inheritedLeaves_spec hparent.wellFormed hpage
    exact hsafe parent hs l r hl hr (Vma.mergeableWithNext_iff.mpr hm) page
      ⟨h1, h2, av, idx, hleaf⟩
  have hw1 := h.put (hparent.child hjoin hf ⟨w.nextMm⟩ parent) (Nat.lt_succ_self _) (Nat.le_succ _)
  refine hw1.onSpace_self (fun s hspace => ?_) hrun
  rw [dupUffdRegistrations, hparent.noUffd]
  exact ends_pure.mpr (hw1.spaces _ s hspace)

/-- **One safe step keeps the invariant.** -/
theorem AnonWorld.step {e : MmEvent} (hsafe : w.AnonSafe e) (hrun : e.run w = .ok w') :
    AnonWorld w' := by
  cases e with
  | create =>
    rw [← Except.ok.inj hrun]
    exact h.create ..
  | mmap => exact h.mmap hsafe hrun
  | munmap => exact h.munmap hsafe hrun
  | mprotect env mm =>
    exact h.onSpace_self (fun s hs => (h.spaces mm s hs).mprotect (hsafe s hs)) hrun
  | tryGrowStack mm =>
    refine h.onSpace_self (fun s hs => ?_) hrun
    refine (tryGrowStack_of_not_grows (h.spaces mm s hs).wellFormed (hsafe s hs)).mono ?_
    rintro _ s' rfl
    exact h.spaces mm s hs
  | fault => exact h.handlePageFault hsafe hrun
  | fork => exact h.fork hsafe hrun
  | drop mm =>
    rw [← Except.ok.inj hrun]
    exact h.drop mm

end

/-! ### Walks -/

/-- The walk over the family and the index recorded for a page visits the page. -/
def AnonWalksFind (w : MmSystem) : Prop :=
  ∀ mm page av idx, w.leaf mm page = some ⟨some (av, idx)⟩ →
    (mm, page) ∈ AnonVma.walk w.live (w.rmaps.chain av) idx

theorem AnonWorld.walks_find (h : AnonWorld w) : w.AnonWalksFind := by
  intro mm page av idx hpage
  cases hs : w.space mm with
  | none => exact absurd hpage (h.dead mm hs page _)
  | some s =>
  have hinv := h.spaces mm s hs
  obtain ⟨v, hv, h1, h2, hav, hidx⟩ := hinv.homed page av idx hpage
  obtain ⟨e, he, hmm, hstart, hlt⟩ := hinv.edges v hv av hav page h1 h2
  refine AnonVma.mem_walk_iff.mpr ⟨by rw [live, hs]; rfl, e, he, hmm, ?_, hlt⟩
  rwa [hstart]

/-- **In every state of a safe run the walks find every recorded page.** -/
theorem anon_walks_find (objects : Arc → Option Arc) {events : List MmEvent} {w : MmSystem}
    (hsafe : MmEvent.Meeting AnonSafe (.new objects) events)
    (hrun : MmEvent.runAll (.new objects) events = .ok w) : w.AnonWalksFind :=
  (hsafe.invariant (I := AnonWorld) (fun _ _ _ h hs hr => h.step hs hr) (.new objects)
    hrun).walks_find

/-! ### Runs -/

/-- Memory and a frame are there, and nothing is shared. -/
def plainAnswers : FaultAnswers := ⟨true, true, true, false, false, true⟩

/-- Map two pages of anonymous memory at `0x10000`. -/
def mapMemory : MmEvent :=
  .mmap .plain ⟨0⟩ (.fixedNoReplace ⟨0x10000, firstPage_isUser⟩) 0x2000
    (VmaProt.READ ||| VmaProt.WRITE) (VmaProt.READ ||| VmaProt.WRITE) VmaFlags.PRIVATE .anonymous
    .check

/-- Write to a page for the first time. -/
def touchPage (va : UserVirtAddr) : MmEvent := .fault .plain ⟨0⟩ va .write plainAnswers

/-- Touch the first of two pages, and unmap the second. -/
def touchThenTrim : List MmEvent :=
  [.create 0x100000 true, mapMemory, touchPage ⟨0x10000, firstPage_isUser⟩,
    .munmap .plain ⟨0⟩ ⟨0x11000, secondPage_isUser⟩ 0x1000]

theorem touchThenTrim_safe : MmEvent.Meeting AnonSafe (.new oneObject) touchThenTrim := by
  refine ⟨trivial, fun w1 h1 => ?_⟩
  cases h1
  refine ⟨?_, fun w2 h2 => ?_⟩
  · intro s hs start replaced hplace
    cases hs
    cases hplace
    refine ⟨by decide, by simp, by simp, ?_, ?_⟩
    · intro v hv
      exact absurd hv (by simp [AddressSpace.new, VmaTree.new])
    · intro v hv
      exact absurd hv (by simp [AddressSpace.new, VmaTree.new])
  cases h2
  refine ⟨?_, fun w3 h3 => ?_⟩
  · intro s v hs hfind
    cases hs
    cases hfind
    decide
  -- the range ends with the only VMA
  cases h3
  refine ⟨?_, fun _ _ => trivial⟩
  intro s hs u hu _ page hold
  cases hs
  obtain ⟨k, hk⟩ : ∃ k, OrdMap.get? _ k = some u := ⟨_, hu⟩
  have hmem := OrdMap.mem_values_iff.mpr ⟨k, hk⟩
  obtain rfl := List.mem_singleton.mp hmem
  exact hold.2.1

theorem touchThenTrim_walks_find :
    ∃ w, MmEvent.runAll (.new oneObject) touchThenTrim = .ok w ∧
      w.leaf ⟨0⟩ 0x10000 = some ⟨some (⟨0⟩, 0)⟩ ∧ w.AnonWalksFind :=
  ⟨_, rfl, rfl, anon_walks_find oneObject touchThenTrim_safe rfl⟩

/-- Touch the second of two pages, and unmap the first. -/
def touchThenUnmap : List MmEvent :=
  [.create 0x100000 true, mapMemory, touchPage ⟨0x11000, secondPage_isUser⟩,
    .munmap .plain ⟨0⟩ ⟨0x10000, firstPage_isUser⟩ 0x1000]

/-- **The second page is still mapped with the index 1, which is now counted from its own
start**: the walk finds nothing. -/
theorem touchThenUnmap_misses :
    ∃ w, MmEvent.runAll (.new oneObject) touchThenUnmap = .ok w ∧
      w.leaf ⟨0⟩ 0x11000 = some ⟨some (⟨0⟩, 1)⟩ ∧
      AnonVma.walk w.live (w.rmaps.chain ⟨0⟩) 1 = [] ∧ ¬ w.AnonWalksFind := by
  refine ⟨_, rfl, rfl, rfl, fun h => ?_⟩
  exact List.not_mem_nil (h ⟨0⟩ 0x11000 ⟨0⟩ 1 rfl)

end MmSystem

end Oxide
