/-
What a mapped address resolves to, across range operations.

Removing, protecting, sealing and binding a range cut VMAs and coalesce them again, and the
fault handlers compute the place behind an address from the start and the backing of the VMA
that happens to cover it. An address that stays mapped should keep its place.

* `Overlaid.keepsLocations_iff`: a loop keeps every place exactly when the backing of each VMA
  it takes follows the two cuts the range makes in it;
* `SplitOp.locations_kept_iff`: **the same for the four operations**, with the VMAs they take.

`VmaBacking.FollowsSplit` is where the variants differ: frames and device ranges are not
rebased by a split, and the rebased offset of a file or of kernel bytes may wrap.
-/
import Oxide.VmaRangeLoop

namespace Oxide

open TreeOp Option

namespace VmaTree

/-- Every address mapped both before and after resolves to the same place. -/
def KeepsLocations (t t' : VmaTree) : Prop :=
  ∀ va v v', t.findContaining va = some v → t'.findContaining va = some v' →
    v'.location va = v.location va

theorem keepsLocations_iff_view {t t' : VmaTree} :
    KeepsLocations t t' ↔ ∀ va a b, view MergeView.location t va = some a →
      view MergeView.location t' va = some b → b = a := by
  constructor
  · intro h va a b ha hb
    obtain ⟨v, hv, rfl⟩ := map_eq_some_iff.mp ha
    obtain ⟨v', hv', rfl⟩ := map_eq_some_iff.mp hb
    exact h va v v' hv hv'
  · intro h va v v' hv hv'
    exact h va _ _ (by rw [view, hv]; rfl) (by rw [view, hv']; rfl)

theorem keepsLocations_refl (t : VmaTree) : KeepsLocations t t := by
  intro va v v' h h'
  rw [some_inj.mp (h.symm.trans h')]

end VmaTree

theorem VmaBacking.followsSplit_zero (b : VmaBacking) : b.FollowsSplit 0 := by
  cases b with
  | file f off => exact off.isLt
  | kernelBytes d off => exact off.isLt
  | kernelFrame => rfl
  | physRange => rfl
  | anonymous => trivial
  | kernelPages => trivial
  | special => trivial

namespace VmaTree

variable {t t' : VmaTree} {mid : Vma → Option Vma} {start : UserVirtAddr} {stop : ℕ}
  {vs : List Vma}

/-- The backing of `v` follows the cuts that keep a fragment: the one at `start`, if the middle
stays, and the one at `end`. -/
def FollowsCuts (start : UserVirtAddr) («end» : ℕ) (midStays : Bool) (v : Vma) : Prop :=
  (midStays = true → v.start.asU64 < start.asU64 →
    v.backing.FollowsSplit (start.asU64 - v.start.asU64)) ∧
  («end» < v.end.asU64 → v.backing.FollowsSplit («end» - v.start.asU64))

/-- The middle is a rewrite of the fragment inside the range that keeps start and backing. -/
def KeepsBacking (start : UserVirtAddr) («end» : ℕ) (mid : Vma → Option Vma) : Prop :=
  ∀ v, ∀ m ∈ mid v, m.start = clipStart start v ∧ m.backing = (midPiece start «end» v).backing

/-- The place of an address of `v` after the splice, if it stays mapped, is the old one exactly
when the backing follows the cut before it. -/
theorem pieceView_location_iff (hmid : KeepsBacking start stop mid) {v : Vma}
    (hm : Meets start stop v) {va : UserVirtAddr} (hc : v.contains va = true) {b : Location}
    (hb : pieceView MergeView.location (mid v) start stop v va = some b) :
    b = v.location va ↔ v.backing.FollowsSplit
      ((if va.asU64 < start.asU64 then v.start.asU64
        else if va.asU64 < stop then max start.asU64 v.start.asU64 else stop) - v.start.asU64) := by
  obtain ⟨hc1, hc2⟩ := Vma.contains_iff.mp hc
  have hlt := hm.lt_end
  rw [pieceView] at hb
  by_cases h1 : va.asU64 < start.asU64
  · rw [if_pos h1] at hb ⊢
    rw [← some_inj.mp hb]
    exact Vma.location_cloneSubrange_iff le_rfl hc1
  rw [if_neg h1] at hb ⊢
  by_cases h2 : va.asU64 < stop
  · rw [if_pos h2] at hb ⊢
    obtain ⟨m, hmem, rfl⟩ := map_eq_some_iff.mp hb
    obtain ⟨hs, hback⟩ := hmid v m hmem
    have hloc : m.location va = (midPiece start stop v).location va := by
      rw [Vma.location, hs, hback]
      rfl
    show m.location va = v.location va ↔ _
    rw [hloc, ← clipStart_asU64]
    exact Vma.location_cloneSubrange_iff (by rw [clipStart_asU64]; omega)
      (by rw [clipStart_asU64]; omega)
  rw [if_neg h2] at hb ⊢
  rw [← some_inj.mp hb]
  have hce : (clipEnd stop v).asU64 = stop := min_eq_left (by omega)
  have hiff : (v.cloneSubrange (clipEnd stop v) v.end).location va = v.location va ↔
      v.backing.FollowsSplit ((clipEnd stop v).asU64 - v.start.asU64) :=
    Vma.location_cloneSubrange_iff (by omega) (by omega)
  rwa [hce] at hiff

/-- **A loop keeps the place of every address exactly when the backing of each VMA it takes
follows the cuts.** -/
theorem Overlaid.keepsLocations_iff (ho : Overlaid mid start stop vs t t') (hw : t.WellFormed)
    (hmid : KeepsBacking start stop mid) {midStays : Bool} (hstays : ∀ v, (mid v).isSome = midStays)
    (hvs : ∀ v ∈ vs, t.Has v ∧ Meets start stop v) :
    KeepsLocations t t' ↔ ∀ v ∈ vs, FollowsCuts start stop midStays v := by
  rw [keepsLocations_iff_view]
  -- the place of an address of a taken VMA before and after
  have hbefore : ∀ v ∈ vs, ∀ va, v.contains va = true →
      view MergeView.location t va = some (v.location va) := fun v hv va hc =>
    view_of_get? MergeView.location hw (hvs v hv).1 hc
  have hfind : ∀ v ∈ vs, ∀ va, v.contains va = true →
      (vs.find? fun w => w.contains va) = some v := by
    intro v hv va hc
    cases hf : vs.find? fun w => w.contains va with
    | none => exact absurd hc (by simpa using List.find?_eq_none.mp hf v hv)
    | some w =>
    have hwv : t.findContaining va = some w := (findContaining_eq_some_iff hw).mpr
      ⟨(hvs w (List.mem_of_find?_eq_some hf)).1, by simpa using List.find?_some hf⟩
    have hvv : t.findContaining va = some v :=
      (findContaining_eq_some_iff hw).mpr ⟨(hvs v hv).1, hc⟩
    exact hwv.symm.trans hvv
  have hafter : ∀ v ∈ vs, ∀ va, v.contains va = true → view MergeView.location t' va =
      pieceView MergeView.location (mid v) start stop v va := by
    intro v hv va hc
    rw [ho.view_eq, overlay, hfind v hv va hc]
  constructor
  · intro h v hv
    obtain ⟨hg, hm⟩ := hvs v hv
    obtain ⟨hne, hrange, hlt, hgt⟩ := id hm
    refine ⟨fun hs hvs => ?_, fun hend => ?_⟩
    · -- look at the first address of the range
      have hc : v.contains start = true := Vma.contains_iff.mpr ⟨hvs.le, hgt⟩
      obtain ⟨m, hmv⟩ := isSome_iff_exists.mp ((hstays v).trans hs)
      have hp : pieceView MergeView.location (mid v) start stop v start =
          some (m.location start) := by
        rw [pieceView, if_neg (lt_irrefl _), if_pos hrange, hmv]
        rfl
      have heq := h start _ _ (hbefore v hv start hc) ((hafter v hv start hc).trans hp)
      have := (pieceView_location_iff hmid hm hc hp).mp heq
      rwa [if_neg (lt_irrefl _), if_pos hrange, max_eq_left hvs.le] at this
    -- look at the first address after the range
    set va : UserVirtAddr := ⟨stop, hend.trans v.end.isUser⟩
    have hc : v.contains va = true := Vma.contains_iff.mpr ⟨hlt.le, hend⟩
    have hnlt : ¬ va.asU64 < start.asU64 := by
      show ¬ stop < start.asU64
      omega
    have hp : pieceView MergeView.location (mid v) start stop v va =
        some ((v.cloneSubrange (clipEnd stop v) v.end).location va) := by
      rw [pieceView, if_neg hnlt, if_neg (lt_irrefl _)]
      rfl
    have heq := h va _ _ (hbefore v hv va hc) ((hafter v hv va hc).trans hp)
    have := (pieceView_location_iff hmid hm hc hp).mp heq
    rwa [if_neg hnlt, if_neg (lt_irrefl _)] at this
  intro h va a b ha hb
  cases hf : vs.find? fun v => v.contains va with
  | none =>
    rw [ho.view_eq, overlay, hf] at hb
    exact some_inj.mp (hb.symm.trans ha)
  | some v =>
  have hv := List.mem_of_find?_eq_some hf
  have hc : v.contains va = true := by simpa using List.find?_some hf
  obtain ⟨hg, hm⟩ := hvs v hv
  obtain ⟨hc1, hc2⟩ := Vma.contains_iff.mp hc
  obtain ⟨hcut1, hcut2⟩ := h v hv
  rw [hbefore v hv va hc] at ha
  rw [hafter v hv va hc] at hb
  rw [← some_inj.mp ha]
  rw [pieceView_location_iff hmid hm hc hb]
  by_cases h1 : va.asU64 < start.asU64
  · rw [if_pos h1, Nat.sub_self]
    exact v.backing.followsSplit_zero
  rw [if_neg h1]
  by_cases h2 : va.asU64 < stop
  · rw [if_pos h2]
    by_cases h3 : v.start.asU64 < start.asU64
    · rw [pieceView, if_neg h1, if_pos h2] at hb
      obtain ⟨m, hmv, -⟩ := map_eq_some_iff.mp hb
      rw [max_eq_left h3.le]
      exact hcut1 (by rw [← hstays v, hmv]; rfl) h3
    · rw [max_eq_right (by omega), Nat.sub_self]
      exact v.backing.followsSplit_zero
  · rw [if_neg h2]
    exact hcut2 (by omega)

end VmaTree

/-- The operations that cut VMAs and keep mapped memory where it is. -/
inductive SplitOp
  | removeRange (start «end» : UserVirtAddr)
  | mprotectRangeWithPkey (start «end» : UserVirtAddr) (newProt : VmaProt)
      (pkey : Option (BitVec 8))
  | sealRange (start «end» : UserVirtAddr)
  | setPolicyRange (start «end» : UserVirtAddr) (pol : Option MemPolicy)

namespace SplitOp

open VmaTree

def run (t : VmaTree) : SplitOp → Except Panic VmaTree
  | removeRange start e => (t.removeRange start e).map Prod.snd
  | mprotectRangeWithPkey start e newProt pkey =>
    (t.mprotectRangeWithPkey start e newProt pkey).map Prod.snd
  | sealRange start e => (t.sealRange start e).map Prod.snd
  | setPolicyRange start e pol => t.setPolicyRange start e pol

/-- Each VMA that a call cuts has a backing that follows the cuts.  A refused call cuts nothing,
and `mprotect` passes over a VMA that the one before it absorbs. -/
def FollowsCuts (t : VmaTree) : SplitOp → Prop
  | removeRange start e => start.asU64 < e.asU64 →
    ∀ v ∈ t.collected start e, VmaTree.FollowsCuts start e.asU64 false v
  | mprotectRangeWithPkey start e newProt pkey => t.mprotectCheck start e newProt = .ok () →
    ∀ v ∈ taken (absorbs (protRewrite newProt pkey) start e.asU64) (t.collected start e),
      VmaTree.FollowsCuts start e.asU64 true v
  | sealRange start e => t.sealCheck start e = .ok () →
    ∀ v ∈ t.collected start e, VmaTree.FollowsCuts start e.asU64 true v
  | setPolicyRange start e _ => start.asU64 < e.asU64 →
    ∀ v ∈ t.collected start e, VmaTree.FollowsCuts start e.asU64 true v

private theorem keepsLocations_iff_of_loops {t t' : VmaTree} (hw : t.WellFormed)
    {start e : UserVirtAddr} {mid : Vma → Option Vma} {vs : List Vma} {midStays : Bool}
    {admitted : Prop} (hl : Loops admitted mid start e.asU64 vs t t')
    (hvs : vs ⊆ t.collected start e) (hmid : KeepsBacking start e.asU64 mid)
    (hstays : ∀ v, (mid v).isSome = midStays) :
    KeepsLocations t t' ↔ (admitted → ∀ v ∈ vs, VmaTree.FollowsCuts start e.asU64 midStays v) := by
  by_cases hadm : admitted
  · obtain ⟨hr, ho⟩ := hl.overlaid hadm
    have hp := collected_pending hw hr (le_refl e.asU64)
    rw [ho.keepsLocations_iff hw hmid hstays fun v hv =>
      ⟨hp.present v (hvs hv), hp.meets v (hvs hv)⟩]
    exact ⟨fun h _ => h, fun h => h hadm⟩
  · rw [hl.same hadm]
    exact ⟨fun _ h => absurd h hadm, fun _ => keepsLocations_refl t⟩

/-- A rewrite that keeps the backing and its offset. -/
private theorem keepsBacking_rewrite {rewrite : Vma → Vma} {start : UserVirtAddr} {e : ℕ}
    (h : ∀ m, (rewrite m).start = m.start ∧ (rewrite m).backing = m.backing) :
    KeepsBacking start e fun v => some (rewrite (midPiece start e v)) := by
  intro v m hm
  rw [← some_inj.mp hm]
  exact h _

/-- **The four operations keep the place of every address that stays mapped exactly when each
VMA they cut has a backing that follows the cuts.** -/
theorem locations_kept_iff {t : VmaTree} (hw : t.WellFormed) (op : SplitOp) :
    ∃ t', op.run t = .ok t' ∧ (KeepsLocations t t' ↔ op.FollowsCuts t) := by
  cases op with
  | removeRange =>
    obtain ⟨removed, t', h, hl⟩ := removeRange_spec hw ..
    exact ⟨t', by rw [run, h]; rfl, keepsLocations_iff_of_loops hw hl (List.Subset.refl _)
      (fun _ _ h => absurd h (by simp)) fun _ => rfl⟩
  | mprotectRangeWithPkey =>
    obtain ⟨t', h, hl⟩ := mprotectRangeWithPkey_spec hw ..
    exact ⟨t', by rw [run, h]; rfl, keepsLocations_iff_of_loops hw hl (taken_subset _ _)
      (keepsBacking_rewrite fun _ => ⟨rfl, rfl⟩) fun _ => rfl⟩
  | sealRange =>
    obtain ⟨t', h, hl⟩ := sealRange_spec hw ..
    exact ⟨t', by rw [run, h]; rfl, keepsLocations_iff_of_loops hw hl (List.Subset.refl _)
      (keepsBacking_rewrite fun _ => ⟨rfl, rfl⟩) fun _ => rfl⟩
  | setPolicyRange start e pol =>
  obtain ⟨t', h, hl⟩ := rewriteRange_spec hw start e (policyRewrite_keepsRange pol)
  exact ⟨t', h, keepsLocations_iff_of_loops hw hl (List.Subset.refl _)
    (keepsBacking_rewrite fun _ => ⟨rfl, rfl⟩) fun _ => rfl⟩

/-- A two-page ring of kernel frames. -/
def ringVma : Vma :=
  plainVma (pageAddr 1) (pageAddr 3) 1 (.kernelFrame 0x100000)

def frameRing : VmaTree := VmaTree.new.store ringVma

theorem frameRing_wellFormed : frameRing.WellFormed :=
  WellFormed.new.store (by decide) (fits_new _)

/-- Unmapping the first page of the ring moves the second: it is resolved to the ring's header
frame. -/
theorem frameRing_removeRange_moves : frameRing.WellFormed ∧
    ∃ t' v v', (removeRange (pageAddr 1) (pageAddr 2)).run frameRing = .ok t' ∧
      frameRing.findContaining (pageAddr 2) = some v ∧
      t'.findContaining (pageAddr 2) = some v' ∧
      v.location (pageAddr 2) = .kernelFrame 0x101000 ∧
      v'.location (pageAddr 2) = .kernelFrame 0x100000 :=
  ⟨frameRing_wellFormed, _, _, _, rfl, rfl, rfl, rfl, rfl⟩

theorem frameRing_removeRange_keeps :
    (removeRange (pageAddr 2) (pageAddr 3)).FollowsCuts frameRing ∧
    ∃ t', (removeRange (pageAddr 2) (pageAddr 3)).run frameRing = .ok t' ∧
      KeepsLocations frameRing t' := by
  have hcuts : (removeRange (pageAddr 2) (pageAddr 3)).FollowsCuts frameRing := by
    intro _ v hv
    have hone : frameRing.collected (pageAddr 2) (pageAddr 3) = [ringVma] := rfl
    rw [hone, List.mem_singleton] at hv
    subst hv
    exact ⟨by simp, fun h => absurd h (by decide)⟩
  obtain ⟨t', ht', hiff⟩ := locations_kept_iff frameRing_wellFormed
    (removeRange (pageAddr 2) (pageAddr 3))
  exact ⟨hcuts, t', ht', hiff.mpr hcuts⟩

end SplitOp

end Oxide
