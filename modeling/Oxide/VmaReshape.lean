/-
Which VMAs a range operation leaves.

A range operation works on the tree in two moves: it replaces a VMA by its pieces at the ends of
the range, or it coalesces two neighbours at a point of the range. Whatever the pieces and the
coalesced VMAs inherit holds of every VMA of the tree afterwards, and what an address shows does
not depend on how the VMAs are cut.

* `Reshape`: a sequence of the two moves;
* `removeRangeRawEnd_reshape`: the removal loop is such a sequence;
* `Reshape.all`: **a property that pieces and coalesced VMAs inherit holds of every VMA**;
* `Reshape.content_eq`: **an address shows what it showed before**, or is no longer mapped;
* `Inserted.all`, `Inserted.view_eq`: the same for an insertion;
* `Updated`: one VMA rewritten in place.
-/
import Oxide.VmaTally

namespace Oxide

open OrdMap Vma VmaBacking Option

variable {a b k va : UserVirtAddr} {l r u v : Vma}

/-- What an address of a VMA shows: a place in a file, anonymous memory, or memory that never
coalesces. -/
inductive Source
  | anonymous
  | file (backing : Arc) (off : ℕ)
  | fixed
  deriving DecidableEq

/-- What the pieces of a VMA share at an address, and `mprotect` does not write. -/
structure Content where
  mayProt : VmaProt
  flags : VmaFlags
  anonName : Option String
  uffd : Option Arc
  mempolicy : Option MemPolicy
  source : Source
  deriving DecidableEq

namespace Vma

def source (v : Vma) (va : UserVirtAddr) : Source :=
  match v.backing with
  | .anonymous => .anonymous
  | .file backing off => .file backing (off.toNat + (va.asU64 - v.start.asU64))
  | _ => .fixed

def content (v : Vma) (va : UserVirtAddr) : Content :=
  ⟨v.mayProt, v.flags, v.anonName, v.uffd, v.mempolicy, v.source va⟩

/-- The file range of the VMA ends inside the file offsets. -/
def FileFits (v : Vma) : Prop :=
  ∀ f off, v.backing = .file f off → off.toNat + (v.end.asU64 - v.start.asU64) ≤ 2 ^ 64

/-- The offset of a fragment does not wrap. -/
theorem FileFits.toNat_rebase (hfit : v.FileFits) {f : Arc} {off : BitVec 64}
    (hb : v.backing = .file f off) (hs : v.start.asU64 ≤ a.asU64) (he : a.asU64 < v.end.asU64) :
    (off + (a.bits - v.start.bits)).toNat = off.toNat + (a.asU64 - v.start.asU64) := by
  have h := hfit f off hb
  have hd := toNat_bits_sub hs
  rw [BitVec.toNat_add, hd]
  exact Nat.mod_eq_of_lt (by omega)

section

variable (hfit : v.FileFits) (hs : v.start.asU64 ≤ a.asU64)

include hfit hs

theorem source_cloneSubrange (ha : a.asU64 ≤ va.asU64) (he : va.asU64 < v.end.asU64) :
    (v.cloneSubrange a b).source va = v.source va := by
  cases hb : v.backing with
  | file =>
    have hoff := hfit.toNat_rebase hb hs (by omega)
    simp only [source, cloneSubrange, hb, rebase]
    congr 1
    omega
  | _ => simp [source, cloneSubrange, hb, rebase]

theorem content_cloneSubrange (ha : a.asU64 ≤ va.asU64) (he : va.asU64 < v.end.asU64) :
    (v.cloneSubrange a b).content va = v.content va := by
  rw [content, source_cloneSubrange hfit hs ha he]
  rfl

theorem FileFits.cloneSubrange (hab : a.asU64 < b.asU64) (he : b.asU64 ≤ v.end.asU64) :
    (v.cloneSubrange a b).FileFits := by
  intro f off hb
  cases hv : v.backing with
  | file f' off' =>
    have hfit' := hfit f' off' hv
    have hoff := hfit.toNat_rebase hv hs (by omega)
    simp only [Vma.cloneSubrange, hv, rebase, VmaBacking.file.injEq] at hb ⊢
    rw [← hb.2]
    omega
  | _ =>
    simp only [Vma.cloneSubrange, hv, rebase] at hb
    cases hb

end

theorem source_absorb_right (hm : Mergeable l r) (hl : l.start.asU64 ≤ l.end.asU64)
    (hva : r.start.asU64 ≤ va.asU64) : (l.absorb r).source va = r.source va := by
  have habut := UserVirtAddr.eq_iff.mp hm.abut
  rcases continuesTo_iff.mp hm.backing with ⟨hb, hb'⟩ | ⟨f, off, off', hb, hb', hoff⟩
  · simp only [source, absorb, hb, hb']
  · have hlen : l.lenBytes.toNat = l.end.asU64 - l.start.asU64 := toNat_bits_sub hl
    simp only [source, absorb, hb, hb', Source.file.injEq, true_and]
    omega

theorem FileFits.absorb (hr : r.FileFits) (hm : Mergeable l r) (hl : l.start.asU64 ≤ l.end.asU64)
    (hne : r.start.asU64 ≤ r.end.asU64) : (l.absorb r).FileFits := by
  intro f off hb
  have habut := UserVirtAddr.eq_iff.mp hm.abut
  rcases continuesTo_iff.mp hm.backing with ⟨hb', -⟩ | ⟨f', o, o', hb', hbr, hoff⟩
  · exact absurd (hb'.symm.trans hb) (by simp)
  obtain ⟨rfl, rfl⟩ := VmaBacking.file.inj (hb'.symm.trans hb)
  have hlen : l.lenBytes.toNat = l.end.asU64 - l.start.asU64 := toNat_bits_sub hl
  have h := hr _ _ hbr
  show o.toNat + (r.end.asU64 - l.start.asU64) ≤ 2 ^ 64
  omega

end Vma

namespace VmaTree

/-- The contents, as a view that coalescing does not change. -/
def MergeView.content : MergeView Content where
  obs := Vma.content
  absorb_left _ := rfl
  absorb_right hm hl hva := by
    simp only [Vma.content, Vma.source_absorb_right hm hl hva]
    rw [← hm.mayProt, ← hm.flags, ← hm.anonName, ← hm.uffd, ← hm.mempolicy]
    rfl

open MergeView

/-! ### Properties of every VMA -/

variable {t t' : VmaTree} {v : Vma} {P : Vma → Prop} {start : UserVirtAddr} {stop : ℕ}

/-- Every VMA of the tree has the property. -/
def All (P : Vma → Prop) (t : VmaTree) : Prop := ∀ k v, t.map.get? k = some v → P v

theorem All.of_map_eq (h : t.All P) (he : t'.map = t.map) : t'.All P := by
  intro k v hv
  rw [he] at hv
  exact h k v hv

theorem All.without (h : t.All P) (k : UserVirtAddr) : (t.without k).All P := by
  intro k' v hv
  exact h k' v (of_get?_without hv).2

theorem All.store (h : t.All P) (hv : P v) : (t.store v).All P := by
  intro k w hw
  rw [get?_store] at hw
  split_ifs at hw
  · rwa [← some_inj.mp hw]
  · exact h k w hw

theorem All.storeOpt (h : t.All P) {o : Option Vma} (ho : ∀ w ∈ o, P w) : (t.storeOpt o).All P := by
  cases o with
  | none => exact h
  | some w => exact h.store (ho w rfl)

theorem All.splice (h : t.All P) {mid : Option Vma}
    (hp : ∀ w ∈ pieces mid start stop v, P w) : (t.splice v mid start stop).All P := by
  have hmem : ∀ w, w ∈ leftPiece start v ∨ w ∈ mid ∨ w ∈ rightPiece stop v → P w := by
    intro w hw
    refine hp w ?_
    simp only [pieces, List.mem_append, mem_toList]
    exact hw
  exact (((h.without _).storeOpt fun w hw => hmem w (.inl hw)).storeOpt
    fun w hw => hmem w (.inr (.inl hw))).storeOpt fun w hw => hmem w (.inr (.inr hw))

theorem AbsorbStep.all (hs : AbsorbStep t t' l r) (h : t.All P) (hP : P (l.absorb r)) : t'.All P :=
  (((h.without _).without _).store hP).of_map_eq hs.map_eq_store

/-! ### Reshaping -/

/-- One move of a range operation over `[start, end)`; `mid` is what it makes of the part of a
VMA inside the range.  An operation that leaves nothing there coalesces nothing. -/
inductive ReshapeStep (mid : Vma → Option Vma) (start : UserVirtAddr) («end» : ℕ) :
    VmaTree → VmaTree → Prop
  | cut {t t' : VmaTree} {v : Vma} (hv : t.map.get? v.start = some v) (hm : Meets start «end» v)
      (hmap : t'.map = (t.splice v (mid v) start «end»).map) : ReshapeStep mid start «end» t t'
  | merge {t t' : VmaTree} {l r : Vma} (hs : AbsorbStep t t' l r) (hmid : ∃ v, mid v ≠ none)
      (hlo : start.asU64 ≤ r.start.asU64) (hhi : r.start.asU64 ≤ «end») :
      ReshapeStep mid start «end» t t'

/-- The moves of a range operation over `[start, end)`. -/
def Reshape (mid : Vma → Option Vma) (start : UserVirtAddr) («end» : ℕ) :
    VmaTree → VmaTree → Prop :=
  Relation.ReflTransGen (ReshapeStep mid start «end»)

theorem MergesAround.reshape {mid : Vma → Option Vma} (hmid : ∃ v, mid v ≠ none)
    (h : MergesAround start.asU64 stop t t') : Reshape mid start stop t t' := by
  induction h with
  | refl => exact .refl
  | step hs _ hlo hhi _ ih => exact .head (.merge hs hmid hlo hhi) ih

/-- Removal is a sequence of cuts. -/
theorem removeRangeRawEnd_reshape (hw : t.WellFormed) {removed : List Vma}
    (h : t.removeRangeRawEnd start stop = .ok (removed, t')) :
    Reshape (fun _ => none) start stop t t' :=
  removeRangeRawEnd_rel (R := fun s s' => Reshape (fun _ => none) start stop s.2 s'.2)
    (fun _ => .refl) (fun h1 h2 => h1.trans h2) hw
    (fun _ hv hm _ hcut => .single (.cut hv hm hcut.map_eq)) h

section Invariants

variable {mid : Vma → Option Vma} (hfill : ∀ v, Fills start stop v (mid v))

include hfill

theorem ReshapeStep.wellFormed (h : ReshapeStep mid start stop t t') (hw : t.WellFormed) :
    t'.WellFormed := by
  cases h with
  | cut hv hm hmap => exact ((splice_spec hw hv hm (hfill _)).of_map_eq hmap).wellFormed
  | merge hs => exact hs.wellFormed hw

theorem Reshape.wellFormed (h : Reshape mid start stop t t') (hw : t.WellFormed) :
    t'.WellFormed := by
  induction h with
  | refl => exact hw
  | tail _ hs ih => exact hs.wellFormed hfill ih

/-- **A property that the pieces of a VMA and coalesced VMAs inherit.** -/
theorem Reshape.all (h : Reshape mid start stop t t') (hw : t.WellFormed) (hP : t.All P)
    (hcut : ∀ v, P v → Meets start stop v → ∀ w ∈ pieces (mid v) start stop v, P w)
    (habs : ∀ l r, P l → P r → Vma.Mergeable l r → l.start.asU64 < l.end.asU64 →
      r.start.asU64 < r.end.asU64 → start.asU64 ≤ r.start.asU64 → r.start.asU64 ≤ stop →
      (∃ v, mid v ≠ none) → P (l.absorb r)) : t'.All P := by
  induction h with
  | refl => exact hP
  | tail hrest hs ih =>
  have hw1 := Reshape.wellFormed hfill hrest hw
  cases hs with
  | cut hv hm hmap => exact (ih.splice (hcut _ (ih _ _ hv) hm)).of_map_eq hmap
  | merge hs hmid hlo hhi =>
    exact hs.all ih (habs _ _ (ih _ _ hs.left) (ih _ _ hs.right) hs.mergeable (hw1.nonempty hs.left)
      (hw1.nonempty hs.right) hlo hhi hmid)

end Invariants

/-- The pieces of a VMA, one by one. -/
theorem forall_mem_pieces {mid : Option Vma}
    (hleft : v.start.asU64 < start.asU64 → P (v.cloneSubrange v.start start))
    (hmid : ∀ m ∈ mid, P m)
    (hright : ∀ b : UserVirtAddr, b.asU64 = stop → b.asU64 < v.end.asU64 →
      P (v.cloneSubrange b v.end)) :
    ∀ w ∈ pieces mid start stop v, P w := by
  intro w hw
  simp only [pieces, List.mem_append, mem_toList] at hw
  rcases hw with hw | hw | hw
  · obtain ⟨hs, rfl⟩ := mem_leftPiece hw
    exact hleft hs
  · exact hmid w hw
  · obtain ⟨hs, rfl⟩ := mem_rightPiece hw
    have hb : (clipEnd stop v).asU64 = stop := rightPiece_start hw
    exact hright _ hb (by omega)

/-- What the operation makes of the inside of the range still shows what the VMA showed. -/
structure KeepsContent (mid : Vma → Option Vma) (start : UserVirtAddr) («end» : ℕ) : Prop where
  fills : ∀ v, Fills start «end» v (mid v)
  fileFits : ∀ v, v.FileFits → Meets start «end» v → ∀ m ∈ mid v, m.FileFits
  content_eq : ∀ v, v.FileFits → Meets start «end» v → ∀ m ∈ mid v, ∀ va, m.contains va = true →
    m.content va = v.content va

theorem keepsContent_none (start : UserVirtAddr) (stop : ℕ) :
    KeepsContent (fun _ => none) start stop where
  fills _ _ h := absurd h (by simp)
  fileFits _ _ _ _ h := absurd h (by simp)
  content_eq _ _ _ _ h := absurd h (by simp)

/-- A removal coalesces nothing, and leaves what is on the two sides of the range. -/
theorem Reshape.all_of_removal (h : Reshape (fun _ => none) start stop t t') (hw : t.WellFormed)
    (hP : t.All P)
    (hleft : ∀ v, P v → Meets start stop v → v.start.asU64 < start.asU64 →
      P (v.cloneSubrange v.start start))
    (hright : ∀ v, P v → Meets start stop v → ∀ b : UserVirtAddr, b.asU64 = stop →
      b.asU64 < v.end.asU64 → P (v.cloneSubrange b v.end)) : t'.All P := by
  refine h.all (keepsContent_none _ _).fills hw hP
    (fun v hv hm => forall_mem_pieces (hleft v hv hm) (by simp) (hright v hv hm)) ?_
  rintro l r - - - - - - - ⟨_, hmid⟩
  exact absurd rfl hmid

theorem Meets.clip (hm : Meets start stop v) :
    v.start.asU64 ≤ (clipStart start v).asU64 ∧ (clipStart start v).asU64 < (clipEnd stop v).asU64 ∧
      (clipEnd stop v).asU64 ≤ v.end.asU64 := by
  obtain ⟨h1, h2, h3, h4⟩ := hm
  have hs := clipStart_asU64 start v
  have he : (clipEnd stop v).asU64 = min stop v.end.asU64 := rfl
  omega

theorem keepsContent_prot (newProt : VmaProt) (pkey : Option (BitVec 8)) (start : UserVirtAddr)
    (stop : ℕ) :
    KeepsContent (fun v => some (protRewrite newProt pkey (midPiece start stop v))) start
      stop where
  fills v m hmem := by
    cases hmem
    exact ⟨rfl, rfl⟩
  fileFits v hfit hm m hmem := by
    cases hmem
    obtain ⟨h1, h2, h3⟩ := hm.clip
    exact hfit.cloneSubrange h1 h2 h3
  content_eq v hfit hm m hmem va hc := by
    cases hmem
    obtain ⟨h1, h2, h3⟩ := hm.clip
    obtain ⟨hc1, hc2⟩ := contains_iff.mp hc
    have hc1' : (clipStart start v).asU64 ≤ va.asU64 := hc1
    have hc2' : va.asU64 < (clipEnd stop v).asU64 := hc2
    exact content_cloneSubrange (b := clipEnd stop v) hfit h1 hc1' (by omega)

section Content

variable {mid : Vma → Option Vma} (hk : KeepsContent mid start stop)
include hk

theorem Reshape.fileFits (h : Reshape mid start stop t t') (hw : t.WellFormed)
    (hfit : t.All Vma.FileFits) : t'.All Vma.FileFits := by
  refine h.all hk.fills hw hfit (fun v hv hm => forall_mem_pieces ?_ (hk.fileFits v hv hm) ?_)
    fun l r _ hr hm hl hne _ _ _ => hr.absorb hm hl.le hne.le
  · intro hs
    exact hv.cloneSubrange le_rfl hs hm.start_lt.le
  · intro b hb hlt
    have := hm.lt_end
    exact hv.cloneSubrange (by omega) hlt le_rfl

/-- A move takes an address out of the tree only inside the range, and only if it puts nothing
there. -/
theorem ReshapeStep.content_eq (h : ReshapeStep mid start stop t t') (hw : t.WellFormed)
    (hfit : t.All Vma.FileFits) (va : UserVirtAddr) :
    view content t' va = view content t va ∨
      (start.asU64 ≤ va.asU64 ∧ va.asU64 < stop ∧ view content t' va = none ∧
        ∃ v, mid v = none) := by
  cases h with
  | merge hs => exact .inl (hs.view_eq content hw va)
  | @cut v hv hm hmap =>
  have hv' := hfit _ _ hv
  rw [((splice_spec hw hv hm (hk.fills v)).of_map_eq hmap).view_eq content va]
  by_cases hc : v.contains va = true
  · obtain ⟨hc1, hc2⟩ := Vma.contains_iff.mp hc
    rw [if_pos hc, view_of_get? content hw hv hc, pieceView]
    by_cases h1 : va.asU64 < start.asU64
    · rw [if_pos h1]
      exact .inl (congrArg some (Vma.content_cloneSubrange hv' le_rfl hc1 hc2))
    by_cases h2 : va.asU64 < stop
    · rw [if_neg h1, if_pos h2]
      cases hmid : mid v with
      | none => exact .inr ⟨by omega, h2, rfl, v, hmid⟩
      | some m =>
      have hs := (hk.fills v).start_asU64 hmid
      have he := (hk.fills v).end_asU64 hmid
      exact .inl (congrArg some (hk.content_eq v hv' hm m hmid va
        (Vma.contains_iff.mpr ⟨by omega, by omega⟩)))
    have hlt := hm.lt_end
    have hb : (clipEnd stop v).asU64 = min stop v.end.asU64 := rfl
    rw [if_neg h1, if_neg h2]
    exact .inl (congrArg some (Vma.content_cloneSubrange hv' (by omega) (by omega) hc2))
  · rw [if_neg hc]
    exact .inl rfl

/-- **An address shows what it showed before, or it was in the range and is not mapped.** -/
theorem Reshape.content_eq (h : Reshape mid start stop t t') (hw : t.WellFormed)
    (hfit : t.All Vma.FileFits) (va : UserVirtAddr) :
    view content t' va = view content t va ∨
      (start.asU64 ≤ va.asU64 ∧ va.asU64 < stop ∧ view content t' va = none ∧
        ∃ v, mid v = none) := by
  induction h with
  | refl => exact .inl rfl
  | tail hrest hs ih =>
  have hw1 := Reshape.wellFormed hk.fills hrest hw
  have hfit1 := Reshape.fileFits hk hrest hw hfit
  rcases hs.content_eq hk hw1 hfit1 va with heq | hgone
  · rw [heq]
    exact ih
  · exact .inr hgone

end Content

/-! ### Boundaries -/

section Boundaries

variable {mid : Vma → Option Vma}

/-- **The boundaries of the VMAs are old ones, or the ends of the range.** -/
theorem Reshape.all_ends (hk : KeepsContent mid start stop) (h : Reshape mid start stop t t')
    (hw : t.WellFormed) {A B : ℕ → Prop} (hall : t.All fun v => A v.start.asU64 ∧ B v.end.asU64)
    (hAs : A start.asU64) (hAe : A stop) (hBs : B start.asU64) (hBe : B stop) :
    t'.All fun v => A v.start.asU64 ∧ B v.end.asU64 := by
  refine h.all hk.fills hw hall (fun v hv hm => forall_mem_pieces ?_ ?_ ?_)
    fun l r hl hr _ _ _ _ _ _ => ⟨hl.1, hr.2⟩
  · intro _
    exact ⟨hv.1, hBs⟩
  · intro m hmem
    rw [(hk.fills v).start_asU64 hmem, (hk.fills v).end_asU64 hmem]
    constructor
    · rcases max_choice start.asU64 v.start.asU64 with h | h
      · rwa [h]
      · rw [h]
        exact hv.1
    rcases min_choice stop v.end.asU64 with h | h
    · rwa [h]
    · rw [h]
      exact hv.2
  · intro b hb _
    exact ⟨show A b.asU64 from hb ▸ hAe, hv.2⟩

/-- A tree has no more VMAs than there are starts for them. -/
theorem WellFormed.length_le (hw : t.WellFormed) {starts : List ℕ}
    (h : t.All fun v => v.start.asU64 ∈ starts) : t.map.values.length ≤ starts.length := by
  have hnodup : (t.map.values.map fun v => v.start.asU64).Nodup := by
    rw [List.Nodup, List.pairwise_map]
    refine (values_ordered hw).imp_of_mem fun {v w} hv _ hle => ?_
    obtain ⟨k, hk⟩ := mem_values_iff.mp hv
    have := hw.nonempty hk
    omega
  have hsub : (t.map.values.map fun v => v.start.asU64) ⊆ starts := by
    intro x hx
    obtain ⟨v, hv, rfl⟩ := List.mem_map.mp hx
    obtain ⟨k, hk⟩ := mem_values_iff.mp hv
    exact h k v hk
  have hle := (List.subperm_of_subset hnodup hsub).length_le
  rwa [List.length_map] at hle

/-- **A range operation adds at most two VMAs.** -/
theorem Reshape.length_le (hk : KeepsContent mid start stop) (h : Reshape mid start stop t t')
    (hw : t.WellFormed) : t'.map.values.length ≤ t.map.values.length + 2 := by
  set starts := start.asU64 :: stop :: t.map.values.map fun v => v.start.asU64 with hstarts
  have hold : t.All fun v => v.start.asU64 ∈ starts ∧ True := by
    intro k v hv
    refine ⟨?_, trivial⟩
    rw [List.mem_cons, List.mem_cons]
    exact .inr (.inr (List.mem_map.mpr ⟨v, mem_values_iff.mpr ⟨k, hv⟩, rfl⟩))
  have hnew := h.all_ends (B := fun _ => True) hk hw hold (by simp [hstarts])
    (by simp [hstarts]) trivial trivial
  have hle := (h.wellFormed hk.fills hw).length_le fun k v hv => (hnew k v hv).1
  simpa [hstarts] using hle

/-- Two VMAs of the tree are the same or apart. -/
theorem WellFormed.eq_or_apart (hw : t.WellFormed) {k' : UserVirtAddr} (hu : t.map.get? k = some u)
    (hv : t.map.get? k' = some v) :
    u = v ∨ u.end.asU64 ≤ v.start.asU64 ∨ v.end.asU64 ≤ u.start.asU64 := by
  by_cases hk : k = k'
  · rw [hk] at hu
    exact .inl (some_inj.mp (hu.symm.trans hv))
  · exact .inr (hw.disjoint hu hv hk)

/-- No VMA of the tree ends inside a part of one of them. -/
theorem WellFormed.end_apart (hw : t.WellFormed) (hu : t.Has u) {a b : ℕ} (ha : u.start.asU64 ≤ a)
    (hb : b ≤ u.end.asU64) : t.All fun v => True ∧ (v.end.asU64 ≤ a ∨ b ≤ v.end.asU64) := by
  intro k v hv
  refine ⟨trivial, ?_⟩
  have hne := hw.nonempty hv
  rcases hw.eq_or_apart hv hu with rfl | h | h
  · exact .inr hb
  · exact .inl (h.trans ha)
  · exact .inr (by omega)

/-- **A part of a VMA outside the range lies in one VMA afterwards.** -/
theorem Reshape.covers (hk : KeepsContent mid start stop) (h : Reshape mid start stop t t')
    (hw : t.WellFormed) (hfit : t.All Vma.FileFits) (hrange : start.asU64 < stop)
    (hu : t.Has u) {a b : ℕ} (ha : u.start.asU64 ≤ a) (hab : a < b)
    (hb : b ≤ u.end.asU64) (hout : b ≤ start.asU64 ∨ stop ≤ a) :
    ∃ u', t'.Has u' ∧ u'.start.asU64 ≤ a ∧ b ≤ u'.end.asU64 := by
  have hlt : a < USER_VA_END := (hab.trans_le hb).trans u.end.isUser
  -- the start of the part stays mapped
  have hview : view content t' ⟨a, hlt⟩ = view content t ⟨a, hlt⟩ := by
    rcases h.content_eq hk hw hfit ⟨a, hlt⟩ with heq | ⟨h1, h2, -⟩
    · exact heq
    · simp only at h1 h2
      omega
  rw [view_of_get? content hw hu (contains_iff.mpr ⟨ha, hab.trans_le hb⟩)] at hview
  obtain ⟨u', hu', hc1, hc2⟩ := (h.wellFormed hk.fills hw).exists_of_view hview
  simp only at hc1 hc2
  -- and no boundary has come to lie inside it
  have hends := h.all_ends (A := fun _ => True) (B := fun x => x ≤ a ∨ b ≤ x) hk hw
    (hw.end_apart hu ha hb) trivial trivial (by omega) (by omega)
  exact ⟨u', hu', hc1, by have := (hends _ _ hu').2; omega⟩

end Boundaries

/-! ### Insertion -/

theorem MergesAround.all {lo hi : ℕ} (h : MergesAround lo hi t t') (hw : t.WellFormed)
    (hP : t.All P)
    (habs : ∀ l r, P l → P r → Vma.Mergeable l r → l.start.asU64 < l.end.asU64 →
      r.start.asU64 < r.end.asU64 → lo ≤ r.start.asU64 → r.start.asU64 ≤ hi →
      P (l.absorb r)) : t'.All P := by
  induction h with
  | refl => exact hP
  | step hs _ hlo hhi _ ih =>
    exact ih (hs.wellFormed hw) (hs.all hP (habs _ _ (hP _ _ hs.left) (hP _ _ hs.right)
      hs.mergeable (hw.nonempty hs.left) (hw.nonempty hs.right) hlo hhi))

theorem Merges.view_eq {α : Type} (f : MergeView α) (h : Merges t t') (hw : t.WellFormed)
    (va : UserVirtAddr) : view f t' va = view f t va := by
  induction h with
  | refl => rfl
  | step hs _ _ ih => exact (ih (hs.wellFormed hw)).trans (hs.view_eq f hw va)

/-- What an insertion that succeeds leaves. -/
structure Inserted (t : VmaTree) (vma : Vma) (t' : VmaTree) : Prop where
  nonempty : vma.start.asU64 < vma.end.asU64
  fits : t.Fits vma
  put : (t.store vma).WellFormed
  merges : MergesAround vma.start.asU64 vma.end.asU64 (t.mapPut vma.start vma) t'

theorem insert_inserted {vma : Vma} (hw : t.WellFormed) (h : t.insert vma = .ok (.ok (), t')) :
    Inserted t vma t' := by
  rcases insert_run hw h with ⟨h', -⟩ | ⟨-, hne, hfit, hmerge⟩
  · cases h'
  · exact ⟨hne, hfit, hw.store hne hfit, hmerge⟩

namespace Inserted

variable {vma : Vma}

theorem wellFormed (h : Inserted t vma t') : t'.WellFormed :=
  h.merges.merges.wellFormed (h.put.of_map_eq rfl)

theorem all (h : Inserted t vma t') (hP : t.All P) (hv : P vma)
    (habs : ∀ l r, P l → P r → Vma.Mergeable l r → l.start.asU64 < l.end.asU64 →
      r.start.asU64 < r.end.asU64 → vma.start.asU64 ≤ r.start.asU64 →
      r.start.asU64 ≤ vma.end.asU64 → P (l.absorb r)) : t'.All P :=
  h.merges.all (h.put.of_map_eq rfl) ((hP.store hv).of_map_eq rfl) habs

theorem view_eq {α : Type} (f : MergeView α) (h : Inserted t vma t') (hw : t.WellFormed)
    (va : UserVirtAddr) :
    view f t' va = if vma.contains va then some (f.obs vma va) else view f t va := by
  rw [h.merges.merges.view_eq f (h.put.of_map_eq rfl), ← view_store f hw h.nonempty h.fits]
  exact view_congr rfl va

/-- A VMA covers the start of what was inserted. -/
theorem exists_find (h : Inserted t vma t') (hw : t.WellFormed) :
    ∃ v, t'.findContaining vma.start = some v := by
  have hview := h.view_eq content hw vma.start
  rw [if_pos (contains_iff.mpr ⟨le_rfl, h.nonempty⟩)] at hview
  obtain ⟨v, hfind, -⟩ := map_eq_some_iff.mp hview
  exact ⟨v, hfind⟩

/-- A VMA of the tree lies in one VMA afterwards. -/
theorem covers (h : Inserted t vma t') (hw : t.WellFormed) (hu : t.Has u) :
    ∃ u', t'.Has u' ∧ u'.start.asU64 ≤ u.start.asU64 ∧ u.end.asU64 ≤ u'.end.asU64 := by
  have hne := hw.nonempty hu
  have hne' := h.nonempty
  have hapart := h.fits _ _ hu
  have hview := h.view_eq content hw u.start
  rw [if_neg (by rw [contains_iff]; omega),
    view_of_get? content hw hu (contains_iff.mpr ⟨le_rfl, hne⟩)] at hview
  obtain ⟨u', hu', hc1, hc2⟩ := h.wellFormed.exists_of_view hview
  have hends := h.all (hw.end_apart hu le_rfl le_rfl) ⟨trivial, by omega⟩
    fun l r _ hr _ _ _ _ _ => hr
  exact ⟨u', hu', hc1, by have := (hends _ _ hu').2; omega⟩

end Inserted

/-! ### Updates in place -/

/-- One VMA has been replaced by another over the same range. -/
structure Updated (t : VmaTree) (v w : Vma) (t' : VmaTree) : Prop where
  stored : t.map.get? v.start = some v
  start_eq : w.start = v.start
  end_eq : w.end = v.end
  map_eq : t'.map = t.map.insert v.start w

namespace Updated

variable {w : Vma}

section

variable (h : Updated t v w t')
include h

theorem map_eq_store : t'.map = ((t.without v.start).store w).map := by
  rw [h.map_eq, store, h.start_eq]
  exact (insert_erase_self ..).symm

theorem fits (hw : t.WellFormed) : (t.without v.start).Fits w := by
  refine hw.fits_without h.stored ?_ ?_
  · rw [h.start_eq]
  · rw [h.end_eq]

theorem nonempty (hw : t.WellFormed) : w.start.asU64 < w.end.asU64 := by
  rw [h.start_eq, h.end_eq]
  exact hw.nonempty h.stored

theorem wellFormed (hw : t.WellFormed) : t'.WellFormed :=
  ((hw.without _).store (h.nonempty hw) (h.fits hw)).of_map_eq h.map_eq_store

theorem all (hP : t.All P) (hw : P w) : t'.All P :=
  ((hP.without _).store hw).of_map_eq h.map_eq_store

theorem get?_self : t'.map.get? v.start = some w := by
  rw [h.map_eq, get?_insert, if_pos rfl]

theorem get?_of_ne (hk : k ≠ v.start) : t'.map.get? k = t.map.get? k := by
  rw [h.map_eq, get?_insert, if_neg hk]

theorem contains_eq (va : UserVirtAddr) : w.contains va = v.contains va := by
  rw [contains, contains, h.start_eq, h.end_eq]

end

theorem view_eq {α : Type} (f : MergeView α) (h : Updated t v w t') (hw : t.WellFormed)
    (hobs : ∀ va, f.obs w va = f.obs v va) (va : UserVirtAddr) : view f t' va = view f t va := by
  rw [view_congr h.map_eq_store, view_store f (hw.without _) (h.nonempty hw) (h.fits hw),
    h.contains_eq]
  by_cases hc : v.contains va = true
  · rw [if_pos hc, hobs, view_of_get? f hw h.stored hc]
  · rw [if_neg hc, view_without f hw h.stored, if_neg hc]

/-- A VMA of the tree lies in one VMA afterwards. -/
theorem covers (h : Updated t v w t') (hu : t.Has u) :
    ∃ u', t'.Has u' ∧ u'.start.asU64 ≤ u.start.asU64 ∧ u.end.asU64 ≤ u'.end.asU64 := by
  by_cases hk : u.start = v.start
  · rw [Has, hk] at hu
    cases hu.symm.trans h.stored
    refine ⟨w, by rw [Has, h.start_eq]; exact h.get?_self, ?_, ?_⟩
    · rw [h.start_eq]
    · rw [h.end_eq]
  · exact ⟨u, (h.get?_of_ne hk).trans hu, le_rfl, le_rfl⟩

end Updated

end VmaTree

/-! ### Whole pages -/

/-- A VMA of whole pages, with a file range that does not wrap. -/
structure Vma.Whole (v : Vma) : Prop where
  start : v.start.asU64 % PAGE_SIZE_BYTES = 0
  «end» : v.end.asU64 % PAGE_SIZE_BYTES = 0
  fits : v.FileFits

theorem Vma.Whole.absorb (hl : l.Whole) (hr : r.Whole) (hm : Vma.Mergeable l r)
    (hnl : l.start.asU64 < l.end.asU64) (hnr : r.start.asU64 < r.end.asU64) : (l.absorb r).Whole :=
  ⟨hl.start, hr.end, hr.fits.absorb hm hnl.le hnr.le⟩

namespace VmaTree

variable {t t' : VmaTree} {start : UserVirtAddr} {stop : ℕ} {mid : Vma → Option Vma}

/-- A range operation over whole pages. -/
theorem Reshape.whole (hk : KeepsContent mid start stop) (h : Reshape mid start stop t t')
    (hw : t.WellFormed) (hp : t.All Vma.Whole) (hs : start.asU64 % PAGE_SIZE_BYTES = 0)
    (he : stop % PAGE_SIZE_BYTES = 0) : t'.All Vma.Whole := by
  have hends := h.all_ends (A := fun a => a % PAGE_SIZE_BYTES = 0)
    (B := fun a => a % PAGE_SIZE_BYTES = 0) hk hw
    (fun k v hv => ⟨(hp k v hv).start, (hp k v hv).end⟩) hs he hs he
  have hfits := h.fileFits hk hw fun k v hv => (hp k v hv).fits
  exact fun k v hv => ⟨(hends k v hv).1, (hends k v hv).2, hfits k v hv⟩

theorem Updated.whole {w : Vma} (hu : Updated t v w t') (hv : v.Whole)
    (hb : w.backing = v.backing) : w.Whole := by
  refine ⟨?_, ?_, fun f off hwb => ?_⟩
  · rw [hu.start_eq]
    exact hv.start
  · rw [hu.end_eq]
    exact hv.end
  · rw [hu.start_eq, hu.end_eq]
    exact hv.fits f off (hb.symm.trans hwb)

end VmaTree

end Oxide
