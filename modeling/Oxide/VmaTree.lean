/-
The VMA tree: lookup, insertion and coalescing.

`VmaTree` is an ordered map from start addresses to VMAs. It carries the trace of the
`vm_ops` hooks it has run, so that the balance of opens and closes stays visible. A run that
hits an `expect` or an indexing failure is a `Panic`.

* `WellFormed`: VMAs are keyed by their start, non-empty and pairwise disjoint;
* `AbsorbStep.wellFormed`, `AbsorbStep.view_eq`: one coalescing keeps this, and keeps whatever
  the addresses resolve to;
* `remerge_spec`: the pair of merge attempts that follows every rewrite: it cannot panic, and
  it removes the next key exactly when the rewritten VMA may absorb it.

A `MergeView` is an observation of (VMA, address) that no coalescing changes; `view` is its
pointwise reading of the tree. Every range operation is described by what it does to views.
-/
import Oxide.OrdMap
import Oxide.Vma

namespace Oxide

open OrdMap UserVirtAddr Vma Option

variable {α : Type} {k' va : UserVirtAddr} {cur l m v' w : Vma} {t' : VmaTree}

/-- Errors of the VMM. -/
inductive Error
  | notImplemented
  | noMem
  | inval
  | fault
  | perm
  | again
  | access
  | io
  deriving DecidableEq

/-- A failed `expect` or indexing operation, with its text. -/
structure Panic where
  msg : String
  deriving DecidableEq

/-- `Option::expect`. -/
def expect {α : Type} (o : Option α) (msg : String) : Except Panic α :=
  match o with
  | some a => .ok a
  | none => .error ⟨msg⟩

@[simp] theorem expect_some (a : α) (msg : String) : expect (some a) msg = .ok a := rfl

@[simp] theorem expect_none (msg : String) :
    expect (none : Option α) msg = .error ⟨msg⟩ := rfl

/-- One run of a `vm_ops` hook. -/
inductive VmEvent
  | opened (v : Vma)
  | closed (v : Vma)
  deriving DecidableEq

/-- The VMAs of an address space, keyed by start. -/
structure VmaTree where
  map : OrdMap UserVirtAddr Vma
  /-- The hooks run so far, latest first. -/
  events : List VmEvent

namespace VmaTree

/-! ### Operations -/

/-- The tree without a VMA. -/
def new : VmaTree := ⟨OrdMap.empty, []⟩

section

variable (t : VmaTree)

def vmaOpened (v : Vma) : VmaTree := { t with events := .opened v :: t.events }

def vmaClosed (v : Vma) : VmaTree := { t with events := .closed v :: t.events }

section

variable (key : UserVirtAddr)

/-- Every VMA that enters the tree goes through here, after its open hook. -/
def mapPut (vma : Vma) : VmaTree :=
  { t.vmaOpened vma with map := t.map.insert key vma }

/-- Put a VMA back that never left as far as the hooks are concerned. -/
def mapReinsert (vma : Vma) : VmaTree :=
  { t with map := t.map.insert key vma }

/-- Take a VMA out without running its close hook. -/
def mapTake : Option (Vma × VmaTree) :=
  (t.map.get? key).map fun v => (v, { t with map := t.map.erase key })

/-- The VMA containing `va`. -/
def findContaining (va : UserVirtAddr) : Option Vma :=
  match t.map.floor? va with
  | some (_, v) => if v.contains va then some v else none
  | none => none

/-- Coalesce the VMA at `key` into its left neighbour if they are mergeable. -/
def tryMergeLeft : Except Panic VmaTree :=
  match t.map.prev? key with
  | none => .ok t
  | some (lk, _) => do
    let left ← expect (t.map.get? lk) "no entry found for key"
    let cur ← expect (t.map.get? key) "no entry found for key"
    if left.mergeableWithNext cur then
      let (cur, t) ← expect (t.mapTake key) "just-inserted key"
      let t := t.vmaClosed cur
      let left ← expect (t.map.get? lk) "left-floor key"
      return t.mapReinsert lk (left.absorb cur)
    else
      return t

/-- Coalesce the right neighbour of the VMA at `key` into it if they are mergeable. -/
def tryMergeRight : Except Panic VmaTree :=
  match t.map.next? key with
  | none => .ok t
  | some (rk, _) => do
    let cur ← expect (t.map.get? key) "no entry found for key"
    let right ← expect (t.map.get? rk) "no entry found for key"
    if cur.mergeableWithNext right then
      let (right, t) ← expect (t.mapTake rk) "right-ceil key"
      let t := t.vmaClosed right
      let cur ← expect (t.map.get? key) "merge-target key"
      return t.mapReinsert key (cur.absorb right)
    else
      return t

end

/-- Both merge attempts around the VMA at `key`.  After a left coalescing the VMA lives under
the key before `key`; `orphan` is what the caller does when there is none. -/
def remerge (orphan : Except Panic UserVirtAddr) (t : VmaTree) (key : UserVirtAddr) :
    Except Panic VmaTree := do
  let t ← t.tryMergeLeft key
  let afterLeft ←
    if (t.map.get? key).isSome then .ok key
    else match t.map.prev? key with
      | some (k, _) => .ok k
      | none => orphan
  t.tryMergeRight afterLeft

/-- Insert a VMA; degenerate and overlapping ranges are refused. -/
def insert (vma : Vma) : Except Panic (Except Error Unit × VmaTree) :=
  if vma.start.asU64 ≥ vma.end.asU64 then .ok (.error .inval, t)
  else if (t.map.floor? vma.start).any fun p => p.2.end.asU64 > vma.start.asU64 then
    .ok (.error .inval, t)
  else if (t.map.next? vma.start).any fun n => n.2.start.asU64 < vma.end.asU64 then
    .ok (.error .inval, t)
  else do
    let key := vma.start
    let t ← (t.mapPut key vma).remerge (.ok key) key
    return (.ok (), t)

/-- Extend a `GROWSDOWN` VMA downwards. -/
def extendGrowsdownStart (currentStart newStart : UserVirtAddr) : Except Error Unit × VmaTree :=
  if newStart.asU64 ≥ currentStart.asU64 then (.error .inval, t)
  else if newStart.asU64 % PAGE_SIZE_BYTES ≠ 0 then (.error .inval, t)
  else if (t.map.prev? currentStart).any fun l => l.2.end.asU64 > newStart.asU64 then
    (.error .inval, t)
  else match t.mapTake currentStart with
    | none => (.error .inval, t)
    | some (v, t') =>
      if bitsContain v.flags VmaFlags.GROWSDOWN then
        (.ok (), t'.mapReinsert newStart { v with start := newStart })
      else
        (.error .inval, t'.mapReinsert currentStart v)

theorem mapPut_map (k : UserVirtAddr) (v : Vma) : (mapPut t k v).map = t.map.insert k v := rfl

theorem mapReinsert_map (k : UserVirtAddr) (v : Vma) :
    (mapReinsert t k v).map = t.map.insert k v := rfl

end

/-! ### Well-formed trees -/

/-- The VMA is in the tree. -/
@[reducible]
def Has (t : VmaTree) (v : Vma) : Prop := t.map.get? v.start = some v

/-- VMAs are keyed by their start, non-empty and pairwise disjoint. -/
structure WellFormed (t : VmaTree) : Prop where
  keyed : ∀ {k v}, t.map.get? k = some v → v.start = k
  nonempty : ∀ {k v}, t.map.get? k = some v → v.start.asU64 < v.end.asU64
  disjoint : ∀ {k k' v v'}, t.map.get? k = some v → t.map.get? k' = some v' → k ≠ k' →
    v.end.asU64 ≤ v'.start.asU64 ∨ v'.end.asU64 ≤ v.start.asU64

/-- The range of `v` meets no VMA of the tree. -/
def Fits (t : VmaTree) (v : Vma) : Prop :=
  ∀ k' v', t.map.get? k' = some v' → v'.end.asU64 ≤ v.start.asU64 ∨ v.end.asU64 ≤ v'.start.asU64

variable {t : VmaTree} {v : Vma} {k : UserVirtAddr}

theorem WellFormed.has (hw : t.WellFormed) (h : t.map.get? k = some v) : t.Has v := by
  rwa [Has, hw.keyed h]

theorem WellFormed.end_le (hw : t.WellFormed) (hv : t.map.get? k = some v)
    (hv' : t.map.get? k' = some v') (hlt : k < k') : v.end.asU64 ≤ v'.start.asU64 := by
  have hk := hw.keyed hv
  have hk' := hw.keyed hv'
  have hne' := hw.nonempty hv'
  have hlt' : v.start.asU64 < v'.start.asU64 := by rwa [hk, hk']
  rcases hw.disjoint hv hv' hlt.ne with h | h
  · exact h
  · omega

theorem WellFormed.of_map_eq (hw : t.WellFormed) (h : t'.map = t.map) : t'.WellFormed := by
  refine ⟨?_, ?_, ?_⟩
  · rw [h]; exact hw.keyed
  · rw [h]; exact hw.nonempty
  · rw [h]; exact hw.disjoint

theorem WellFormed.new : VmaTree.new.WellFormed where
  keyed h := absurd h (by simp [VmaTree.new])
  nonempty h := absurd h (by simp [VmaTree.new])
  disjoint h := absurd h (by simp [VmaTree.new])

theorem fits_new (v : Vma) : VmaTree.new.Fits v :=
  fun _ _ h => absurd h (by simp [VmaTree.new])

/-- The tree without the entry at `k`. -/
def without (t : VmaTree) (k : UserVirtAddr) : VmaTree := { t with map := t.map.erase k }

/-- The tree with `v` stored under its start. -/
def store (t : VmaTree) (v : Vma) : VmaTree := { t with map := t.map.insert v.start v }

theorem get?_without : (t.without k).map.get? k' = if k' = k then none else t.map.get? k' :=
  get?_erase ..

theorem get?_store : (t.store v).map.get? k' = if k' = v.start then some v else t.map.get? k' :=
  get?_insert ..

theorem get?_without_of_ne (h : k' ≠ k) : (t.without k).map.get? k' = t.map.get? k' := by
  rw [get?_without, if_neg h]

theorem get?_store_self : (t.store v).map.get? v.start = some v := by
  rw [get?_store, if_pos rfl]

theorem of_get?_without (h : (t.without k).map.get? k' = some v') :
    k' ≠ k ∧ t.map.get? k' = some v' :=
  of_get?_erase h

theorem WellFormed.without (hw : t.WellFormed) (k : UserVirtAddr) : (t.without k).WellFormed where
  keyed h := hw.keyed (of_get?_without h).2
  nonempty h := hw.nonempty (of_get?_without h).2
  disjoint h h' := hw.disjoint (of_get?_without h).2 (of_get?_without h').2

theorem WellFormed.store (hw : t.WellFormed) (hne : v.start.asU64 < v.end.asU64)
    (hf : t.Fits v) : (t.store v).WellFormed := by
  -- an entry of the new tree is `v` itself or an entry of the old one
  have hcase : ∀ {k' v'}, (t.store v).map.get? k' = some v' →
      (k' = v.start ∧ v' = v) ∨ t.map.get? k' = some v' := by
    intro k' v' h
    exact (of_get?_insert h).imp_right And.right
  refine ⟨fun h => ?_, fun h => ?_, fun {k1 k2 v1 v2} h1 h2 hk => ?_⟩
  · rcases hcase h with ⟨rfl, rfl⟩ | h
    · rfl
    · exact hw.keyed h
  · rcases hcase h with ⟨rfl, rfl⟩ | h
    · exact hne
    · exact hw.nonempty h
  rcases hcase h1 with ⟨hk1, hv1⟩ | h1 <;> rcases hcase h2 with ⟨hk2, hv2⟩ | h2
  · exact absurd (hk1.trans hk2.symm) hk
  · exact hv1 ▸ (hf _ _ h2).symm
  · exact hv2 ▸ hf _ _ h1
  · exact hw.disjoint h1 h2 hk

/-- A part of a VMA that has been taken out fits where the VMA was. -/
theorem WellFormed.fits_without (hw : t.WellFormed) (hv : t.map.get? k = some v)
    (hs : v.start.asU64 ≤ w.start.asU64) (he : w.end.asU64 ≤ v.end.asU64) :
    (t.without k).Fits w := by
  intro k' v' h
  obtain ⟨hne, h'⟩ := of_get?_without h
  rcases hw.disjoint h' hv hne with hd | hd
  · exact .inl (hd.trans hs)
  · exact .inr (he.trans hd)

theorem Fits.store (hf : t.Fits w)
    (hd : v.end.asU64 ≤ w.start.asU64 ∨ w.end.asU64 ≤ v.start.asU64) : (t.store v).Fits w := by
  intro k' v' h
  rw [get?_store] at h
  split_ifs at h with hk
  · rwa [← some_inj.mp h]
  · exact hf _ _ h

/-! ### Lookup -/

theorem findContaining_eq_some_iff (hw : t.WellFormed) :
    t.findContaining va = some v ↔ t.map.get? v.start = some v ∧ v.contains va = true := by
  constructor
  · intro h
    unfold findContaining at h
    split at h
    · rename_i k' v' hf
      split_ifs at h with hc
      cases h
      obtain ⟨hg, -, -⟩ := floor?_eq_some_iff.mp hf
      exact ⟨hw.has hg, hc⟩
    · cases h
  rintro ⟨hg, hc⟩
  have hb := contains_iff.mp hc
  have hf : t.map.floor? va = some (v.start, v) := by
    refine floor?_eq_some_iff.mpr ⟨hg, hb.1, fun k'' v'' hg'' hle => ?_⟩
    by_contra hlt
    -- a key in between would start inside `v`
    have := hw.end_le hg hg'' (not_le.mp hlt)
    rw [hw.keyed hg''] at this
    have := le_iff.mp hle
    omega
  simp [findContaining, hf, hc]

theorem findContaining_store (hw : t.WellFormed) (hne : v.start.asU64 < v.end.asU64)
    (hf : t.Fits v) (va : UserVirtAddr) :
    (t.store v).findContaining va = if v.contains va then some v else t.findContaining va := by
  have hw' := hw.store hne hf
  ext w
  rw [findContaining_eq_some_iff hw', get?_store]
  split_ifs with hs hc hc
  · -- `w` is looked up at the start of `v`, which covers `va`
    constructor
    · rintro ⟨h, -⟩
      exact h
    · intro h
      exact ⟨h, some_inj.mp h ▸ hc⟩
  · constructor
    · rintro ⟨h, hcw⟩
      exact absurd (some_inj.mp h ▸ hcw) hc
    intro h
    obtain ⟨hg, -⟩ := (findContaining_eq_some_iff hw).mp h
    have := hf _ _ hg
    have := hw.nonempty hg
    have := eq_iff.mp hs
    omega
  · constructor
    · rintro ⟨hg, hcw⟩
      have := hf _ _ hg
      have := contains_iff.mp hc
      have := contains_iff.mp hcw
      omega
    · intro h
      exact absurd (some_inj.mp h ▸ rfl) hs
  · exact (findContaining_eq_some_iff hw).symm

theorem findContaining_without (hw : t.WellFormed) (hv : t.map.get? k = some v)
    (va : UserVirtAddr) :
    (t.without k).findContaining va =
      if v.contains va then none else t.findContaining va := by
  ext w
  rw [findContaining_eq_some_iff (hw.without k), get?_without]
  split_ifs with hs hc hc
  · simp
  · constructor
    · rintro ⟨h, -⟩
      cases h
    intro h
    obtain ⟨hg, hcw⟩ := (findContaining_eq_some_iff hw).mp h
    rw [hs, hv] at hg
    exact absurd (some_inj.mp hg ▸ hcw) hc
  · constructor
    · rintro ⟨hg, hcw⟩
      have := hw.disjoint hg hv hs
      have := contains_iff.mp hc
      have := contains_iff.mp hcw
      omega
    · intro h
      cases h
  · exact (findContaining_eq_some_iff hw).symm

/-! ### Views -/

/-- An observation of an address through the VMA that covers it which no coalescing changes. -/
structure MergeView (α : Type) where
  obs : Vma → UserVirtAddr → α
  absorb_left : ∀ {l r : Vma} {va}, Vma.Mergeable l r → obs (l.absorb r) va = obs l va
  absorb_right : ∀ {l r : Vma} {va}, Vma.Mergeable l r → l.start.asU64 ≤ l.end.asU64 →
    r.start.asU64 ≤ va.asU64 → obs (l.absorb r) va = obs r va

/-- The backing location is such an observation. -/
def MergeView.location : MergeView Location where
  obs := Vma.location
  absorb_left _ := rfl
  absorb_right hm hl hva := location_absorb_right hm hl hva

/-- The observation of each mapped address. -/
def view {α : Type} (f : MergeView α) (t : VmaTree) (va : UserVirtAddr) : Option α :=
  (t.findContaining va).map fun v => f.obs v va

theorem view_congr {f : MergeView α} (h : t'.map = t.map) (va : UserVirtAddr) :
    view f t' va = view f t va := by
  rw [view, view, findContaining, findContaining, h]

theorem view_store (f : MergeView α) (hw : t.WellFormed) (hne : v.start.asU64 < v.end.asU64)
    (hf : t.Fits v) (va : UserVirtAddr) :
    view f (t.store v) va = if v.contains va then some (f.obs v va) else view f t va := by
  rw [view, findContaining_store hw hne hf]
  by_cases hc : v.contains va = true
  · rw [if_pos hc, if_pos hc]
    rfl
  · rw [if_neg hc, if_neg hc]
    rfl

theorem view_without (f : MergeView α) (hw : t.WellFormed) (hv : t.map.get? k = some v)
    (va : UserVirtAddr) :
    view f (t.without k) va = if v.contains va then none else view f t va := by
  rw [view, findContaining_without hw hv]
  by_cases hc : v.contains va = true
  · rw [if_pos hc, if_pos hc]
    rfl
  · rw [if_neg hc, if_neg hc]
    rfl

theorem view_of_get? (f : MergeView α) (hw : t.WellFormed) (hv : t.map.get? k = some v)
    (hc : v.contains va = true) : view f t va = some (f.obs v va) := by
  have hfind : t.findContaining va = some v :=
    (findContaining_eq_some_iff hw).mpr ⟨hw.has hv, hc⟩
  rw [view, hfind]
  rfl

theorem WellFormed.exists_of_view {f : MergeView α} {c : α} (hw : t.WellFormed)
    (h : view f t va = some c) :
    ∃ v, t.Has v ∧ v.start.asU64 ≤ va.asU64 ∧ va.asU64 < v.end.asU64 := by
  obtain ⟨v, hfind, -⟩ := map_eq_some_iff.mp h
  obtain ⟨hv, hc⟩ := (findContaining_eq_some_iff hw).mp hfind
  exact ⟨v, hv, contains_iff.mp hc⟩

/-! ### Coalescing -/

/-- One coalescing: two mergeable neighbours of the tree become one VMA. -/
structure AbsorbStep (t t' : VmaTree) (l r : Vma) : Prop where
  left : t.map.get? l.start = some l
  right : t.map.get? r.start = some r
  mergeable : Vma.Mergeable l r
  map_eq : t'.map = (t.map.erase r.start).insert l.start (l.absorb r)

namespace AbsorbStep

variable {t t' : VmaTree} {l r : Vma}

section

variable (hs : AbsorbStep t t' l r)
include hs

theorem start_lt (hw : t.WellFormed) : l.start < r.start := by
  have h := eq_iff.mp hs.mergeable.abut
  have hl := hw.nonempty hs.left
  rw [lt_iff]
  omega

/-- The tree after the step, as two removals and one insertion. -/
theorem map_eq_store : t'.map = (((t.without r.start).without l.start).store (l.absorb r)).map := by
  rw [hs.map_eq]
  exact (insert_erase_self ..).symm

private theorem parts (hw : t.WellFormed) :
    ((t.without r.start).without l.start).WellFormed ∧
    ((t.without r.start).without l.start).Fits (l.absorb r) ∧
    (l.absorb r).start.asU64 < (l.absorb r).end.asU64 := by
  have hl := hw.nonempty hs.left
  have hr := hw.nonempty hs.right
  have habut := eq_iff.mp hs.mergeable.abut
  refine ⟨(hw.without _).without _, ?_, ?_⟩
  · intro k' v' h
    obtain ⟨hkl, h⟩ := of_get?_without h
    obtain ⟨hkr, h⟩ := of_get?_without h
    have h1 := hw.disjoint h hs.left hkl
    have h2 := hw.disjoint h hs.right hkr
    have h3 := hw.nonempty h
    show v'.end.asU64 ≤ l.start.asU64 ∨ r.end.asU64 ≤ v'.start.asU64
    omega
  · show l.start.asU64 < r.end.asU64
    omega

theorem wellFormed (hw : t.WellFormed) : t'.WellFormed := by
  obtain ⟨hw', hf, hne⟩ := hs.parts hw
  exact (hw'.store hne hf).of_map_eq hs.map_eq_store

end

/-- A coalescing changes no view. -/
theorem view_eq (f : MergeView α) (hs : AbsorbStep t t' l r) (hw : t.WellFormed)
    (va : UserVirtAddr) : view f t' va = view f t va := by
  obtain ⟨hw', hf, hne⟩ := hs.parts hw
  have hl := hw.nonempty hs.left
  have hr := hw.nonempty hs.right
  have habut := eq_iff.mp hs.mergeable.abut
  have hleft : (t.without r.start).Has l := by
    rw [Has, get?_without_of_ne (hs.start_lt hw).ne]
    exact hs.left
  rw [view_congr hs.map_eq_store, view_store f hw' hne hf, view_without f (hw.without _) hleft,
    view_without f hw hs.right]
  -- an address of the survivor lies in exactly one of the two parts
  by_cases hcl : l.contains va = true
  · have hc : (l.absorb r).contains va = true := by
      rw [contains_iff] at hcl ⊢
      exact ⟨hcl.1, show va.asU64 < r.end.asU64 by omega⟩
    rw [if_pos hc, f.absorb_left hs.mergeable, view_of_get? f hw hs.left hcl]
  by_cases hcr : r.contains va = true
  · have hb := contains_iff.mp hcr
    have hc : (l.absorb r).contains va = true := by
      rw [contains_iff]
      exact ⟨show l.start.asU64 ≤ va.asU64 by omega, hb.2⟩
    rw [if_pos hc, f.absorb_right hs.mergeable hl.le hb.1, view_of_get? f hw hs.right hcr]
  have hc : ¬ (l.absorb r).contains va = true := by
    rw [contains_iff] at hcl hcr ⊢
    show ¬ (l.start.asU64 ≤ va.asU64 ∧ va.asU64 < r.end.asU64)
    omega
  rw [if_neg hc, if_neg hcl, if_neg hcr]

variable (hs : AbsorbStep t t' l r)
include hs

theorem get?_left : t'.map.get? l.start = some (l.absorb r) := by
  rw [hs.map_eq, get?_insert, if_pos rfl]

theorem get?_right (hw : t.WellFormed) : t'.map.get? r.start = none := by
  rw [hs.map_eq, get?_insert, if_neg (hs.start_lt hw).ne', get?_erase, if_pos rfl]

theorem get?_other (hl : k' ≠ l.start) (hr : k' ≠ r.start) : t'.map.get? k' = t.map.get? k' := by
  rw [hs.map_eq, get?_insert, if_neg hl, get?_erase, if_neg hr]

end AbsorbStep

/-- A left merge attempt is one coalescing with the key before, or leaves the tree alone. -/
theorem tryMergeLeft_spec (hw : t.WellFormed) (hcur : t.Has cur) :
    ∃ t', t.tryMergeLeft cur.start = .ok t' ∧
      (t' = t ∨ ∃ l, t.map.prev? cur.start = some (l.start, l) ∧ AbsorbStep t t' l cur ∧
        t'.events = .closed cur :: t.events) := by
  cases hp : t.map.prev? cur.start with
  | none => exact ⟨t, by rw [tryMergeLeft, hp], .inl rfl⟩
  | some p =>
  obtain ⟨lk, l⟩ := p
  obtain ⟨hl, hlt, -⟩ := prev?_eq_some_iff.mp hp
  obtain rfl := hw.keyed hl
  by_cases hm : l.mergeableWithNext cur = true
  · refine ⟨⟨(t.map.erase cur.start).insert l.start (l.absorb cur), .closed cur :: t.events⟩,
      ?_, .inr ⟨l, rfl, ⟨hl, hcur, mergeableWithNext_iff.mp hm, rfl⟩, rfl⟩⟩
    simp [tryMergeLeft, hp, hl, hcur, hm, mapTake, vmaClosed, mapReinsert, hlt.ne, bind,
      Except.bind, pure, Except.pure]
  · simp [tryMergeLeft, hp, hl, hcur, hm, bind, Except.bind, pure, Except.pure]

/-- A right merge attempt coalesces with the key after exactly when the test allows it. -/
theorem tryMergeRight_spec (hw : t.WellFormed) (hcur : t.Has cur) :
    ∃ t', t.tryMergeRight cur.start = .ok t' ∧
      ((t' = t ∧ ∀ r, t.map.next? cur.start = some (r.start, r) → ¬ Vma.Mergeable cur r) ∨
        ∃ r, t.map.next? cur.start = some (r.start, r) ∧ AbsorbStep t t' cur r ∧
          t'.events = .closed r :: t.events) := by
  cases hn : t.map.next? cur.start with
  | none => exact ⟨t, by rw [tryMergeRight, hn], .inl ⟨rfl, by simp⟩⟩
  | some p =>
  obtain ⟨rk, r⟩ := p
  obtain ⟨hr, hlt, -⟩ := next?_eq_some_iff.mp hn
  obtain rfl := hw.keyed hr
  by_cases hm : cur.mergeableWithNext r = true
  · refine ⟨⟨(t.map.erase r.start).insert cur.start (cur.absorb r), .closed r :: t.events⟩,
      ?_, .inr ⟨r, rfl, ⟨hcur, hr, mergeableWithNext_iff.mp hm, rfl⟩, rfl⟩⟩
    simp [tryMergeRight, hn, hr, hcur, hm, mapTake, vmaClosed, mapReinsert, hlt.ne, bind,
      Except.bind, pure, Except.pure]
  refine ⟨t, ?_, .inl ⟨rfl, fun r' h => ?_⟩⟩
  · simp [tryMergeRight, hn, hr, hcur, hm, bind, Except.bind, pure, Except.pure]
  · obtain ⟨-, rfl⟩ := Prod.mk.inj (some_inj.mp h)
    exact fun hmm => hm (mergeableWithNext_iff.mpr hmm)

/-- The keys above the survivor of a coalescing are the keys above the absorbed VMA. -/
theorem AbsorbStep.get?_above (hs : AbsorbStep t t' l m) (hw : t.WellFormed) :
    (t'.map.get? k' = some w ∧ l.start < k') ↔ (t.map.get? k' = some w ∧ m.start < k') := by
  have hlt := hs.start_lt hw
  constructor
  · intro ⟨hg, hk⟩
    have hne : k' ≠ m.start := by
      intro h
      rw [h, hs.get?_right hw] at hg
      cases hg
    rw [hs.get?_other hk.ne' hne] at hg
    have hend := hw.end_le hs.left hg hk
    rw [hs.mergeable.abut, hw.keyed hg] at hend
    exact ⟨hg, lt_of_le_of_ne hend (Ne.symm hne)⟩
  · intro ⟨hg, hk⟩
    exact ⟨by rwa [hs.get?_other (hlt.trans hk).ne' hk.ne'], hlt.trans hk⟩

theorem AbsorbStep.next?_iff (hs : AbsorbStep t t' l m) (hw : t.WellFormed) :
    t'.map.next? l.start = some (k', w) ↔ t.map.next? m.start = some (k', w) := by
  rw [next?_eq_some_iff, next?_eq_some_iff]
  constructor
  · intro ⟨hg, hk, hmin⟩
    obtain ⟨hg', hk'⟩ := (hs.get?_above hw).mp ⟨hg, hk⟩
    refine ⟨hg', hk', fun k'' v'' h h' => ?_⟩
    obtain ⟨h1, h1'⟩ := (hs.get?_above hw).mpr ⟨h, h'⟩
    exact hmin k'' v'' h1 h1'
  intro ⟨hg, hk, hmin⟩
  obtain ⟨hg', hk'⟩ := (hs.get?_above hw).mpr ⟨hg, hk⟩
  refine ⟨hg', hk', fun k'' v'' h h' => ?_⟩
  obtain ⟨h1, h1'⟩ := (hs.get?_above hw).mp ⟨h, h'⟩
  exact hmin k'' v'' h1 h1'

/-- What the merge attempts around `mid` leave behind. -/
structure Remerged (t : VmaTree) (mid : Vma) (t' : VmaTree) : Prop where
  wellFormed : t'.WellFormed
  view_eq : ∀ {α : Type} (f : MergeView α) (va : UserVirtAddr), view f t' va = view f t va
  /-- The next VMA is gone when `mid` may absorb it. -/
  consumed : ∀ {w}, t.map.next? mid.start = some (w.start, w) → Vma.Mergeable mid w →
    t'.map.get? w.start = none
  /-- Every other VMA above is untouched. -/
  kept : ∀ {k' w}, mid.start < k' → t.map.get? k' = some w →
    ¬ (t.map.next? mid.start = some (k', w) ∧ Vma.Mergeable mid w) → t'.map.get? k' = some w

/-- A right merge attempt by a VMA that may absorb what `mid` could, in a tree that agrees with
the one around `mid` above it. -/
private theorem tryMergeRight_remerged (t : VmaTree) {t1 : VmaTree} (mid cur : Vma)
    (hw1 : t1.WellFormed)
    (hcur : t1.Has cur) (hle : cur.start ≤ mid.start)
    (hview : ∀ {α : Type} (f : MergeView α) va, view f t1 va = view f t va)
    (hmerge : ∀ r, Vma.Mergeable cur r ↔ Vma.Mergeable mid r)
    (hnext : ∀ {k' w}, t1.map.next? cur.start = some (k', w) ↔ t.map.next? mid.start = some (k', w))
    (habove : ∀ {k' w}, mid.start < k' → t.map.get? k' = some w → t1.map.get? k' = some w) :
    ∃ t', t1.tryMergeRight cur.start = .ok t' ∧ Remerged t mid t' := by
  obtain ⟨t', ht', ⟨rfl, hno⟩ | ⟨r, hr, hs, -⟩⟩ := tryMergeRight_spec hw1 hcur
  · refine ⟨t', ht', hw1, hview, fun {w} hn hm => ?_, fun hk hg _ => habove hk hg⟩
    exact absurd ((hmerge w).mpr hm) (hno w (hnext.mpr hn))
  refine ⟨t', ht', hs.wellFormed hw1, fun f va => ?_, fun {w} hn _ => ?_,
    fun {k' w} hk hg hneg => ?_⟩
  · rw [hs.view_eq f hw1 va, hview f va]
  · obtain ⟨-, rfl⟩ := Prod.mk.inj (some_inj.mp (hr.symm.trans (hnext.mpr hn)))
    exact hs.get?_right hw1
  have hg1 := habove hk hg
  have hne : k' ≠ r.start := by
    intro h
    rw [h, hs.right] at hg1
    cases hg1
    exact hneg ⟨h ▸ hnext.mp hr, (hmerge r).mp hs.mergeable⟩
  rwa [hs.get?_other (lt_of_le_of_lt hle hk).ne' hne]

/-- **The merge attempts around a VMA of a well-formed tree cannot panic**, keep the tree
well-formed and every view, and take away the next key exactly when the VMA may absorb it. -/
theorem remerge_spec (hw : t.WellFormed) {mid : Vma} (hmid : t.Has mid)
    (orphan : Except Panic UserVirtAddr) :
    ∃ t', t.remerge orphan mid.start = .ok t' ∧ Remerged t mid t' := by
  have hne := hw.nonempty hmid
  obtain ⟨t1, ht1, rfl | ⟨l, hl, hs, -⟩⟩ := tryMergeLeft_spec hw hmid
  · obtain ⟨t', ht', hr⟩ := tryMergeRight_remerged t1 mid mid hw hmid le_rfl
      (fun f va => rfl) (fun _ => Iff.rfl) Iff.rfl (fun _ h => h)
    refine ⟨t', ?_, hr⟩
    simp [remerge, ht1, hmid, ht', bind, Except.bind]
  -- the VMA now lives under its left neighbour's key
  have hw1 := hs.wellFormed hw
  have hlne := hw.nonempty hs.left
  have hlt := hs.start_lt hw
  have hnone := hs.get?_right hw
  have hprev : t1.map.prev? mid.start = some (l.start, l.absorb mid) := by
    refine prev?_eq_some_iff.mpr ⟨hs.get?_left, hlt, fun k'' v'' hg hk => ?_⟩
    obtain ⟨-, -, hmax⟩ := prev?_eq_some_iff.mp hl
    by_cases hk' : k'' = l.start
    · exact hk'.le
    · rw [hs.get?_other hk' hk.ne] at hg
      exact hmax k'' v'' hg hk
  obtain ⟨t', ht', hr⟩ := tryMergeRight_remerged t mid (l.absorb mid) hw1 hs.get?_left
    hlt.le (fun f va => hs.view_eq f hw va)
    (fun r => mergeable_absorb_iff hs.mergeable hlne.le hne.le) (hs.next?_iff hw)
    (fun hk hg => ((hs.get?_above hw).mpr ⟨hg, hk⟩).1)
  refine ⟨t', ?_, hr⟩
  have ht'' : t1.tryMergeRight l.start = .ok t' := ht'
  simp [remerge, ht1, hnone, hprev, ht'', bind, Except.bind]

end VmaTree

end Oxide
