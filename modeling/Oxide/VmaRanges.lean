/-
Range operations on the VMA tree.

Each operation collects the keys of the VMAs that meet `[start, end)`, then takes these VMAs
out one at a time, puts back the fragments outside the range and the rewritten fragment
inside it, and (for some operations) tries to coalesce the rewritten fragment with its
neighbours. A coalescing can consume a key collected for later: `mprotect` skips such a key,
the flag, userfaultfd and name writers take it for granted and panic.

This file has the operations, and the one step they share:

* `splice_spec`: one VMA replaced by its fragments: the tree stays well-formed and every view
  changes only inside the VMA.
-/
import Oxide.Runs
import Oxide.VmaTree

namespace Oxide

variable {mid o : Option Vma} {va : UserVirtAddr} {m w : Vma}

namespace VmaTree

/-! ### Operations -/

/-- The exclusive search bound for a raw end address. -/
def rawEndKey («end» : ℕ) : Option UserVirtAddr :=
  (UserVirtAddr.new «end»).or
    (if «end» = USER_VA_END then UserVirtAddr.new (USER_VA_END - 1) else none)

/-- The VMAs below `endKey` that reach past `start`, in order. -/
def collect (t : VmaTree) (start endKey : UserVirtAddr) : List (UserVirtAddr × Vma) :=
  (t.map.below endKey).filter fun e => e.2.end.asU64 > start.asU64

section

variable (put : VmaTree → UserVirtAddr → Vma → VmaTree)

/-- Put the fragment of `v` before `s`, if there is one. -/
def keepLeft (msg : String) (v : Vma) (s : ℕ) (t : VmaTree) : Except Panic VmaTree :=
  if v.start.asU64 < s then do
    let lend ← expect (UserVirtAddr.new s) msg
    let left := v.cloneSubrange v.start lend
    return put t left.start left
  else .ok t

/-- Put the fragment of `v` from `e` on, if there is one. -/
def keepRight (msg : String) (v : Vma) (e : ℕ) (t : VmaTree) : Except Panic VmaTree :=
  if e < v.end.asU64 then do
    let rstart ← expect (UserVirtAddr.new e) msg
    let right := v.cloneSubrange rstart v.end
    return put t right.start right
  else .ok t

/-- Replace `v`, already taken out, by its fragments around `[start, end)` and by the rewritten
fragment inside; returns the latter's key as well. -/
def splitRewrite (msg : String) (rewrite : Vma → Vma) (start : UserVirtAddr) («end» : ℕ)
    (t : VmaTree) (v : Vma) : Except Panic (UserVirtAddr × VmaTree) := do
  let s := max start.asU64 v.start.asU64
  let e := min «end» v.end.asU64
  let t ← t.keepLeft put msg v s
  let ms ← expect (UserVirtAddr.new s) msg
  let me ← expect (UserVirtAddr.new e) msg
  let mid := rewrite (v.cloneSubrange ms me)
  let t := put t mid.start mid
  let t ← t.keepRight put msg v e
  return (mid.start, t)

end

/-- One turn of a rewriting loop that coalesces.  `missing` is what the operation does when a
collected key is gone, `orphan` when no key is left of a coalesced one. -/
def rewriteKey (missing : VmaTree → Except Panic VmaTree) (msg : String)
    (orphan : UserVirtAddr → Except Panic UserVirtAddr) (rewrite : Vma → Vma)
    (start «end» : UserVirtAddr) (t : VmaTree) (k : UserVirtAddr) : Except Panic VmaTree :=
  match t.mapTake k with
  | none => missing t
  | some (v, t) => do
    let (midKey, t) ← splitRewrite mapPut msg rewrite start «end».asU64 t v
    (t.vmaClosed v).remerge (orphan midKey) midKey

/-- Walk the VMAs in order and require that they cover the addresses from `cursor` up to `end`
without a hole, and that each passes `allowed`. -/
def coverage (hole : Error) (allowed : Vma → Except Error Unit) («end» : ℕ) :
    ℕ → List (UserVirtAddr × Vma) → Except Error Unit
  | cursor, [] => if cursor < «end» then .error hole else .ok ()
  | cursor, (_, v) :: rest =>
    if v.end.asU64 ≤ cursor then coverage hole allowed «end» cursor rest
    else if v.start.asU64 > cursor then .error hole
    else do
      allowed v
      if v.end.asU64 ≥ «end» then .ok ()
      else coverage hole allowed «end» v.end.asU64 rest

/-- One turn of the removal loop: the fragment inside the range goes to the result, the
fragments around it go back. -/
def removeKey (start : UserVirtAddr) («end» : ℕ) (st : List Vma × VmaTree) (k : UserVirtAddr) :
    Except Panic (List Vma × VmaTree) := do
  let (v, t) ← expect (st.2.mapTake k) "collected key"
  let s := max start.asU64 v.start.asU64
  let e := min «end» v.end.asU64
  let t ← t.keepLeft mapPut "UVA in valid range" v s
  let ms ← expect (UserVirtAddr.new s) "UVA in valid range"
  let me ← expect (UserVirtAddr.new e) "UVA in valid range"
  let removed := st.1 ++ [v.cloneSubrange ms me]
  let t ← t.keepRight mapPut "UVA in valid range" v e
  return (removed, t.vmaClosed v)

section

variable (t : VmaTree)

/-- Remove every VMA or fragment inside `[start, end)`; returns the removed middles. -/
def removeRangeRawEnd (start : UserVirtAddr) («end» : ℕ) : Except Panic (List Vma × VmaTree) :=
  if start.asU64 ≥ «end» then .ok ([], t)
  else match rawEndKey «end» with
    | none => .ok ([], t)
    | some endKey =>
      ((t.collect start endKey).map Prod.fst).foldlM (removeKey start «end») ([], t)

section

variable (start «end» : UserVirtAddr)

def removeRange : Except Panic (List Vma × VmaTree) :=
  t.removeRangeRawEnd start «end».asU64

variable (newProt : VmaProt)

/-- The validation pass of `mprotect`. -/
def mprotectCheck : Except Error Unit :=
  if start.asU64 ≥ «end».asU64 then .error .inval
  else coverage .inval
    (fun v => if bitsContain v.mayProt newProt then .ok () else .error .access)
    «end».asU64 start.asU64 (t.map.below «end»)

/-- What `mprotect` does to the fragment inside the range. -/
def protRewrite (pkey : Option (BitVec 8)) (mid : Vma) : Vma :=
  { mid with prot := newProt, pkey := pkey.getD mid.pkey }

/-- Apply a protection and, if one is given, a protection key over the range. -/
def mprotectRangeWithPkey (pkey : Option (BitVec 8)) : Except Panic (Except Error Unit × VmaTree) :=
  match t.mprotectCheck start «end» newProt with
  | .error e => .ok (.error e, t)
  | .ok () => do
    -- a prior fragment can have absorbed this key; the survivor is already complete
    let t ← ((t.collect start «end»).map Prod.fst).foldlM
      (rewriteKey .ok "UVA in range" .ok (protRewrite newProt pkey) start «end») t
    return (.ok (), t)

/-- What the flag writer does to a fragment; the lock state of secret memory is not the
caller's to change. -/
def flagsRewrite (set clear : VmaFlags) (mid : Vma) : Vma :=
  let (set, clear) :=
    if bitsContain mid.flags VmaFlags.SECRETMEM then
      (bitsDifference set VmaFlags.LOCKED_MASK, bitsDifference clear VmaFlags.LOCKED_MASK)
    else (set, clear)
  { mid with flags := bitsDifference (mid.flags ||| set) clear }

/-- Set and clear flags over the range; holes are skipped. -/
def updateFlagsRange (set clear : VmaFlags) : Except Panic VmaTree :=
  if start.asU64 ≥ «end».asU64 then .ok t
  else ((t.collect start «end»).map Prod.fst).foldlM
    (rewriteKey (fun _ => .error ⟨"collected key"⟩) "UVA in range" .ok
      (flagsRewrite set clear) start «end») t

/-- What a userfaultfd registration does to a fragment. -/
def uffdRewrite (ctx : Option Arc) (modes : VmaFlags) (mid : Vma) : Vma :=
  match ctx with
  | some c => { mid with
      uffd := some c
      flags := bitsDifference mid.flags VmaFlags.UFFD_MASK ||| (modes &&& VmaFlags.UFFD_MASK) }
  | none => { mid with uffd := none, flags := bitsDifference mid.flags VmaFlags.UFFD_MASK }

/-- Set or clear the userfaultfd registration over the range. -/
def setUffdRange (ctx : Option Arc) (modes : VmaFlags) : Except Panic VmaTree :=
  if start.asU64 ≥ «end».asU64 then .ok t
  else ((t.collect start «end»).map Prod.fst).foldlM
    (rewriteKey (fun _ => .error ⟨"collected key"⟩) "UVA in range" .ok
      (uffdRewrite ctx modes) start «end») t

/-- The validation pass of the name writer. -/
def anonNameCheck : Except Error Unit :=
  if start.asU64 ≥ «end».asU64 then .error .inval
  else coverage .noMem
    (fun v => if v.backing = .anonymous then .ok () else .error .access)
    «end».asU64 start.asU64 (t.map.below «end»)

def anonNameRewrite (name : Option String) (mid : Vma) : Vma := { mid with anonName := name }

/-- Name the anonymous memory of a fully mapped range. -/
def setAnonNameRange (name : Option String) : Except Panic (Except Error Unit × VmaTree) :=
  match t.anonNameCheck start «end» with
  | .error e => .ok (.error e, t)
  | .ok () => do
    let t ← ((t.collect start «end»).map Prod.fst).foldlM
      (rewriteKey (fun _ => .error ⟨"collected VMA key"⟩) "validated VMA boundary"
        (fun _ => .error ⟨"left VMA"⟩) (anonNameRewrite name) start «end») t
    return (.ok (), t)

/-- The validation pass of `mseal`. -/
def sealCheck : Except Error Unit :=
  if start.asU64 ≥ «end».asU64 then .error .inval
  else coverage .inval (fun _ => .ok ()) «end».asU64 start.asU64 (t.map.below «end»)

def sealRewrite (mid : Vma) : Vma := { mid with flags := mid.flags ||| VmaFlags.SEALED }

def sealKey (t : VmaTree) (k : UserVirtAddr) : Except Panic VmaTree := do
  let (v, t) ← expect (t.mapTake k) "collected key"
  let (_, t) ← splitRewrite mapPut "UVA in range" sealRewrite start «end».asU64 t v
  return t.vmaClosed v

/-- Seal a fully mapped range.  No coalescing is tried. -/
def sealRange : Except Panic (Except Error Unit × VmaTree) :=
  match t.sealCheck start «end» with
  | .error e => .ok (.error e, t)
  | .ok () => do
    let t ← ((t.collect start «end»).map Prod.fst).foldlM (sealKey start «end») t
    return (.ok (), t)

/-- One turn of the policy writers' loop, which runs no hook. -/
def policyKey (f : Vma → Vma) (start «end» : UserVirtAddr) (t : VmaTree) (k : UserVirtAddr) :
    Except Panic VmaTree := do
  let (v, t) ← expect (t.mapTake k) "collected key"
  let (_, t) ← splitRewrite mapReinsert "UVA in range" f start «end».asU64 t v
  return t

/-- Split at the range and apply `f` to every fragment inside it.  No coalescing is tried. -/
def rewriteRange (f : Vma → Vma) : Except Panic VmaTree :=
  if start.asU64 ≥ «end».asU64 then .ok t
  else ((t.collect start «end»).map Prod.fst).foldlM (policyKey f start «end») t

def policyRewrite (pol : Option MemPolicy) (mid : Vma) : Vma := { mid with mempolicy := pol }

/-- Install a NUMA policy over the range. -/
def setPolicyRange (pol : Option MemPolicy) : Except Panic VmaTree :=
  t.rewriteRange start «end» (policyRewrite pol)

/-- Policy modes that take a home node. -/
def MPOL_BIND : BitVec 16 := 2
def MPOL_PREFERRED_MANY : BitVec 16 := 5

/-- The failures of the home-node writer. -/
inductive HomeNodeErr
  | noEnt
  | opNotSupp
  deriving DecidableEq

/-- The scan of the home-node writer: the parts inside the range of the VMAs that carry a policy
with a home node.  A VMA without a policy is skipped, one with another mode ends the scan. -/
def homeNodeRanges (start «end» : UserVirtAddr) :
    List (UserVirtAddr × Vma) →
      Except Panic (Except HomeNodeErr (List (UserVirtAddr × UserVirtAddr)))
  | [] => .ok (.ok [])
  | (_, v) :: rest =>
    if v.end.asU64 ≤ start.asU64 then homeNodeRanges start «end» rest
    else match v.mempolicy with
      | none => homeNodeRanges start «end» rest
      | some p =>
        if p.mode = MPOL_BIND ∨ p.mode = MPOL_PREFERRED_MANY then do
          let s ← expect (UserVirtAddr.new (max v.start.asU64 start.asU64)) "UVA in range"
          let e ← expect (UserVirtAddr.new (min v.end.asU64 «end».asU64)) "UVA in range"
          let ranges ← homeNodeRanges start «end» rest
          return ranges.map ((s, e) :: ·)
        else .ok (.error .opNotSupp)

def homeNodeRewrite (homeNode : BitVec 32) (mid : Vma) : Vma :=
  { mid with mempolicy := mid.mempolicy.map fun p => { p with homeNode := homeNode } }

/-- Set the home node of every policy in the range. -/
def setHomeNodeRange (homeNode : BitVec 32) : Except Panic (Except HomeNodeErr Unit × VmaTree) := do
  match ← homeNodeRanges start «end» (t.map.below «end») with
  | .error err => return (.error err, t)
  | .ok ranges =>
    let t ← ranges.foldlM (fun t r => t.rewriteRange r.1 r.2 (homeNodeRewrite homeNode)) t
    return (if ranges.isEmpty then .error .noEnt else .ok (), t)

end

/-- The end of an address space: every VMA still mapped is closed. -/
def drop : VmaTree :=
  ⟨OrdMap.empty, (t.map.values.map VmEvent.closed).reverse ++ t.events⟩

/-! ### Replacing one VMA by its fragments -/

/-- A non-empty VMA that meets the non-empty range `[start, end)`. -/
structure Meets (start : UserVirtAddr) («end» : ℕ) (v : Vma) : Prop where
  nonempty : v.start.asU64 < v.end.asU64
  range : start.asU64 < «end»
  lt_end : v.start.asU64 < «end»
  start_lt : start.asU64 < v.end.asU64

variable (start : UserVirtAddr)

/-- First address of `v` in the range. -/
def clipStart (v : Vma) : UserVirtAddr := max start v.start

/-- End of the part of `v` in the range. -/
def clipEnd («end» : ℕ) (v : Vma) : UserVirtAddr :=
  ⟨min «end» v.end.asU64, lt_of_le_of_lt (min_le_right _ _) v.end.isUser⟩

theorem clipStart_asU64 (v : Vma) : (clipStart start v).asU64 = max start.asU64 v.start.asU64 := by
  rw [clipStart]
  rcases le_total start v.start with h | h
  · rw [max_eq_right h, max_eq_right (UserVirtAddr.le_iff.mp h)]
  · rw [max_eq_left h, max_eq_left (UserVirtAddr.le_iff.mp h)]

/-- The fragment before the range. -/
def leftPiece (v : Vma) : Option Vma :=
  if v.start.asU64 < start.asU64 then some (v.cloneSubrange v.start start) else none

/-- The fragment inside the range. -/
def midPiece («end» : ℕ) (v : Vma) : Vma :=
  v.cloneSubrange (clipStart start v) (clipEnd «end» v)

/-- The fragment after the range. -/
def rightPiece («end» : ℕ) (v : Vma) : Option Vma :=
  if «end» < v.end.asU64 then some (v.cloneSubrange (clipEnd «end» v) v.end) else none

/-- Store a VMA if there is one. -/
def storeOpt (o : Option Vma) : VmaTree :=
  match o with
  | some v => t.store v
  | none => t

/-- The tree in which the fragments of `v` around the range, and `mid` inside it, take the
place of `v`. -/
def splice (v : Vma) (mid : Option Vma) (start : UserVirtAddr) («end» : ℕ) : VmaTree :=
  (((t.without v.start).storeOpt (leftPiece start v)).storeOpt mid).storeOpt (rightPiece «end» v)

end

/-- A view of the addresses of `v` after the splice. -/
def pieceView {α : Type} (f : MergeView α) (mid : Option Vma) (start : UserVirtAddr)
    («end» : ℕ) (v : Vma) (va : UserVirtAddr) : Option α :=
  if va.asU64 < start.asU64 then some (f.obs (v.cloneSubrange v.start start) va)
  else if va.asU64 < «end» then mid.map fun m => f.obs m va
  else some (f.obs (v.cloneSubrange (clipEnd «end» v) v.end) va)

variable {t : VmaTree} {v : Vma} {start : UserVirtAddr} {«end» : ℕ}

theorem WellFormed.storeOpt (hw : t.WellFormed)
    (ho : ∀ w ∈ o, w.start.asU64 < w.end.asU64 ∧ t.Fits w) : (t.storeOpt o).WellFormed := by
  cases o with
  | none => exact hw
  | some w => exact hw.store (ho w rfl).1 (ho w rfl).2

variable {α : Type}

theorem view_storeOpt_of_contains (f : MergeView α) (hw : t.WellFormed)
    (ho : ∀ w ∈ o, w.start.asU64 < w.end.asU64 ∧ t.Fits w) (hwo : w ∈ o)
    (hc : w.contains va = true) :
    view f (t.storeOpt o) va = some (f.obs w va) := by
  cases hwo
  rw [storeOpt, view_store f hw (ho w rfl).1 (ho w rfl).2, if_pos hc]

theorem view_storeOpt_of_not_contains (f : MergeView α) (hw : t.WellFormed)
    (ho : ∀ w ∈ o, w.start.asU64 < w.end.asU64 ∧ t.Fits w) (hc : ∀ w ∈ o, ¬ w.contains va = true) :
    view f (t.storeOpt o) va = view f t va := by
  cases o with
  | none => rfl
  | some w => rw [storeOpt, view_store f hw (ho w rfl).1 (ho w rfl).2, if_neg (hc w rfl)]

theorem Fits.storeOpt (hf : t.Fits w)
    (hd : ∀ x ∈ o, x.end.asU64 ≤ w.start.asU64 ∨ w.end.asU64 ≤ x.start.asU64) :
    (t.storeOpt o).Fits w := by
  cases o with
  | none => exact hf
  | some x => exact hf.store (hd x rfl)

theorem get?_storeOpt_of_ne {k : UserVirtAddr} (h : ∀ w ∈ o, k ≠ w.start) :
    (t.storeOpt o).map.get? k = t.map.get? k := by
  cases o with
  | none => rfl
  | some w => exact (get?_store ..).trans (if_neg (h w rfl))

/-- What the fragments of `v` are. -/
theorem mem_leftPiece (h : w ∈ leftPiece start v) :
    v.start.asU64 < start.asU64 ∧ w = v.cloneSubrange v.start start := by
  rw [leftPiece] at h
  by_cases hs : v.start.asU64 < start.asU64
  · rw [if_pos hs] at h
    exact ⟨hs, (Option.some_inj.mp h).symm⟩
  · cases (if_neg hs).symm.trans h

theorem mem_rightPiece (h : w ∈ rightPiece «end» v) :
    «end» < v.end.asU64 ∧ w = v.cloneSubrange (clipEnd «end» v) v.end := by
  rw [rightPiece] at h
  by_cases hs : «end» < v.end.asU64
  · rw [if_pos hs] at h
    exact ⟨hs, (Option.some_inj.mp h).symm⟩
  · cases (if_neg hs).symm.trans h

/-- The conditions under which `mid` may stand for the inside of the range. -/
def Fills (start : UserVirtAddr) («end» : ℕ) (v : Vma) (mid : Option Vma) : Prop :=
  ∀ m ∈ mid, m.start = clipStart start v ∧ m.end = clipEnd «end» v

/-- What a splice leaves behind. -/
structure Spliced (t : VmaTree) (v : Vma) (mid : Option Vma) (start : UserVirtAddr)
    («end» : ℕ) (t' : VmaTree) : Prop where
  wellFormed : t'.WellFormed
  view_eq : ∀ {α : Type} (f : MergeView α) (va : UserVirtAddr),
    view f t' va = if v.contains va then pieceView f mid start «end» v va else view f t va
  get?_mid : ∀ m ∈ mid, t'.map.get? m.start = some m
  get?_above : ∀ {k}, v.end.asU64 ≤ k.asU64 → t'.map.get? k = t.map.get? k

/-- The pieces of a splice: each is non-empty and fits into the tree built so far. -/
structure PieceFacts (t : VmaTree) (v : Vma) (mid : Option Vma) (start : UserVirtAddr)
    («end» : ℕ) : Prop where
  wf0 : (t.without v.start).WellFormed
  left : ∀ w ∈ leftPiece start v, w.start.asU64 < w.end.asU64 ∧ (t.without v.start).Fits w
  wf1 : ((t.without v.start).storeOpt (leftPiece start v)).WellFormed
  inside : ∀ w ∈ mid, w.start.asU64 < w.end.asU64 ∧
    ((t.without v.start).storeOpt (leftPiece start v)).Fits w
  wf2 : (((t.without v.start).storeOpt (leftPiece start v)).storeOpt mid).WellFormed
  right : ∀ w ∈ rightPiece «end» v, w.start.asU64 < w.end.asU64 ∧
    (((t.without v.start).storeOpt (leftPiece start v)).storeOpt mid).Fits w

theorem rightPiece_start (h : w ∈ rightPiece «end» v) : w.start.asU64 = «end» := by
  obtain ⟨hs, rfl⟩ := mem_rightPiece h
  show min «end» v.end.asU64 = «end»
  omega

theorem Fills.start_asU64 (hmid : Fills start «end» v mid) (h : m ∈ mid) :
    m.start.asU64 = max start.asU64 v.start.asU64 := by
  rw [(hmid m h).1, clipStart_asU64]

theorem Fills.end_asU64 (hmid : Fills start «end» v mid) (h : m ∈ mid) :
    m.end.asU64 = min «end» v.end.asU64 := by
  rw [(hmid m h).2]
  rfl

section Splice

variable (hw : t.WellFormed) (hv : t.Has v) (hm : Meets start «end» v)
  (hmid : Fills start «end» v mid)

include hw hv hm hmid

theorem splice_pieces : PieceFacts t v mid start «end» := by
  obtain ⟨hne, hrange, hlt, hgt⟩ := hm
  have hw0 := hw.without v.start
  have hfit : ∀ w : Vma, v.start.asU64 ≤ w.start.asU64 → w.end.asU64 ≤ v.end.asU64 →
      (t.without v.start).Fits w := fun w h h' => hw.fits_without hv h h'
  have hleft : ∀ w ∈ leftPiece start v,
      w.start.asU64 < w.end.asU64 ∧ (t.without v.start).Fits w := by
    intro w h
    obtain ⟨hs, rfl⟩ := mem_leftPiece h
    exact ⟨hs, hfit _ (le_refl v.start.asU64) hgt.le⟩
  have hmid' : ∀ w ∈ mid, w.start.asU64 < w.end.asU64 ∧
      ((t.without v.start).storeOpt (leftPiece start v)).Fits w := by
    intro w h
    have h1 := hmid.start_asU64 h
    have h2 := hmid.end_asU64 h
    refine ⟨by omega, (hfit w (by omega) (by omega)).storeOpt fun x hx => .inl ?_⟩
    obtain ⟨hs, rfl⟩ := mem_leftPiece hx
    show start.asU64 ≤ w.start.asU64
    omega
  refine ⟨hw0, hleft, hw0.storeOpt hleft, hmid', (hw0.storeOpt hleft).storeOpt hmid', ?_⟩
  intro w h
  have hstart := rightPiece_start h
  obtain ⟨hs, hw'⟩ := mem_rightPiece h
  have hend : w.end.asU64 = v.end.asU64 := by rw [hw']; rfl
  refine ⟨by omega, ((hfit w (by omega) (by omega)).storeOpt fun x hx => .inl ?_).storeOpt
    fun x hx => .inl ?_⟩
  · obtain ⟨-, rfl⟩ := mem_leftPiece hx
    show start.asU64 ≤ w.start.asU64
    omega
  · have h2 := hmid.end_asU64 hx
    omega

/-- Inside the VMA, a splice shows the piece the address falls into. -/
private theorem splice_view_inside (f : MergeView α) (hc : v.contains va = true) :
    view f (t.splice v mid start «end») va = pieceView f mid start «end» v va := by
  have hp := splice_pieces hw hv hm hmid
  have hrange := hm.range
  obtain ⟨hc1, hc2⟩ := Vma.contains_iff.mp hc
  have hnright : va.asU64 < «end» → ∀ w ∈ rightPiece «end» v, ¬ w.contains va = true := by
    intro h w hwr hcw
    have := rightPiece_start hwr
    have := (Vma.contains_iff.mp hcw).1
    omega
  rw [pieceView, splice]
  by_cases h1 : va.asU64 < start.asU64
  · rw [if_pos h1, view_storeOpt_of_not_contains f hp.wf2 hp.right (hnright (by omega)),
      view_storeOpt_of_not_contains f hp.wf1 hp.inside,
      view_storeOpt_of_contains f hp.wf0 hp.left]
    · rw [leftPiece, if_pos (by omega)]
      rfl
    · exact Vma.contains_iff.mpr ⟨hc1, h1⟩
    intro w h hcw
    have := hmid.start_asU64 h
    have := (Vma.contains_iff.mp hcw).1
    omega
  rw [if_neg h1]
  by_cases h2 : va.asU64 < «end»
  · rw [if_pos h2, view_storeOpt_of_not_contains f hp.wf2 hp.right (hnright h2)]
    cases hmo : mid with
    | none =>
      rw [storeOpt, view_storeOpt_of_not_contains f hp.wf0 hp.left, view_without f hw hv, if_pos hc]
      · rfl
      · intro w h hcw
        obtain ⟨-, rfl⟩ := mem_leftPiece h
        exact h1 (Vma.contains_iff.mp hcw).2
    | some m =>
    have hmm : m ∈ mid := hmo
    have h3 := hmid.start_asU64 hmm
    have h4 := hmid.end_asU64 hmm
    rw [← hmo, view_storeOpt_of_contains f hp.wf1 hp.inside hmm, hmo]
    · rfl
    · exact Vma.contains_iff.mpr ⟨by omega, by omega⟩
  rw [if_neg h2, view_storeOpt_of_contains f hp.wf2 hp.right ]
  · rw [rightPiece, if_pos (by omega)]
    rfl
  · exact Vma.contains_iff.mpr ⟨show min «end» v.end.asU64 ≤ va.asU64 by omega, hc2⟩

/-- Outside the VMA, a splice changes no view. -/
private theorem splice_view_outside (f : MergeView α) (hc : ¬ v.contains va = true) :
    view f (t.splice v mid start «end») va = view f t va := by
  have hp := splice_pieces hw hv hm hmid
  obtain ⟨hne, hrange, hlt, hgt⟩ := hm
  have hc' := hc
  rw [Vma.contains_iff] at hc'
  rw [splice, view_storeOpt_of_not_contains f hp.wf2 hp.right,
    view_storeOpt_of_not_contains f hp.wf1 hp.inside,
    view_storeOpt_of_not_contains f hp.wf0 hp.left,
    view_without f hw hv, if_neg hc]
  · intro w h hcw
    obtain ⟨-, rfl⟩ := mem_leftPiece h
    have h3 : v.start.asU64 ≤ va.asU64 ∧ va.asU64 < start.asU64 := Vma.contains_iff.mp hcw
    omega
  · intro w h hcw
    have := hmid.start_asU64 h
    have := hmid.end_asU64 h
    have := Vma.contains_iff.mp hcw
    omega
  intro w h hcw
  have h3 := rightPiece_start h
  obtain ⟨h4, hw'⟩ := mem_rightPiece h
  have hend : w.end.asU64 = v.end.asU64 := by rw [hw']; rfl
  have := Vma.contains_iff.mp hcw
  omega

/-- **Replacing one VMA by its fragments keeps the tree well-formed and changes views only
inside the VMA.** -/
theorem splice_spec : Spliced t v mid start «end» (t.splice v mid start «end») := by
  have hp := splice_pieces hw hv hm hmid
  obtain ⟨hne, hrange, hlt, hgt⟩ := id hm
  refine ⟨hp.wf2.storeOpt hp.right, fun f va => ?_, fun m hmm => ?_, fun {k} hk => ?_⟩
  · by_cases hc : v.contains va = true
    · rw [if_pos hc, splice_view_inside hw hv hm hmid f hc]
    · rw [if_neg hc, splice_view_outside hw hv hm hmid f hc]
  · have h1 := hmid.start_asU64 hmm
    rw [splice, get?_storeOpt_of_ne]
    · cases hmm
      exact get?_store_self
    intro w h heq
    have := rightPiece_start h
    have := UserVirtAddr.eq_iff.mp heq
    omega
  -- every piece starts before the end of `v`
  have hstart : ∀ w : Vma, w.start.asU64 < v.end.asU64 → k ≠ w.start := by
    intro w hlt heq
    have := UserVirtAddr.eq_iff.mp heq
    omega
  rw [splice, get?_storeOpt_of_ne, get?_storeOpt_of_ne, get?_storeOpt_of_ne,
    get?_without_of_ne (hstart v hne)]
  · intro w h
    obtain ⟨-, rfl⟩ := mem_leftPiece h
    exact hstart _ hne
  · intro w h
    have := hmid.start_asU64 h
    exact hstart w (by omega)
  intro w h
  have := rightPiece_start h
  obtain ⟨h4, -⟩ := mem_rightPiece h
  exact hstart w (by omega)

end Splice

end VmaTree

end Oxide
