/-
Address spaces that share their reverse maps.

`MmSystem` holds every address space, the reverse maps they attach to, and the leaves of their
page tables with what is recorded on each frame.

* `handlePageFault`: the first touch of an anonymous page and the copy of a private one, which
  record the family and the page index of the frame;
* `fork`: `fork`, `fork_copy_pages` and `fork_cow_pages`, which differ in the VMAs and the
  leaves a child inherits;
* `MmEvent.run`: one step of the system.

Design notes: an address space holds the reverse maps it was run with last; the system's own copy
is the current one. The leaves of a range are torn down by the callers of `munmap` and of
`MAP_FIXED`, and the system does it with them. Migration markers, swap leaves and huge leaves
are left out.
-/
import Oxide.AddressSpace

namespace Oxide

open Function AddressSpace

/-- The access that caused a fault. -/
inductive FaultAccess
  | read
  | write
  | exec
  deriving DecidableEq

def VmaProt.permits (p : VmaProt) : FaultAccess → Bool
  | .read => bitsContain p VmaProt.READ
  | .write => bitsContain p VmaProt.WRITE
  | .exec => bitsContain p VmaProt.EXEC

/-- What one fault learns from the frame allocator, the memory controller and the mapped
object. -/
structure FaultAnswers where
  /-- No refusal outside the VMA's own protection. -/
  admitted : Bool
  charged : Bool
  allocated : Bool
  /-- The frame belongs to this mapping alone. -/
  reusable : Bool
  /-- The frame mapped now is the object's own. -/
  sharedFrame : Bool
  /-- The object provides a page. -/
  filled : Bool

/-- A present leaf, with the family and the page index recorded on its frame. -/
structure Leaf where
  rmap : Option (Arc × ℕ)
  deriving DecidableEq

/-- All address spaces. -/
structure MmSystem where
  space : Arc → Option AddressSpace
  rmaps : Rmaps
  /-- The identity of the next address space. -/
  nextMm : ℕ
  leaf : Arc → ℕ → Option Leaf

namespace MmSystem

open Prog

/-- No address space yet; `objects` are the reverse maps of the mapped objects. -/
def new (objects : Arc → Option Arc) : MmSystem where
  space _ := none
  rmaps := { Rmaps.empty with fileRmap := objects }
  nextMm := 0
  leaf _ _ := none

section

variable (w : MmSystem) (mm : Arc)

/-- Whether an edge of the address space can be upgraded. -/
def live : Bool := (w.space mm).isSome

/-- Put an address space back after it ran. -/
def leave (s : AddressSpace) : MmSystem :=
  { w with space := update w.space mm (some s), rmaps := s.rmaps }

/-- Run code in one address space. -/
def onSpace {ε α : Type} (m : Vm ε α) (w : MmSystem) :
    Except Panic (Option (Except ε α) × MmSystem) :=
  match w.space mm with
  | none => .ok (none, w)
  | some s => (m { s with rmaps := w.rmaps }).map fun p => (some p.1, w.leave mm p.2)

/-- Code runs in an address space that is alive, or not at all. -/
theorem onSpace_cases {ε α : Type} {mm : Arc} {m : Vm ε α} {w w' : MmSystem}
    {r : Option (Except ε α)} (h : w.onSpace mm m = .ok (r, w')) :
    (w.space mm = none ∧ r = none ∧ w' = w) ∨
      ∃ s r' s', w.space mm = some s ∧ m { s with rmaps := w.rmaps } = .ok (r', s') ∧
        r = some r' ∧ w' = w.leave mm s' := by
  rw [onSpace] at h
  cases hs : w.space mm with
  | none =>
    rw [hs] at h
    cases h
    exact .inl ⟨rfl, rfl, rfl⟩
  | some s =>
  rw [hs] at h
  obtain ⟨q, hm, hq⟩ := Except.map_eq_ok.mp h
  cases hq
  exact .inr ⟨s, q.1, q.2, rfl, hm, rfl, rfl⟩

def setLeaf (page : ℕ) (leaf : Leaf) : MmSystem :=
  { w with leaf := update w.leaf mm (update (w.leaf mm) page (some leaf)) }

/-- Tear down the leaves of a range. -/
def clearLeaves (start «end» : ℕ) : MmSystem :=
  { w with leaf := update w.leaf mm fun va =>
      if start ≤ va ∧ va < «end» then none else w.leaf mm va }

end

/-! ### Creation and mapping -/

def create (mmapBase : ℕ) (mmapTopdown : Bool) (w : MmSystem) : MmSystem :=
  let mm : Arc := ⟨w.nextMm⟩
  { w with
    space := update w.space mm (some (.new mm mmapBase mmapTopdown w.rmaps))
    nextMm := w.nextMm + 1 }

variable (env : Env) (mm : Arc)

/-- Every form of `mmap`: they differ in the placement and in the write-or-execute check. -/
def mmap (placement : MmapPlacement) (len : ℕ) (prot mayProt : VmaProt) (flags : VmaFlags)
    (backing : VmaBacking) (mdwe : MdweMode) (w : MmSystem) : Except Panic MmSystem :=
  let w := match placement with
    | .fixed addr => w.clearLeaves mm addr.asU64 (addr.asU64 + len)
    | _ => w
  (w.onSpace mm (mmapWithMayAtInnerLocked env placement len prot mayProt flags
    backing mdwe)).map Prod.snd

def munmap (addr : UserVirtAddr) (len : ℕ) (w : MmSystem) : Except Panic MmSystem :=
  (w.onSpace mm (AddressSpace.munmap env addr len)).map fun p =>
    match p.1 with
    | some (.ok ()) => p.2.clearLeaves mm addr.asU64 (addr.asU64 + len)
    | _ => p.2

def mprotect (addr : UserVirtAddr) (len : ℕ) (policy : AddressSpace.MprotectPolicy) (w : MmSystem) :
    Except Panic MmSystem :=
  (w.onSpace mm (mprotectUserWithSecurity env addr len policy)).map Prod.snd

section

variable (va : UserVirtAddr)

def tryGrowStack (maxSize maxGrow : ℕ) (w : MmSystem) : Except Panic MmSystem :=
  (w.onSpace mm (AddressSpace.tryGrowStack va maxSize maxGrow : Vm Empty Bool)).map Prod.snd

/-! ### Faults -/

/-- The page of an address. -/
def pageOf : ℕ := va.asU64 - va.asU64 % PAGE_SIZE_BYTES

/-- The index recorded for a page, a `u32` counted from the start of its VMA. -/
def pageIndex (v : Vma) (va : UserVirtAddr) : ℕ :=
  ((pageOf va - v.start.asU64) / PAGE_SIZE_BYTES) % 2 ^ 32

/-- Change the VMA that contains `va` in place. -/
def updateVma (f : Vma → Vma) (t : VmaTree) : VmaTree :=
  match t.findContaining va with
  | some v => t.mapReinsert v.start (f v)
  | none => t

def markAnonPage {ε : Type} : Vm ε Unit :=
  modify fun s => { s with tree := updateVma va (fun v => { v with anonPages := true }) s.tree }

/-- The family of the VMA at `va`; the first private page creates it with its edge. -/
def prepareAnonVma : Vm Error Arc := do
  let s ← get
  match s.tree.findContaining va with
  | none => fail .inval
  | some v =>
    match v.anonVma with
    | some av => return av
    | none => do
      let (av, rmaps) := s.rmaps.newAnon
      modify fun s => { s with
        tree := updateVma va (fun v => { v with anonVma := some av }) s.tree
        rmaps := rmaps.attachAnon av s.selfWeak v.start.asU64 v.end.asU64 }
      return av

/-- The first touch of an anonymous page.  A page a sibling installed meanwhile is kept. -/
def handleAnonymousNotPresent (v : Vma) (o : FaultAnswers) (w : MmSystem) : Except Panic MmSystem :=
  match v.anonVma with
  | none => .ok w
  | some av =>
    if !o.charged || !o.allocated || (w.leaf mm (pageOf va)).isSome then .ok w
    else
      ((w.setLeaf mm (pageOf va) ⟨some (av, pageIndex v va)⟩).onSpace mm
        (markAnonPage va : Vm Error Unit)).map Prod.snd

/-- Fill an absent leaf from the VMA's backing. -/
def handleNotPresent (access : FaultAccess) (o : FaultAnswers) (w : MmSystem) :
    Except Panic MmSystem :=
  match (w.space mm).bind fun s => s.tree.findContaining va with
  | none => .ok w
  | some v =>
    if !o.admitted || !v.prot.permits access then .ok w
    else match v.backing with
      | .anonymous => w.handleAnonymousNotPresent mm va v o
      | _ => .ok (if o.filled then w.setLeaf mm (pageOf va) ⟨none⟩ else w)

/-- Whether the write fault keeps the frame that is mapped: huge pages, frames owned by this
mapping alone, and frames of a shared object. -/
def keepsFrame (v : Vma) (o : FaultAnswers) : Bool :=
  match v.backing with
  | .anonymous => o.reusable
  | .file object _ => decide (env.hugePageSize object ≠ 0) ||
      (bitsContain v.flags VmaFlags.SHARED && o.sharedFrame)
  | _ => false

/-- A write to a present leaf: the frame is kept, or copied and recorded with the VMA's
family. -/
def handleWriteProtection (o : FaultAnswers) (w : MmSystem) : Except Panic MmSystem :=
  match (w.space mm).bind fun s => s.tree.findContaining va with
  | none => .ok w
  | some v =>
    if !bitsContain v.prot VmaProt.WRITE || keepsFrame env v o || !o.charged || !o.allocated then
      .ok w
    else if bitsContain v.flags VmaFlags.PRIVATE then do
      let (r, w) ← w.onSpace mm (prepareAnonVma va)
      match r with
      | some (.ok av) =>
        ((w.setLeaf mm (pageOf va) ⟨some (av, pageIndex v va)⟩).onSpace mm
          (markAnonPage va : Vm Error Unit)).map Prod.snd
      | _ => return w
    else .ok (w.setLeaf mm (pageOf va) ⟨none⟩)

/-- A fault on an absent leaf is a first touch, whatever the hardware says. -/
def handlePageFault (access : FaultAccess) (o : FaultAnswers) (w : MmSystem) :
    Except Panic MmSystem :=
  if (w.leaf mm (pageOf va)).isSome then
    if access = .write then w.handleWriteProtection env mm va o else .ok w
  else w.handleNotPresent mm va access o

end

/-! ### Fork -/

/-- The three ways to fork. -/
inductive ForkKind
  /-- `fork`: the child faults every page in. -/
  | lazy
  /-- `fork_copy_pages`: the child gets copies. -/
  | eager
  /-- `fork_cow_pages`: the child shares the frames. -/
  | cow
  deriving DecidableEq

/-- The VMA a child inherits: nothing locked, no monitor. -/
def childVma (v : Vma) : Vma :=
  { v.clone with flags := bitsDifference v.clone.flags VmaFlags.LOCKED_MASK }

variable (kind : ForkKind)

/-- Whether the child inherits the VMA. -/
def ForkKind.inherits (v : Vma) : Bool :=
  !(kind == .cow && bitsContain v.flags VmaFlags.DONTFORK)

/-- Build the tree of a child. -/
def forkTree (vmas : List Vma) : Prog Panic VmaTree Error Unit :=
  vmas.foldlM (fun _ v => do
    let r ← ofStep fun t => t.insert (childVma v)
    ofExcept (r.mapError fun _ => Error.noMem)) ()

/-- Attach the VMAs of a child. -/
def attachChildRmaps (child : Arc) (t : VmaTree) (r : Rmaps) : Rmaps :=
  t.iter.foldl (fun r v => r.attachVma child v v.start.asU64 v.end.asU64) r

/-- The leaf of a child behind a leaf of a parent's VMA. -/
def ForkKind.inheritLeaf (v : Vma) (leaf : Leaf) : Option Leaf :=
  match kind with
  | .lazy => none
  | .eager =>
    match v.backing with
    | .anonymous => some ⟨none⟩
    | .kernelBytes _ _ => if bitsContain v.prot VmaProt.WRITE then some ⟨none⟩ else none
    | _ => none
  | .cow =>
    if bitsContain v.flags VmaFlags.DONTFORK then none
    else match v.backing with
      | .anonymous => if bitsContain v.flags VmaFlags.WIPEONFORK then none else some leaf
      | .kernelBytes _ _ | .file _ _ => some leaf
      | _ => none

/-- The leaves a child starts with. -/
def inheritedLeaves (t : VmaTree) (leaf : ℕ → Option Leaf) (page : ℕ) : Option Leaf := do
  let va ← UserVirtAddr.new page
  let v ← t.findContaining va
  let l ← leaf page
  kind.inheritLeaf v l

/-- Register the contexts that the parent's monitors open for the child. -/
def dupUffdRegistrations (parent : AddressSpace) : Vm Empty Unit :=
  if !parent.hasUffd then pure ()
  else parent.tree.iter.foldlM (fun _ v =>
    match v.uffd.bind env.forkDup with
    | none => pure ()
    | some kid => setUffd v.start.asU64 v.end.asU64 kid (v.flags &&& VmaFlags.UFFD_MASK)) ()

/-- The child before it is published. -/
def childSpace (child : Arc) (parent : AddressSpace) (tree : VmaTree) (rmaps : Rmaps) :
    AddressSpace where
  selfWeak := child
  tree := tree
  accounting := .fromVmas tree
  mlockFuture := false
  mlockOnfault := false
  mdwe := parent.mdwe.inheritedFrom
  mmapBase := parent.mmapBase
  mmapTopdown := parent.mmapTopdown
  hasUffd := false
  rmaps := rmaps

/-- Fork an address space. -/
def fork (w : MmSystem) : Except Panic MmSystem :=
  match w.space mm with
  | none => .ok w
  | some parent => do
    let child : Arc := ⟨w.nextMm⟩
    let (r, tree) ← forkTree (parent.tree.iter.filter kind.inherits) .new
    match r with
    | .error _ => return w
    | .ok () =>
      let rmaps := attachChildRmaps child tree w.rmaps
      let leaves := inheritedLeaves kind parent.tree (w.leaf mm)
      let w : MmSystem :=
        { space := update w.space child (some (childSpace child parent tree rmaps))
          rmaps
          nextMm := w.nextMm + 1
          leaf := update w.leaf child leaves }
      (w.onSpace child (dupUffdRegistrations env parent)).map Prod.snd

/-- A fork that does not fail publishes a child. -/
theorem fork_cases {w w' : MmSystem} (h : w.fork env mm kind = .ok w') :
    w' = w ∨ ∃ parent tree, w.space mm = some parent ∧
      forkTree (parent.tree.iter.filter kind.inherits) .new = .ok (.ok (), tree) ∧
      (onSpace ⟨w.nextMm⟩ (dupUffdRegistrations env parent)
        { space := update w.space ⟨w.nextMm⟩ (some (childSpace ⟨w.nextMm⟩ parent tree
            (attachChildRmaps ⟨w.nextMm⟩ tree w.rmaps)))
          rmaps := attachChildRmaps ⟨w.nextMm⟩ tree w.rmaps
          nextMm := w.nextMm + 1
          leaf := update w.leaf ⟨w.nextMm⟩ (inheritedLeaves kind parent.tree (w.leaf mm)) }).map
        Prod.snd = .ok w' := by
  rw [fork] at h
  cases hs : w.space mm with
  | none =>
    rw [hs] at h
    exact .inl (Except.ok.inj h).symm
  | some parent =>
  rw [hs] at h
  obtain ⟨⟨r, tree⟩, hf, h⟩ := Except.bind_eq_ok.mp h
  cases r with
  | error => exact .inl (Except.ok.inj h).symm
  | ok => exact .inr ⟨parent, tree, rfl, hf, h⟩

/-- The last reference to an address space goes away. -/
def drop (w : MmSystem) : MmSystem :=
  { w with
    space := update w.space mm none
    leaf := update w.leaf mm fun _ => none }

end MmSystem

/-- One step of the system. -/
inductive MmEvent
  | create (mmapBase : ℕ) (mmapTopdown : Bool)
  | mmap (env : Env) (mm : Arc) (placement : MmapPlacement) (len : ℕ) (prot mayProt : VmaProt)
      (flags : VmaFlags) (backing : VmaBacking) (mdwe : MdweMode)
  | munmap (env : Env) (mm : Arc) (addr : UserVirtAddr) (len : ℕ)
  | mprotect (env : Env) (mm : Arc) (addr : UserVirtAddr) (len : ℕ)
      (policy : AddressSpace.MprotectPolicy)
  | tryGrowStack (mm : Arc) (va : UserVirtAddr) (maxSize maxGrow : ℕ)
  | fault (env : Env) (mm : Arc) (va : UserVirtAddr) (access : FaultAccess) (o : FaultAnswers)
  | fork (env : Env) (mm : Arc) (kind : MmSystem.ForkKind)
  | drop (mm : Arc)

namespace MmEvent

/-- One step of the system. -/
def run (w : MmSystem) : MmEvent → Except Panic MmSystem
  | create mmapBase mmapTopdown => .ok (w.create mmapBase mmapTopdown)
  | mmap env mm placement len prot mayProt flags backing mdwe =>
    w.mmap env mm placement len prot mayProt flags backing mdwe
  | munmap env mm addr len => w.munmap env mm addr len
  | mprotect env mm addr len policy => w.mprotect env mm addr len policy
  | tryGrowStack mm va maxSize maxGrow => w.tryGrowStack mm va maxSize maxGrow
  | fault env mm va access o => w.handlePageFault env mm va access o
  | fork env mm kind => w.fork env mm kind
  | drop mm => .ok (w.drop mm)

/-- The system at the end of a run. -/
def runAll (w : MmSystem) (events : List MmEvent) : Except Panic MmSystem :=
  events.foldlM run w

/-- Every event of the run meets the condition in the state before it. -/
abbrev Meeting (C : MmSystem → MmEvent → Prop) : MmSystem → List MmEvent → Prop :=
  Run.MeetsOk run C

end MmEvent

end Oxide
