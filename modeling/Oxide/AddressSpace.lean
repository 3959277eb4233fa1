/-
The address space: placement, mapping, unmapping and protection.

An `AddressSpace` holds the VMA tree, the byte counters kept beside it (`VmAccounting`), the
lock, layout and write-or-execute policies, and (threaded through it) the reverse maps shared by
all address spaces. Its operations are programs over that state:

* `mmapWithMayAtInnerLocked`: every form of `mmap`, with its four placements;
* `munmapLocked`, `mprotectUserWithSecurity`: both through `rmapResplit`, which detaches and
  re-attaches the reverse-map edges around a change of the tree;
* `applyVmaLockFlags`, `munlockAll`, `setUffd`, `tryGrowStack`: the other writers.

Design notes: what the kernel asks of other subsystems (admission hooks, the mapped object, the
page mover, the userfaultfd monitor) is a parameter, an `Env` or an argument of the operation.
Allocation failures inside the VMM are not modelled. A writable-mapping reservation lives only
inside one call, so only its refusal shows.
-/
import Oxide.VmaRanges
import Oxide.Prog
import Oxide.Rmap

namespace Oxide

/-! ### Counters -/

/-- The byte counters of an address space, `u64` words. -/
structure VmAccounting where
  virtualBytes : ℕ
  peakVirtualBytes : ℕ
  committedVirtualBytes : ℕ
  lockedVirtualBytes : ℕ
  mlockTransitions : ℕ
  /-- Whether a subtraction from a counter has wrapped below zero. -/
  wrapped : Bool
  deriving DecidableEq

/-- `fetch_add` on a `u64`. -/
def fetchAdd (c n : ℕ) : ℕ := (c + n) % 2 ^ 64

/-- `fetch_sub` on a `u64`. -/
def fetchSub (c n : ℕ) : ℕ := (c + 2 ^ 64 - n) % 2 ^ 64

namespace VmAccounting

def new : VmAccounting := ⟨0, 0, 0, 0, 0, false⟩

def bytes (v : Vma) : ℕ := v.lenBytes.toNat

/-- Whether the VMA is charged: anonymous memory, and private mappings of files and bytes. -/
def committed (v : Vma) : Bool :=
  match v.backing with
  | .anonymous => true
  | .file _ _ | .kernelBytes _ _ => !bitsContain v.flags VmaFlags.SHARED
  | .kernelFrame _ | .kernelPages _ _ | .physRange _ _ | .special => false

def locked (v : Vma) : Bool := bitsContain v.flags VmaFlags.LOCKED

/-- Count a new VMA. -/
def addVma (a : VmAccounting) (v : Vma) : VmAccounting :=
  let n := bytes v
  let current := min (a.virtualBytes + n) (2 ^ 64 - 1)
  { a with
    virtualBytes := fetchAdd a.virtualBytes n
    peakVirtualBytes := max a.peakVirtualBytes current
    committedVirtualBytes :=
      if committed v then fetchAdd a.committedVirtualBytes n else a.committedVirtualBytes
    lockedVirtualBytes :=
      if locked v then fetchAdd a.lockedVirtualBytes n else a.lockedVirtualBytes }

/-- Take a VMA off the counters. -/
def removeVma (a : VmAccounting) (v : Vma) : VmAccounting :=
  let n := bytes v
  { a with
    virtualBytes := fetchSub a.virtualBytes n
    committedVirtualBytes :=
      if committed v then fetchSub a.committedVirtualBytes n else a.committedVirtualBytes
    lockedVirtualBytes :=
      if locked v then fetchSub a.lockedVirtualBytes n else a.lockedVirtualBytes
    wrapped := a.wrapped || decide (a.virtualBytes < n) ||
      (committed v && decide (a.committedVirtualBytes < n)) ||
      (locked v && decide (a.lockedVirtualBytes < n)) }

/-- Exchange the locked bytes of one range. -/
def replaceLockedRange (a : VmAccounting) (old new : ℕ) : VmAccounting :=
  if old = new then a
  else if new > old then
    { a with
      lockedVirtualBytes := fetchAdd a.lockedVirtualBytes (new - old)
      mlockTransitions := fetchAdd a.mlockTransitions 1 }
  else
    { a with
      lockedVirtualBytes := fetchSub a.lockedVirtualBytes (old - new)
      mlockTransitions := fetchAdd a.mlockTransitions 1
      wrapped := a.wrapped || decide (a.lockedVirtualBytes < old - new) }

/-- The counters of a tree built by a fork. -/
def fromVmas (t : VmaTree) : VmAccounting := t.map.values.foldl addVma new

end VmAccounting

/-! ### State -/

/-- One `PR_SET_MDWE` state. -/
inductive MdweRequest
  | disabled
  | refuseExecGain
  | refuseExecGainNoInherit
  deriving DecidableEq

/-- Whether a transition of protections is refused: gaining `EXEC`, or `EXEC` with `WRITE`. -/
def MdweRequest.denies (m : MdweRequest) (old new : VmaProt) : Bool :=
  if m = .disabled || !bitsContain new VmaProt.EXEC then false
  else bitsContain new VmaProt.WRITE || !bitsContain old VmaProt.EXEC

/-- A state that has been set stays. -/
def MdweRequest.set (current request : MdweRequest) : MdweRequest :=
  if current = .disabled then request else current

/-- The policy of a child. -/
def MdweRequest.inheritedFrom (parent : MdweRequest) : MdweRequest :=
  match parent with
  | .refuseExecGainNoInherit => .disabled
  | state => state

/-- Proof that an address space admitted one new mapping. -/
structure MdweAdmission where
  owner : Arc
  prot : VmaProt

/-- How a new mapping is checked against the write-or-execute policy. -/
inductive MdweMode
  | check
  | admitted (admission : MdweAdmission)
  | preserve

/-- Where a new mapping is placed. -/
inductive MmapPlacement
  | advisory (hint : Option UserVirtAddr)
  | advisoryAligned (hint : Option UserVirtAddr) (align : ℕ)
  | fixed (addr : UserVirtAddr)
  | fixedNoReplace (addr : UserVirtAddr)

/-- An error, or a range that is taken. -/
inductive MmapError
  | vmm (error : Error)
  | exists

/-- What a mapped object answers when it is mapped. -/
inductive FileBackingError
  | acces
  | badf
  | inval
  | io
  | noMem
  | opNotSupp
  | again
  deriving DecidableEq

/-- What the address space asks of the rest of the kernel during one operation. -/
structure Env where
  /-- The security hook on the address of a new mapping. -/
  admitMmapAddr : ℕ → Bool
  hugePageSize : Arc → ℕ
  mmapSetup : Arc → (start «end» : UserVirtAddr) → (pgoff : ℕ) → Except FileBackingError Unit
  maySplit : Arc → Bool
  /-- Whether a userfaultfd monitor asked to be told about moves. -/
  wantsRemap : Arc → Bool
  /-- The context a monitor opens for a forked child. -/
  forkDup : Arc → Option Arc

/-- Hooks that admit everything, and no monitor. -/
def Env.plain : Env :=
  ⟨fun _ => true, fun _ => PAGE_SIZE_BYTES, fun _ _ _ _ => .ok (), fun _ => true, fun _ => false,
    fun _ => none⟩

/-- An address space. -/
structure AddressSpace where
  selfWeak : Arc
  tree : VmaTree
  accounting : VmAccounting
  mlockFuture : Bool
  mlockOnfault : Bool
  mdwe : MdweRequest
  mmapBase : ℕ
  mmapTopdown : Bool
  hasUffd : Bool
  /-- The reverse maps, shared with the other address spaces. -/
  rmaps : Rmaps

/-- Code of the VMM. -/
abbrev Vm (ε α : Type) : Type := Prog Panic AddressSpace ε α

namespace VmaTree

/-! ### Lookups of the tree -/

variable (t : VmaTree)

/-- The VMAs in address order. -/
def iter : List Vma := t.map.values

/-- The `GROWSDOWN` VMA above `va`, if it is the next one and no further than `maxGap`. -/
def findGrowsdownAbove (va : UserVirtAddr) (maxGap : ℕ) : Option Vma := do
  let (_, v) ← (t.map.get? va).map (va, ·) <|> t.map.next? va
  if !bitsContain v.flags VmaFlags.GROWSDOWN then none
  else if v.start.asU64 < va.asU64 then none
  else if v.start.asU64 - va.asU64 > maxGap then none
  else some v

/-- A VMA of the range is sealed. -/
def anySealedRawEnd (start : UserVirtAddr) («end» : ℕ) : Bool :=
  match rawEndKey «end» with
  | none => false
  | some endKey => (t.map.below endKey).any fun e =>
      e.2.end.asU64 > start.asU64 && bitsContain e.2.flags VmaFlags.SEALED

def anySealed (start «end» : UserVirtAddr) : Bool :=
  t.anySealedRawEnd start «end».asU64

end VmaTree

/-- Whether the mapped object tolerates its VMA being cut. -/
def vmaMaySplit (env : Env) (v : Vma) : Bool :=
  match v.backing with
  | .file backing _ => env.maySplit backing
  | _ => true

namespace VmaTree

/-- The range cuts a VMA that may not be split. -/
def refusesSplitRawEnd (env : Env) (t : VmaTree) (start : UserVirtAddr) («end» : ℕ) : Bool :=
  match rawEndKey «end» with
  | none => false
  | some endKey => (t.map.below endKey).any fun e =>
      e.2.end.asU64 > start.asU64 &&
        (e.2.start.asU64 < start.asU64 || «end» < e.2.end.asU64) && !vmaMaySplit env e.2

def refusesSplit (env : Env) (t : VmaTree) (start «end» : UserVirtAddr) : Bool :=
  t.refusesSplitRawEnd env start «end».asU64

end VmaTree

/-! ### Holes -/

/-- The lowest address to map at. -/
def MIN_USER_VA : ℕ := PAGE_SIZE_BYTES
/-- The default anchor of the search. -/
def MMAP_TOP : ℕ := USER_VA_END - 0x1000000
/-- The largest a stack may grow. -/
def STACK_GROW_MAX : ℕ := 8 * 1024 * 1024

/-- Whether `[start, end)` meets no VMA: only the neighbours on both sides can. -/
def holeClear (t : VmaTree) (start «end» : UserVirtAddr) : Bool :=
  !((t.map.floor? start).any fun e => e.2.end.asU64 > start.asU64) &&
  !((t.map.next? start).any fun e => e.2.start.asU64 < «end».asU64)

/-- Clear the low bits of a `u64` below a granule that is meant to be a power of two. -/
def alignDown (addr align : ℕ) : ℕ := addr &&& (2 ^ 64 - align)

/-- Round up, wrapping as the sum does. -/
def alignUp (addr align : ℕ) : ℕ := ((addr + (align - 1)) % 2 ^ 64) &&& (2 ^ 64 - align)

/-- The descending scan of the top-down search; `top` is the end of the gap being tried. -/
def topDownScan (len mmapTop align : ℕ) : ℕ → List Vma → Option UserVirtAddr
  | top, [] =>
    if top - MIN_USER_VA ≥ len then
      let at' := alignDown (top - len) align
      if at' ≥ MIN_USER_VA then UserVirtAddr.new at' else none
    else none
  | top, v :: rest =>
    let s := max v.start.asU64 MIN_USER_VA
    let e := min v.end.asU64 mmapTop
    if e ≤ s then topDownScan len mmapTop align top rest
    else
      let at' := alignDown (top - len) align
      if top - e ≥ len ∧ at' ≥ e ∧ at' ≥ MIN_USER_VA then UserVirtAddr.new at'
      else topDownScan len mmapTop align s rest

/-- The highest hole below `mmapTop`. -/
def findHoleAligned (t : VmaTree) (len mmapTop align : ℕ) : Option UserVirtAddr :=
  if len = 0 ∨ len > mmapTop - MIN_USER_VA then none
  else topDownScan len mmapTop align mmapTop t.iter.reverse

/-- The ascending scan of the bottom-up search; `low` is the start of the gap being tried. -/
def bottomUpScan (len align : ℕ) : ℕ → List Vma → Option UserVirtAddr
  | low, [] => if MMAP_TOP - low ≥ len then UserVirtAddr.new low else none
  | low, v :: rest =>
    if v.end.asU64 ≤ low then bottomUpScan len align low rest
    else if v.start.asU64 - low ≥ len then UserVirtAddr.new low
    else
      let low := alignUp v.end.asU64 align
      if low > MMAP_TOP - len then none else bottomUpScan len align low rest

/-- The lowest hole above `mmapFloor`. -/
def findHoleBottomUpAligned (t : VmaTree) (len mmapFloor align : ℕ) : Option UserVirtAddr :=
  let floor := alignUp (max mmapFloor MIN_USER_VA) align
  if len = 0 ∨ len > MMAP_TOP - floor then none
  else bottomUpScan len align floor t.iter

/-! ### Ranges -/

def isAligned (va : UserVirtAddr) : Bool := va.asU64 % PAGE_SIZE_BYTES == 0

def validateAligned (va : UserVirtAddr) : Except Error Unit :=
  if isAligned va then .ok () else .error .inval

def validateLen (len : ℕ) : Except Error Unit :=
  if len = 0 ∨ len % PAGE_SIZE_BYTES ≠ 0 then .error .inval else .ok ()

/-- The end of a range, if it fits the word. -/
def endOfRaw (start : UserVirtAddr) (len : ℕ) : Except Error ℕ :=
  if start.asU64 + len < 2 ^ 64 then .ok (start.asU64 + len) else .error .inval

/-- The end of a range, as a user address. -/
def endOf (start : UserVirtAddr) (len : ℕ) : Except Error UserVirtAddr := do
  let «end» ← endOfRaw start len
  match UserVirtAddr.new «end» with
  | some e => .ok e
  | none => .error .inval

namespace AddressSpace

open Prog

/-- An empty address space. -/
def new (selfWeak : Arc) (mmapBase : ℕ) (mmapTopdown : Bool) (rmaps : Rmaps) : AddressSpace where
  selfWeak := selfWeak
  tree := .new
  accounting := .new
  mlockFuture := false
  mlockOnfault := false
  mdwe := .disabled
  mmapBase := mmapBase
  mmapTopdown := mmapTopdown
  hasUffd := false
  rmaps := rmaps

def mdweSet (request : MdweRequest) (s : AddressSpace) : AddressSpace :=
  { s with mdwe := s.mdwe.set request }

/-- The anchor and direction of the search. -/
def setMmapLayout (base : ℕ) (topDown : Bool) (s : AddressSpace) : AddressSpace :=
  { s with mmapTopdown := topDown, mmapBase := base }

/-- Run an operation of the tree. -/
def onTree {ε α : Type} (op : VmaTree → Except Panic (α × VmaTree)) : Vm ε α :=
  ofStep fun s => (op s.tree).map fun p => (p.1, { s with tree := p.2 })

variable {s : AddressSpace} {α ε : Type} {op : VmaTree → Except Panic (α × VmaTree)}

theorem ends_onTree {Q : Except ε α → AddressSpace → Prop} :
    (onTree op : Vm ε α).Ends s Q ↔
      ∀ a t', op s.tree = .ok (a, t') → Q (.ok a) { s with tree := t' } :=
  ends_ofStep.trans ⟨fun h a t' ho => h a _ (Except.map_eq_ok.mpr ⟨_, ho, rfl⟩), fun h _ _ ho => by
    obtain ⟨p, hop, hp⟩ := Except.map_eq_ok.mp ho
    cases hp
    exact h _ _ hop⟩

theorem Ends.onTreeBind {β : Type}
    {f : α → Vm ε β} {Q : Except ε β → AddressSpace → Prop}
    (h : ∀ a t', op s.tree = .ok (a, t') → (f a).Ends { s with tree := t' } Q) :
    (onTree op >>= f).Ends s Q :=
  Prog.Ends.ofStepBind fun _ _ ho => by
    obtain ⟨p, hop, hp⟩ := Except.map_eq_ok.mp ho
    cases hp
    exact h _ _ hop

/-- Whether new mappings are locked. -/
def setMlockFuture (enabled onfault : Bool) (s : AddressSpace) : AddressSpace :=
  { s with mlockOnfault := enabled && onfault, mlockFuture := enabled }

/-- The flags of a new VMA under the `MCL_FUTURE` policy. -/
def futureFlags (s : AddressSpace) (flags : VmaFlags) : VmaFlags :=
  match s.mlockFuture, s.mlockFuture && s.mlockOnfault with
  | false, _ => flags
  | true, false => flags ||| VmaFlags.LOCKED
  | true, true => flags ||| VmaFlags.LOCKED_MASK

/-- The hole that the layout prefers. -/
def unmappedAreaAligned (s : AddressSpace) (len align : ℕ) : Option UserVirtAddr :=
  if s.mmapTopdown then
    findHoleAligned s.tree len (if s.mmapBase = 0 then MMAP_TOP else s.mmapBase) align
  else findHoleBottomUpAligned s.tree len s.mmapBase align

variable (env : Env)

section

variable (placement : MmapPlacement)

/-- The granule a mapping must start on. -/
def granule (backing : VmaBacking) : ℕ :=
  max
    (match backing with
      | .file backing _ => max (env.hugePageSize backing) 1
      | _ => 1)
    (match placement with
      | .advisoryAligned _ align => max align 1
      | _ => 1)

/-- The start of a new mapping, and the end of the range it replaces. -/
def place (s : AddressSpace) (align : ℕ) (placement : MmapPlacement) (len : ℕ) :
    Except MmapError (UserVirtAddr × Option UserVirtAddr) :=
  let alignedForBacking (h : UserVirtAddr) : Bool := h.asU64 &&& (align - 1) == 0
  let exact (h : UserVirtAddr) : Except MmapError UserVirtAddr := do
    (validateAligned h).mapError .vmm
    if alignedForBacking h then (endOf h len).mapError .vmm else .error (.vmm .inval)
  let search (hint : Option UserVirtAddr) : Except MmapError (UserVirtAddr × Option UserVirtAddr) :=
    let fromHint := hint.filter fun h => isAligned h && alignedForBacking h &&
      match endOf h len with
      | .ok «end» => holeClear s.tree h «end»
      | .error _ => false
    match fromHint <|> s.unmappedAreaAligned len align with
    | some start => .ok (start, none)
    | none => .error (.vmm .noMem)
  match placement with
  | .fixed h => do
    let «end» ← exact h
    return (h, some «end»)
  | .fixedNoReplace h => do
    let «end» ← exact h
    if holeClear s.tree h «end» then return (h, none) else .error .exists
  | .advisory hint => search hint
  | .advisoryAligned hint _ => search hint

/-- The refusals of a mapped object, as errors of `mmap`. -/
def setupError : FileBackingError → Error
  | .acces => .access
  | .noMem => .noMem
  | .badf | .inval | .io | .opNotSupp | .again => .inval

/-- Ask the mapped object, the write-or-execute policy and the write seal for admission. -/
def admitMapping (mdwe : MdweMode) (start «end» : UserVirtAddr) (prot mayProt : VmaProt)
    (flags : VmaFlags) (backing : VmaBacking) (s : AddressSpace) : Except Error Unit := do
  if !env.admitMmapAddr start.asU64 then .error .access
  match backing with
  | .file object off =>
    (env.mmapSetup object start «end» (off.toNat / PAGE_SIZE_BYTES)).mapError setupError
  | _ => .ok ()
  match mdwe with
  | .check => if s.mdwe.denies prot prot then .error .access
  | .admitted admission =>
    if admission.owner ≠ s.selfWeak ∨ admission.prot ≠ prot then .error .inval
  | .preserve => .ok ()
  match backing with
  | .file object _ =>
    if bitsContain flags VmaFlags.SHARED && bitsContain mayProt VmaProt.WRITE &&
        (s.rmaps.fileRmap object).any fun r => (s.rmaps.file r).writableDenied then .error .perm
  | _ => .ok ()

section

variable (start «end» : UserVirtAddr)

/-- Clear the range of a `MAP_FIXED` mapping.  The reverse maps are left as they are. -/
def replaceRange : Vm Error Unit := do
  let s ← get
  require (s.tree.anySealed start «end» = false) .perm
  require (s.tree.refusesSplit env start «end» = false) .inval
  let removed ← onTree fun t => t.removeRange start «end»
  modify fun s => { s with accounting := removed.foldl VmAccounting.removeVma s.accounting }

/-- `Vma::new_with_may`: an anonymous VMA gets its family here. -/
def newWithMay {ε : Type} (prot mayProt : VmaProt) (flags : VmaFlags) (backing : VmaBacking) :
    Vm ε Vma :=
  ofStep fun s =>
    let fileRmap := match backing with
      | .file object _ => s.rmaps.fileRmap object
      | _ => none
    let v : Vma :=
      { start, «end», prot, mayProt, pkey := 0, flags, backing, rss := 0, anonVma := none,
        anonPages := false, fileRmap, anonName := none, uffd := none, mempolicy := none,
        mappingOrigin := none }
    match backing with
    | .anonymous =>
      let (av, rmaps) := s.rmaps.newAnon
      .ok ({ v with anonVma := some av }, { s with rmaps })
    | _ => .ok (v, s)

/-- Attach the edges of a new mapping through the VMA that holds it now. -/
def attachNew (s : AddressSpace) : AddressSpace :=
  match s.tree.findContaining start with
  | some v => { s with rmaps := s.rmaps.attachVma s.selfWeak v start.asU64 «end».asU64 }
  | none => s

end

/-- Insert a new VMA, charge it and attach its edges. -/
def publish (added : Vma) : Vm Error Unit := do
  let inserted ← onTree fun t => t.insert added.clone
  ofExcept (inserted.mapError fun _ => Error.inval)
  modify fun s => { s with accounting := s.accounting.addVma added }
  modify (attachNew added.start added.end)

/-- The insertion transaction behind every form of `mmap`. -/
def mmapWithMayAtInnerLocked (len : ℕ) (prot mayProt : VmaProt) (flags : VmaFlags)
    (backing : VmaBacking) (mdwe : MdweMode) : Vm MmapError UserVirtAddr := do
  ofExcept ((validateLen len).mapError .vmm)
  let s ← get
  let flags := s.futureFlags flags
  let (start, replaceEnd) ← ofExcept (s.place (granule env placement backing) placement len)
  let «end» ← ofExcept ((endOf start len).mapError .vmm)
  ofExcept ((s.admitMapping env mdwe start «end» prot mayProt flags backing).mapError .vmm)
  (match replaceEnd with
    | some «end» => (replaceRange env start «end»).mapError .vmm
    | none => pure ())
  let added ← newWithMay start «end» prot mayProt flags backing
  (publish added).mapError .vmm
  return start

/-- `MmapError` where `EEXIST` has no name. -/
def MmapError.toError : MmapError → Error
  | .vmm e => e
  | .exists => .inval

/-- `mmap`, held to the write-or-execute policy. -/
def mmapWithMayAt (len : ℕ) (prot mayProt : VmaProt) (flags : VmaFlags) (backing : VmaBacking) :
    Vm MmapError UserVirtAddr :=
  mmapWithMayAtInnerLocked env placement len prot mayProt flags backing .check

/-- `mmap` that was admitted before. -/
def mmapWithMayAtAdmitted (len : ℕ) (prot mayProt : VmaProt) (flags : VmaFlags)
    (backing : VmaBacking) (admission : MdweAdmission) : Vm MmapError UserVirtAddr :=
  mmapWithMayAtInnerLocked env placement len prot mayProt flags backing (.admitted admission)

end

/-- The placement that a hint and a `MAP_FIXED` flag stand for. -/
def hintPlacement (fixed : Bool) (hint : Option UserVirtAddr) : Except Error MmapPlacement :=
  match fixed, hint with
  | true, some address => .ok (.fixed address)
  | true, none => .error .inval
  | false, hint => .ok (.advisory hint)

/-- `mmap` near a hint, or at it. -/
def mmapWithMay (hint : Option UserVirtAddr) (len : ℕ) (prot mayProt : VmaProt) (flags : VmaFlags)
    (backing : VmaBacking) (fixed : Bool) : Vm Error UserVirtAddr := do
  let placement ← ofExcept (hintPlacement fixed hint)
  (mmapWithMayAt env placement len prot mayProt flags backing).mapError MmapError.toError

def mmap (hint : Option UserVirtAddr) (len : ℕ) (prot : VmaProt) (flags : VmaFlags)
    (backing : VmaBacking) (fixed : Bool) : Vm Error UserVirtAddr :=
  mmapWithMay env hint len prot (VmaProt.READ ||| VmaProt.WRITE ||| VmaProt.EXEC) flags backing
    fixed

/-- The `mmap` of a move. -/
def mmapPreservingProtLocked (hint : Option UserVirtAddr) (len : ℕ) (prot mayProt : VmaProt)
    (flags : VmaFlags) (backing : VmaBacking) (fixed : Bool) : Vm Error UserVirtAddr := do
  let placement ← ofExcept (hintPlacement fixed hint)
  (mmapWithMayAtInnerLocked env placement len prot mayProt flags backing .preserve).mapError
    MmapError.toError

/-! ### Unmapping and protection -/

/-- The VMAs that meet `[s, e)`. -/
def overlapping (t : VmaTree) (s e : ℕ) : List Vma :=
  t.iter.filter fun v => v.end.asU64 > s && v.start.asU64 < e

/-- The span of the VMAs that meet `[s, e)`. -/
def superRange (t : VmaTree) (s e : ℕ) : ℕ × ℕ :=
  (overlapping t s e).foldl (fun p v => (min p.1 v.start.asU64, max p.2 v.end.asU64))
    (2 ^ 64 - 1, 0)

/-- Detach the edges of every VMA in `[lo, hi)`: all families first, then all objects. -/
def detachSpan (lo hi : ℕ) (s : AddressSpace) : AddressSpace :=
  let vs := overlapping s.tree lo hi
  let rmaps := vs.foldl (fun r v => r.detachFamily s.selfWeak v) s.rmaps
  { s with rmaps := vs.foldl (fun r v => r.detachObject s.selfWeak v) rmaps }

/-- Attach the edges of every VMA in `[lo, hi)`. -/
def attachSpan (lo hi : ℕ) (s : AddressSpace) : AddressSpace :=
  let attach (r : Rmaps) (v : Vma) : Rmaps :=
    r.attachVma s.selfWeak v v.start.asU64 v.end.asU64
  { s with rmaps := (overlapping s.tree lo hi).foldl attach s.rmaps }

/-- Run a change of the tree between detaching and re-attaching the edges around `[s, e)`.  When
the change fails, the edges stay detached. -/
def rmapResplit {α : Type} (s e : ℕ) (op : Vm Error α) : Vm Error α := do
  let space ← get
  let (lo, hi) := superRange space.tree s e
  if lo > hi then op
  else do
    modify (detachSpan lo hi)
    let a ← op
    modify (attachSpan lo hi)
    return a

section

variable (addr : UserVirtAddr)

/-- The unmapping under the lock. -/
def munmapLocked («end» : ℕ) : Vm Error Unit := do
  let s ← get
  require (s.tree.anySealedRawEnd addr «end» = false) .perm
  require (s.tree.refusesSplitRawEnd env addr «end» = false) .inval
  let removed ← rmapResplit addr.asU64 «end» (onTree fun t => t.removeRangeRawEnd addr «end»)
  modify fun s => { s with accounting := removed.foldl VmAccounting.removeVma s.accounting }

def munmap (len : ℕ) : Vm Error Unit := do
  ofExcept (validateLen len)
  ofExcept (validateAligned addr)
  let «end» ← ofExcept (endOfRaw addr len)
  munmapLocked env addr «end»

/-- One VMA subrange whose protection changes. -/
structure MprotectStep where
  start : UserVirtAddr
  len : ℕ
  prot : VmaProt
  pkey : BitVec 8

/-- The steps applied, and the error. -/
structure MprotectOutcome where
  steps : List MprotectStep
  error : Option Error

/-- What a caller of `mprotect` decides per VMA. -/
structure MprotectPolicy where
  requested : VmaProt
  readImpliesExec : Bool
  security : Vma → VmaProt → Except Error Unit
  keyFor : Vma → BitVec 8

/-- The protection a VMA is given. -/
def MprotectPolicy.protFor (p : MprotectPolicy) (v : Vma) : VmaProt :=
  if p.readImpliesExec && bitsContain p.requested VmaProt.READ &&
      bitsContain v.mayProt VmaProt.EXEC then
    p.requested ||| VmaProt.EXEC
  else p.requested

/-- Why the VMA at the cursor is refused. -/
def mprotectRefusal (p : MprotectPolicy) (mdwe : MdweRequest) (cursor «end» : ℕ) (v : Vma) :
    Except Error Unit := do
  let prot := p.protFor v
  if !bitsContain v.mayProt prot || mdwe.denies v.prot prot then .error .access
  p.security v prot
  if bitsContain v.flags VmaFlags.SEALED then .error .perm
  if (cursor > v.start.asU64 || «end» < v.end.asU64) && !vmaMaySplit env v then .error .inval

/-- The VMA a walk from `cursor` meets first. -/
def vmaFrom (t : VmaTree) (cursor : UserVirtAddr) : Option Vma :=
  match t.map.floor? cursor with
  | some (_, v) => if v.end.asU64 > cursor.asU64 then some v else above
  | none => above
where
  /-- The first VMA at or after the cursor. -/
  above : Option Vma := (t.map.get? cursor <|> (t.map.next? cursor).map Prod.snd)

/-- The walk that decides the steps.  It advances by at least one page a turn, so as many turns
as there are VMAs are enough. -/
def mprotectSteps (env : Env) (p : MprotectPolicy) (s : AddressSpace) («end» : UserVirtAddr) :
    ℕ → UserVirtAddr → List MprotectStep → Except Panic (List MprotectStep × Option Error)
  | 0, _, steps => .ok (steps, none)
  | fuel + 1, cursor, steps =>
    if cursor.asU64 < «end».asU64 then
      match vmaFrom s.tree cursor with
      | none => .ok (steps, some .noMem)
      | some v =>
        if v.start.asU64 > cursor.asU64 then .ok (steps, some .noMem)
        else match mprotectRefusal env p s.mdwe cursor.asU64 «end».asU64 v with
          | .error e => .ok (steps, some e)
          | .ok () =>
            let stepEnd := min v.end «end»
            mprotectSteps env p s «end» fuel stepEnd (steps ++
              [⟨cursor, stepEnd.asU64 - cursor.asU64, p.protFor v, p.keyFor v⟩])
    else .ok (steps, none)

/-- Apply one step. -/
def mprotectApply (step : MprotectStep) : Vm Error Unit := do
  let stepEnd := step.start.asU64 + step.len
  rmapResplit step.start.asU64 stepEnd do
    let e ← ofPanic (expect (UserVirtAddr.new stepEnd) "validated user range")
    let r ← onTree fun t => t.mprotectRangeWithPkey step.start e step.prot (some step.pkey)
    ofExcept r

/-- Apply the steps in order, and stop at the first that fails. -/
def mprotectApplyAll (error : Option Error) : List MprotectStep → List MprotectStep →
    Vm Error MprotectOutcome
  | applied, [] => pure ⟨applied, error⟩
  | applied, step :: rest => do
    match ← (mprotectApply step).attempt with
    | .error unexpected => pure ⟨applied, some unexpected⟩
    | .ok () => mprotectApplyAll error (applied ++ [step]) rest

/-- `mprotect`: decide the steps, apply them. -/
def mprotectUserWithSecurity (len : ℕ) (p : MprotectPolicy) : Vm Error MprotectOutcome := do
  ofExcept (validateLen len)
  ofExcept (validateAligned addr)
  let «end» ← ofExcept (endOf addr len)
  let s ← get
  let (steps, error) ← ofPanic (mprotectSteps env p s «end» (s.tree.iter.length + 1) addr [])
  mprotectApplyAll error [] steps

def mprotectUser (len : ℕ) (requested : VmaProt) (readImpliesExec : Bool)
    (keyFor : Vma → BitVec 8) : Vm Error MprotectOutcome :=
  mprotectUserWithSecurity env addr len
    { requested, readImpliesExec, security := fun _ _ => .ok (), keyFor }

end

/-! ### Locking -/

/-- The locked bytes of the tree inside `[start, end)`. -/
def lockedBytes (start «end» : ℕ) (t : VmaTree) : ℕ :=
  ((t.iter.filter fun v =>
      VmAccounting.locked v && v.end.asU64 > start && v.start.asU64 < «end»).map
    fun v => min v.end.asU64 «end» - max v.start.asU64 start).sum

/-- Set and clear flags, and move the locked bytes with them. -/
def updateFlagsRange {ε : Type} (start : UserVirtAddr) (len : ℕ) (set clear : VmaFlags) :
    Vm ε Unit :=
  match UserVirtAddr.new (min (start.asU64 + len) (2 ^ 64 - 1)) with
  | none => pure ()
  | some «end» => do
    let s ← get
    let oldLocked := lockedBytes start.asU64 «end».asU64 s.tree
    onTree fun t => (t.updateFlagsRange start «end» set clear).map ((), ·)
    modify fun s =>
      let newLocked := lockedBytes start.asU64 «end».asU64 s.tree
      { s with accounting := s.accounting.replaceLockedRange oldLocked newLocked }

/-- A subrange that ended a transition locked. -/
structure LockedSpan where
  start : UserVirtAddr
  len : ℕ
  onfault : Bool

/-- The spans locked, and the error. -/
structure MlockOutcome where
  spans : List LockedSpan
  error : Option Error

/-- Device ranges are never locked. -/
def supportsMlock (v : Vma) : Bool :=
  match v.backing with
  | .physRange _ _ | .special => false
  | _ => true

/-- A copy of every VMA. -/
def snapshotVmas (s : AddressSpace) : List Vma := s.tree.iter.map Vma.clone

/-- The span a segment contributes. -/
def lockedSpan (add : VmaFlags) (segS segE : ℕ) : List LockedSpan :=
  if bitsContain add VmaFlags.LOCKED then
    match UserVirtAddr.new segS with
    | some ss => [⟨ss, segE - segS, bitsContain add VmaFlags.LOCKONFAULT⟩]
    | none => []
  else []

/-- The walk of the `mlock` family over a snapshot; `tmp` is the end of what is covered. -/
def lockWalk (s «end» : ℕ) (add : VmaFlags) :
    List Vma → ℕ → List LockedSpan → Vm Empty MlockOutcome
  | [], tmp, spans => pure ⟨spans, if tmp < «end» then some .noMem else none⟩
  | v :: rest, tmp, spans =>
    let segS := max s v.start.asU64
    let segE := min «end» v.end.asU64
    if v.start.asU64 > tmp then pure ⟨spans, some .noMem⟩
    else if !supportsMlock v then lockWalk s «end» add rest v.end.asU64 spans
    else if bitsDifference v.flags VmaFlags.LOCKED_MASK ||| add ≠ v.flags then
      match UserVirtAddr.new segS, UserVirtAddr.new segE with
      | some ss, some _ => do
        updateFlagsRange ss (segE - segS) add (bitsDifference VmaFlags.LOCKED_MASK add)
        lockWalk s «end» add rest v.end.asU64 (spans ++ lockedSpan add segS segE)
      | _, _ => lockWalk s «end» add rest v.end.asU64 spans
    else lockWalk s «end» add rest v.end.asU64 (spans ++ lockedSpan add segS segE)

/-- Replace the lock flags over a range; a hole ends the walk with what came before changed. -/
def applyVmaLockFlags (start : UserVirtAddr) (len : ℕ) (add : VmaFlags) : Vm Empty MlockOutcome :=
  let s := start.asU64
  if s + len < 2 ^ 64 then
    if s + len = s then pure ⟨[], none⟩
    else do
      let space ← get
      let vmas := space.snapshotVmas.filter fun v => v.end.asU64 > s && v.start.asU64 < s + len
      lockWalk s (s + len) add vmas s []
  else pure ⟨[], some .inval⟩

/-- One turn of `mlockall`. -/
def lockallTurn (add : VmaFlags) (onfault : Bool) (spans : List LockedSpan) (v : Vma) :
    Vm Empty (List LockedSpan) :=
  if !supportsMlock v then pure spans
  else do
    let len := v.end.asU64 - v.start.asU64
    when (v.flags &&& VmaFlags.LOCKED_MASK ≠ add)
      (updateFlagsRange v.start len add (bitsDifference VmaFlags.LOCKED_MASK add))
    return spans ++ [⟨v.start, len, onfault⟩]

/-- `mlockall`. -/
def applyMlockallFlags (future current onfault : Bool) : Vm Empty (List LockedSpan) := do
  modify (setMlockFuture future onfault)
  if !current then return []
  else do
    let add := if onfault then VmaFlags.LOCKED_MASK else VmaFlags.LOCKED
    let s ← get
    s.snapshotVmas.foldlM (lockallTurn add onfault) []

/-- One turn of `munlockall`. -/
def munlockTurn (cleared : List LockedSpan) (v : Vma) : Vm Empty (List LockedSpan) :=
  if v.flags &&& VmaFlags.LOCKED_MASK ≠ 0 then do
    let len := v.end.asU64 - v.start.asU64
    updateFlagsRange v.start len 0 VmaFlags.LOCKED_MASK
    return cleared ++ [⟨v.start, len, false⟩]
  else pure cleared

/-- `munlockall`. -/
def munlockAll : Vm Empty (List LockedSpan) := do
  modify (setMlockFuture false false)
  let s ← get
  s.snapshotVmas.foldlM munlockTurn []

/-! ### Userfaultfd registrations and the stack -/

/-- Register a userfaultfd context over a range. -/
def setUffd {ε : Type} (start «end» : ℕ) (ctx : Arc) (modes : VmaFlags) : Vm ε Unit :=
  match UserVirtAddr.new start, UserVirtAddr.new «end» with
  | some s, some e => do
    modify fun s => { s with hasUffd := true }
    onTree fun t => (t.setUffdRange s e (some ctx) modes).map ((), ·)
  | _, _ => pure ()

/-- Drop the registrations of a range. -/
def clearUffd {ε : Type} (start «end» : ℕ) : Vm ε Unit :=
  match UserVirtAddr.new start, UserVirtAddr.new «end» with
  | some s, some e => onTree fun t => (t.setUffdRange s e none 0).map ((), ·)
  | _, _ => pure ()

/-- The first page of a growth to `va`. -/
def growStart (va : UserVirtAddr) : UserVirtAddr :=
  ⟨va.asU64 - va.asU64 % PAGE_SIZE_BYTES, lt_of_le_of_lt (Nat.sub_le _ _) va.isUser⟩

/-- Extend the stack VMA above a fault.  The counters and the reverse maps are left as they
are. -/
def tryGrowStack {ε : Type} (va : UserVirtAddr) (maxSize maxGrow : ℕ) : Vm ε Bool := do
  let s ← get
  match s.tree.findGrowsdownAbove va STACK_GROW_MAX with
  | none => return false
  | some v =>
    let newStart := growStart va
    if v.end.asU64 - newStart.asU64 > maxSize then return false
    else if v.start.asU64 - newStart.asU64 > maxGrow then return false
    else do
      let r ← onTree fun t => .ok (t.extendGrowsdownStart v.start newStart)
      return r.toBool

end AddressSpace

end Oxide
