/-
`mremap`, with the calls it makes on userfaultfd monitors.

A move is charged to the monitor of its source before the source is looked at, and the charge
stands until the move is announced or abandoned. The calls on monitors are kept beside the
address space, in the order in which they are made, so `mremapFullWithMove` is a program over a
`Charged` state.

* `uncharged_ends`, `Keeps.uncharged`, `Keeps.call`: a step that calls no monitor does to the
  address space what it does alone, and a call of a monitor leaves the address space as it is.
-/
import Oxide.AddressSpace

namespace Oxide

/-- A call on a userfaultfd monitor. -/
inductive UffdCall
  | changeBegin (ctx : Arc)
  | changeComplete (ctx : Arc) (source to' len : ℕ)
  | changeAbort (ctx : Arc)
  deriving DecidableEq

/-- An address space, and the calls made on monitors so far. -/
structure Charged where
  space : AddressSpace
  calls : List UffdCall

/-- Code of the VMM that calls monitors. -/
abbrev ChargedVm (ε α : Type) : Type := Prog Panic Charged ε α

namespace AddressSpace

open Prog

variable {ε α : Type}

/-- Code that calls no monitor. -/
def uncharged (m : Vm ε α) : ChargedVm ε α := fun c =>
  (m c.space).map fun p => (p.1, { c with space := p.2 })

/-- Call a monitor. -/
def call (e : UffdCall) : ChargedVm ε Unit := modify fun c => { c with calls := c.calls ++ [e] }

theorem uncharged_ends {m : Vm ε α} {c : Charged} {Q : Except ε α → AddressSpace → Prop}
    (hm : m.Ends c.space Q) :
    (uncharged m).Ends c fun r c' => c'.calls = c.calls ∧ Q r c'.space := by
  intro r c' h
  obtain ⟨p, hr, hp⟩ := Except.map_eq_ok.mp h
  cases hp
  exact ⟨rfl, hm _ _ hr⟩

theorem Keeps.uncharged {P : AddressSpace → Prop} {m : Vm ε α} (hm : m.Keeps P) :
    (uncharged m).Keeps fun c => P c.space :=
  fun c hc => (uncharged_ends (hm c.space hc)).mono fun _ _ h => h.2

theorem Keeps.call {P : AddressSpace → Prop} (e : UffdCall) :
    (call e : ChargedVm ε Unit).Keeps fun c => P c.space :=
  Keeps.modify fun _ h => h

/-! ### The watch of a move -/

/-- A userfaultfd registration that follows a move. -/
structure RemapWatch where
  ctx : Arc
  modes : VmaFlags

/-- The registration that a move of `old` has to take along: its monitor tracks moves. -/
def watchOf (env : Env) (s : AddressSpace) (old : UserVirtAddr) : Option RemapWatch :=
  if s.hasUffd then do
    let v ← s.tree.findContaining old
    let ctx ← v.uffd
    if env.wantsRemap ctx then some ⟨ctx, v.flags &&& VmaFlags.UFFD_MASK⟩ else none
  else none

/-- Charge a move to the source's monitor, if it tracks moves. -/
def remapWatch (env : Env) (old : UserVirtAddr) : ChargedVm ε (Option RemapWatch) := do
  let c ← get
  match c.space.watchOf env old with
  | none => pure none
  | some w => do
    call (.changeBegin w.ctx)
    return some w

/-- The charge of a call that may move its source; a shrinking call has none. -/
def remapWatchIf (moves : Bool) (env : Env) (old : UserVirtAddr) :
    ChargedVm ε (Option RemapWatch) :=
  if moves then remapWatch env old else pure none

/-- Arm the registration at the destination of a move, and announce the move. -/
def remapDone (w : Option RemapWatch) (source to' len : ℕ) : ChargedVm Error Unit :=
  match w with
  | none => pure ()
  | some w => do
    uncharged (setUffd to' (to' + len) w.ctx w.modes)
    call (.changeComplete w.ctx source to' len)

/-- Release the charge of a move that did not happen. -/
def remapFailed (w : Option RemapWatch) : ChargedVm Error Unit :=
  match w with
  | none => pure ()
  | some w => call (.changeAbort w.ctx)

/-- A step whose failure ends the call, with the charge released. -/
def orRelease (watch : Option RemapWatch) (m : ChargedVm Error α) : ChargedVm Error α := do
  match ← m.attempt with
  | .error e => do
    remapFailed watch
    fail e
  | .ok a => pure a

/-! ### The call -/

/-- What the page-table owner answers during a move. -/
structure Mover where
  movePages : (src dst len : ℕ) → Except Error Unit
  unmapDestination : (addr len : ℕ) → Except Error Unit

variable (env : Env) (mover : Mover)

/-- The move itself: map the destination, move the pages, and drop the source if `keep` is
unset.  A failed move takes the destination down again. -/
def relocate (src : Vma) (old : UserVirtAddr) (oldSize newSize : ℕ) (hint : Option UserVirtAddr)
    (fixed keep : Bool) (watch : Option RemapWatch) : ChargedVm Error UserVirtAddr := do
  let backing := src.backing.rebase (old.bits - src.start.bits)
  (match fixed, hint with
    | true, some destination =>
      orRelease watch (ofExcept (mover.unmapDestination destination.asU64 newSize))
    | _, _ => pure ())
  let newVa ← orRelease watch (uncharged
    (mmapPreservingProtLocked env hint newSize src.prot src.mayProt src.flags backing fixed))
  match mover.movePages old.asU64 newVa.asU64 (min oldSize newSize) with
  | .error e => do
    uncharged (munmapLocked env newVa (newVa.asU64 + newSize)).ignore
    remapFailed watch
    fail e
  | .ok () => do
    uncharged (when (keep = false) (munmapLocked env old (old.asU64 + oldSize)).ignore)
    remapDone watch old.asU64 newVa.asU64 oldSize
    return newVa

/-- What follows the checks of a call that keeps no source: shrink in place, do nothing, or move. -/
def resize (src : Vma) (old : UserVirtAddr) (oldSize newSize : ℕ) (maymove fixed : Bool)
    (newAddr : Option UserVirtAddr) (watch : Option RemapWatch) : ChargedVm Error UserVirtAddr :=
  if newSize < oldSize ∧ fixed = false then do
    uncharged (match UserVirtAddr.new (old.asU64 + newSize),
        UserVirtAddr.new (old.asU64 + oldSize) with
      | some da, some «end» => (munmapLocked env da «end».asU64).ignore
      | _, _ => pure ())
    return old
  else if newSize = oldSize ∧ fixed = false then return old
  else do
    require (maymove ∨ fixed) .noMem
    let hint := if fixed then newAddr <|> some old else none
    relocate env mover src old oldSize newSize hint fixed false watch

/-- `mremap`: shrink in place, move, or grow by moving.  The charge is taken before the source is
checked. -/
def mremapFullWithMove (old : UserVirtAddr) (oldSize newSize : ℕ)
    (maymove fixed dontunmap : Bool) (newAddr : Option UserVirtAddr) :
    ChargedVm Error UserVirtAddr := do
  require (old.asU64 % PAGE_SIZE_BYTES = 0 ∧ newSize ≠ 0) .inval
  let oldEnd ← ofExcept (endOfRaw old oldSize)
  let c ← get
  if dontunmap then do
    require (maymove ∧ newSize = oldSize) .inval
    let watch ← remapWatch env old
    match c.space.tree.findContaining old with
    | none => fail .fault
    | some found => do
      let src := found.clone
      require (oldSize ≠ 0 ∧ oldEnd ≤ src.end.asU64) .fault
      relocate env mover src old oldSize newSize newAddr fixed true watch
  else do
    let watch ← remapWatchIf ((newSize ≥ oldSize || fixed) && (maymove || fixed)) env old
    match c.space.tree.findContaining old with
    | none => fail .fault
    | some found => do
      let src := found.clone
      when (fixed || newSize > oldSize) do
        let coveredEnd ← ofExcept (endOfRaw old (min newSize oldSize))
        require (coveredEnd ≤ src.end.asU64) .fault
        require (oldSize ≠ 0 ∨ src.flags &&& VmaFlags.SHARED ≠ 0) .inval
      resize env mover src old oldSize newSize maymove fixed newAddr watch

end AddressSpace

end Oxide
