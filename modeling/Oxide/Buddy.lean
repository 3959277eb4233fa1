/-
The buddy lists: blocks of `2 ^ order` pages, free in one zone and one mobility class.

A free block is recorded five times: a bit of its order's bitmap, a node of an intrusive
doubly linked list whose words live in the page itself, the head of that list, the list's
count, and the pageblock map that names its class.

* `pushFree`, `popFree`, `unlinkFree`: the list primitives, with their self-checks;
* `seedWithinZone`: the greedy cover of a usable range;
* `takeFromOrder`, `claimFallback`, `takeBlock`: allocation: preferred lists, then a whole
  fallback pageblock, then a fallback block as it is;
* `returnToBuddy`, `detachPage`: freeing, with coalescing, and taking out one given page.

A failed self-check is a `Fault`. So is a counter subtraction below zero: the release build
would wrap there, and showing that no run does is part of the verification.
-/
import Oxide.Zone

namespace Oxide.Buddy

open DyadicBlock

/-- Why a run stops. -/
inductive Fault
  | kassert (msg : String)
  | expect (msg : String)
  | underflow (counter : String)
  deriving DecidableEq

/-- A self-check. -/
def kassert (c : Prop) [Decidable c] (msg : String) : Except Fault Unit :=
  if c then .ok () else .error (.kassert msg)

@[simp] theorem kassert_true {c : Prop} [Decidable c] (h : c) (msg : String) :
    kassert c msg = .ok () := if_pos h

@[simp] theorem kassert_false {c : Prop} [Decidable c] (h : ¬ c) (msg : String) :
    kassert c msg = .error (.kassert msg) := if_neg h

/-- A subtraction from a `u64` counter. -/
def counterSub (a b : ℕ) (counter : String) : Except Fault ℕ :=
  if b ≤ a then .ok (a - b) else .error (.underflow counter)

theorem counterSub_of_le {a b : ℕ} (h : b ≤ a) (counter : String) :
    counterSub a b counter = .ok (a - b) := if_pos h

@[simp] theorem ok_bind {ε α β : Type} (a : α) (f : α → Except ε β) :
    (Except.ok a >>= f) = f a := rfl

@[simp] theorem error_bind {ε α β : Type} (e : ε) (f : α → Except ε β) :
    (Except.error e >>= f) = .error e := rfl

/-- The header of a free page. -/
structure FreeNode where
  poison : ℕ
  order : ℕ
  next : ℕ
  prev : ℕ
  deriving DecidableEq

/-- The words of a page that holds no header. -/
def FreeNode.zero : FreeNode := ⟨0, 0, 0, 0⟩

/-- Which free list: zone, mobility class, order. -/
structure ListKey where
  zone : ZoneType
  mt : MigrateType
  order : ℕ
  deriving DecidableEq

/-- The lock-protected buddy lists and the pages they live in. -/
structure FreeArea where
  pfnMax : ℕ
  layout : ZoneLayout
  /-- Bit `i` of order `o`: the block of order `o` at `i << o` is free. -/
  bitmaps : ℕ → ℕ → Bool
  /-- The mobility class of each pageblock. -/
  pageblocks : ℕ → MigrateType
  freeHeads : ListKey → ℕ
  freeCount : ListKey → ℕ
  mem : ℕ → FreeNode

namespace FreeArea

variable (a : FreeArea)

section

variable (pfn : ℕ)

def zi : ZoneType := a.layout.zi pfn

def migratetype : MigrateType := a.pageblocks (pfn >>> PAGEBLOCK_ORDER)

def next : ℕ := (a.mem pfn).next

def prev : ℕ := (a.mem pfn).prev

/-! ### Words -/

variable (order index : ℕ)

def bitmapWrite (v : Bool) : FreeArea :=
  { a with bitmaps := fun o i => if o = order ∧ i = index then v else a.bitmaps o i }

def bitmapSet : FreeArea := a.bitmapWrite order index true

def bitmapClear : FreeArea := a.bitmapWrite order index false

def writeNode (node : FreeNode) : FreeArea :=
  { a with mem := Function.update a.mem pfn node }

def writeNext (pfn v : ℕ) : FreeArea := a.writeNode pfn { a.mem pfn with next := v }

def writePrev (pfn v : ℕ) : FreeArea := a.writeNode pfn { a.mem pfn with prev := v }

def writeHead (k : ListKey) (v : ℕ) : FreeArea :=
  { a with freeHeads := Function.update a.freeHeads k v }

def writeCount (k : ListKey) (v : ℕ) : FreeArea :=
  { a with freeCount := Function.update a.freeCount k v }

def stampBlock (pfn order next prev : ℕ) : FreeArea :=
  a.writeNode pfn ⟨POISON_MAGIC, order, next, prev⟩

/-- Set the class of every pageblock that meets `[start, stop)`. -/
def setRange (start stop : ℕ) (mt : MigrateType) : FreeArea :=
  if stop ≤ start then a else
  { a with pageblocks := fun b =>
      if start >>> PAGEBLOCK_ORDER ≤ b ∧ b ≤ (stop - 1) >>> PAGEBLOCK_ORDER then mt
      else a.pageblocks b }

/-! ### List primitives -/

/-- Push a block onto exactly its zone and pageblock-type free list. -/
def pushFree (pfn order : ℕ) (mt : MigrateType) : Except Fault FreeArea := do
  let zone := a.zi pfn
  kassert (a.migratetype pfn = mt) "pmm free block wrong migratetype"
  let head := a.freeHeads ⟨zone, mt, order⟩
  let a := a.stampBlock pfn order head PFN_NULL
  let a := if head ≠ PFN_NULL then a.writePrev head pfn else a
  return a.writeHead ⟨zone, mt, order⟩ pfn

/-- Pop one block from a selected free list. -/
def popFree (zone : ZoneType) (order : ℕ) (mt : MigrateType) : Except Fault (ℕ × FreeArea) := do
  let head := a.freeHeads ⟨zone, mt, order⟩
  let next := a.next head
  kassert (a.prev head = PFN_NULL) "pmm free-list head prev mismatch"
  kassert (next = PFN_NULL ∨ next < a.pfnMax) "pmm free-list next out of range"
  if next ≠ PFN_NULL then
    kassert (next ≠ head) "pmm free-list self link"
    kassert (a.zi next = zone) "pmm free-list next wrong zone"
    kassert (a.migratetype next = mt) "pmm free-list next wrong migratetype"
    kassert (a.prev next = head) "pmm free-list next back-link mismatch"
    return (head, (a.writePrev next PFN_NULL).writeHead ⟨zone, mt, order⟩ next)
  else return (head, a.writeHead ⟨zone, mt, order⟩ next)

/-- Remove a known block from its selected free list. -/
def unlinkFree (pfn order : ℕ) (mt : MigrateType) : Except Fault FreeArea := do
  let zone := a.zi pfn
  kassert (a.migratetype pfn = mt) "pmm unlink wrong migratetype"
  let next := a.next pfn
  let prev := a.prev pfn
  kassert (next = PFN_NULL ∨ next < a.pfnMax) "pmm free-list next out of range"
  kassert (prev = PFN_NULL ∨ prev < a.pfnMax) "pmm free-list prev out of range"
  let a ←
    if prev = PFN_NULL then do
      kassert (a.freeHeads ⟨zone, mt, order⟩ = pfn) "pmm free-list head mismatch"
      pure (a.writeHead ⟨zone, mt, order⟩ next)
    else do
      kassert (a.zi prev = zone ∧ a.migratetype prev = mt) "pmm free-list prev wrong class"
      pure (a.writeNext prev next)
  if next ≠ PFN_NULL then
    kassert (a.zi next = zone ∧ a.migratetype next = mt) "pmm free-list next wrong class"
    return a.writePrev next prev
  else return a

/-- A free page has kept its mark. -/
def verifyPoison : Except Fault Unit :=
  kassert ((a.mem pfn).poison = POISON_MAGIC) "pmm poison mismatch on alloc"

end

section

variable (zone : ZoneType)

/-- Put a block on its list and record it: list, bitmap and count always move together. -/
def publish (pfn order : ℕ) (mt : MigrateType) : Except Fault FreeArea := do
  let a ← a.pushFree pfn order mt
  let a := a.bitmapSet order (pfn >>> order)
  return a.writeCount ⟨zone, mt, order⟩ (a.freeCount ⟨zone, mt, order⟩ + 1)

/-- Forget a block that has left its list. -/
def forget (pfn order : ℕ) (mt : MigrateType) : Except Fault FreeArea := do
  let a := a.bitmapClear order (pfn >>> order)
  let n ← counterSub (a.freeCount ⟨zone, mt, order⟩) 1 "free_count"
  return a.writeCount ⟨zone, mt, order⟩ n

/-! ### Seeding -/

/-- The largest order, from `o` down, at which `cur` is aligned and the block fits. -/
def seedOrder (cur stop : ℕ) : ℕ → ℕ
  | 0 => 0
  | o + 1 =>
    if cur &&& (2 ^ (o + 1) - 1) = 0 ∧ 2 ^ (o + 1) ≤ stop - cur then o + 1
    else seedOrder cur stop o

/-- Seed `[cur, stop)` with at most `n` greedy blocks, counting the pages. -/
def seedWithinZone (zone : ZoneType) (stop : ℕ) : ℕ → ℕ → ℕ → FreeArea → Except Fault (FreeArea × ℕ)
  | 0, _, managed, a => .ok (a, managed)
  | n + 1, cur, managed, a =>
    if cur < stop then do
      let order := seedOrder cur stop MAX_ORDER
      let a ← a.publish zone cur order (a.migratetype cur)
      seedWithinZone zone stop n (cur + 2 ^ order) (managed + 2 ^ order) a
    else .ok (a, managed)

/-! ### Allocation -/

/-- Split a detached block of order `split` down to `order`, keeping the lower halves. -/
def splitDown (zone : ZoneType) (pfn order : ℕ) (mt : MigrateType) : ℕ → FreeArea →
    Except Fault FreeArea
  | 0, a => .ok a
  | split + 1, a =>
    if order < split + 1 then do
      let a ← a.publish zone (pfn + 2 ^ split) split mt
      splitDown zone pfn order mt split a
    else .ok a

/-- Pop a block and split it. -/
def takeFromOrder (order currentOrder : ℕ) (mt : MigrateType) : Except Fault (ℕ × FreeArea) := do
  let (pfn, a) ← a.popFree zone currentOrder mt
  let a ← a.forget zone pfn currentOrder mt
  let a ← splitDown zone pfn order mt currentOrder a
  return (pfn, a)

/-- The first order of a list of orders whose free list is populated. -/
def populated (mt : MigrateType) (orders : List ℕ) : Option ℕ :=
  orders.find? fun o => a.freeHeads ⟨zone, mt, o⟩ ≠ PFN_NULL

/-- The orders `lo ..= MAX_ORDER`. -/
def ordersFrom (lo : ℕ) : List ℕ := List.range' lo (MAX_ORDER + 1 - lo)

/-- Claim a whole free fallback block, of at least a pageblock and as large as possible,
before splitting it. -/
def claimFallback (order : ℕ) (requested fallback : MigrateType) :
    Except Fault (Option ℕ × FreeArea) :=
  match a.populated zone fallback (ordersFrom (max order PAGEBLOCK_ORDER)).reverse with
  | none => .ok (none, a)
  | some currentOrder => do
    let (pfn, a) ← a.popFree zone currentOrder fallback
    let a ← a.forget zone pfn currentOrder fallback
    let a := a.setRange pfn (pfn + 2 ^ currentOrder) requested
    let a ← splitDown zone pfn order requested currentOrder a
    return (some pfn, a)

/-- The claims, one fallback class after the other. -/
def claimFallbacks (zone : ZoneType) (order : ℕ) (requested : MigrateType) :
    List MigrateType → Except Fault (Option ℕ × FreeArea)
  | [] => .ok (none, a)
  | fallback :: rest => do
    match ← a.claimFallback zone order requested fallback with
    | (some pfn, a) => return (some pfn, a)
    | (none, _) => claimFallbacks zone order requested rest

/-- The steals, one fallback class after the other: a block is split but not retyped. -/
def stealFallbacks (zone : ZoneType) (order : ℕ) : List MigrateType →
    Except Fault (Option ℕ × FreeArea)
  | [] => .ok (none, a)
  | fallback :: rest =>
    match a.populated zone fallback (ordersFrom order) with
    | some currentOrder => do
      let (pfn, a) ← a.takeFromOrder zone order currentOrder fallback
      return (some pfn, a)
    | none => stealFallbacks zone order rest

/-- Take a block from the preferred list, then claim a complete fallback pageblock, then
finally steal one fallback block without retyping it. -/
def takeBlock (order : ℕ) (requested : MigrateType) : Except Fault (Option ℕ × FreeArea) :=
  match a.populated zone requested (ordersFrom order) with
  | some currentOrder => do
    let (pfn, a) ← a.takeFromOrder zone order currentOrder requested
    return (some pfn, a)
  | none => do
    match ← a.claimFallbacks zone order requested requested.fallbacks with
    | (some pfn, a) => return (some pfn, a)
    | (none, a) => a.stealFallbacks zone order requested.fallbacks

/-- Free blocks by order across mobility classes. -/
def freeArea (order : ℕ) : ℕ :=
  (MigrateType.all.map fun mt => a.freeCount ⟨zone, mt, order⟩).sum

/-- Free base pages on every list of one zone. -/
def zoneFreePages : ℕ :=
  (MigrateType.all.map fun mt =>
    ((List.range (MAX_ORDER + 1)).map fun o => a.freeCount ⟨zone, mt, o⟩ <<< o).sum).sum

end

/-! ### Freeing -/

/-- Merge `p` with its free siblings for at most `n` orders. -/
def coalesce (zone : ZoneType) (mt : MigrateType) : ℕ → ℕ → ℕ → FreeArea →
    Except Fault (ℕ × ℕ × FreeArea)
  | 0, p, o, a => .ok (p, o, a)
  | n + 1, p, o, a =>
    let buddy := buddyOf o p
    if buddy + 2 ^ o > a.pfnMax then .ok (p, o, a)
    else if a.zi buddy ≠ zone ∨ a.migratetype buddy ≠ mt ∨ a.bitmaps o (buddy >>> o) = false then
      .ok (p, o, a)
    else do
      let a ← a.unlinkFree buddy o mt
      let a ← a.forget zone buddy o mt
      coalesce zone mt n (min p buddy) (o + 1) a

/-- Place a block that is not free into the mergeable lists, coalescing upwards. -/
def returnToBuddy (pfn order : ℕ) : Except Fault FreeArea := do
  let zone := a.zi pfn
  let mt := a.migratetype pfn
  let (p, o, a) ← coalesce zone mt (MAX_ORDER - order) pfn order a
  a.publish zone p o mt

/-! ### Reservation -/

/-- The smallest order at which a free block holds `p`. -/
def containingOrder (p : ℕ) : Option ℕ :=
  (ordersFrom 0).find? fun o => a.bitmaps o (p >>> o)

/-- Split a detached block down to the page `p`, publishing the half without it each time. -/
def splitAround (zone : ZoneType) (mt : MigrateType) (p : ℕ) : ℕ → ℕ → FreeArea →
    Except Fault FreeArea
  | 0, _, a => .ok a
  | o + 1, blk, a =>
    let buddy := blk + 2 ^ o
    if buddy ≤ p then do
      let a ← a.publish zone blk o mt
      splitAround zone mt p o buddy a
    else do
      let a ← a.publish zone buddy o mt
      splitAround zone mt p o blk a

/-- Take the page `p` out of the free block of order `o` that holds it. -/
def detachPage (p o : ℕ) : Except Fault FreeArea := do
  let blk := blockOf o p
  let zone := a.zi blk
  let mt := a.migratetype blk
  let a ← a.unlinkFree blk o mt
  let a ← a.forget zone blk o mt
  splitAround zone mt p o blk a

end FreeArea

end Oxide.Buddy
