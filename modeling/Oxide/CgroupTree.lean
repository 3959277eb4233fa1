/-
The control-group hierarchy.

The hierarchy is a tree of directories. A node lists the processes and counts the threads that are
directly in it, carries the pids and memory limits set on it, and the memory charged to it; two
indices say for a process leader and for a thread which node it is in.

* `CgTree.create`, `CgTree.remove`: directories come and go;
* `CgTree.addProc`, `CgTree.addThread`, `CgTree.exitTask`: tasks join, move and exit;
* `CgTree.prepareFork`, `CgTree.commitFork`, `CgTree.cancelFork`: a fork reserves its place before
  the child exists;
* `CgTree.tryChargeMemoryTransition`, `CgTree.tryChargeSwap` and their inverses: charges are kept
  at one node and tested against the limits of all nodes above.

A call that panics returns nothing.
-/
import Mathlib.Data.Finset.Card
import Mathlib.Data.String.Basic
import Oxide.OrdMap
import Oxide.Word

namespace Oxide

/-- The errors of the calls. -/
inductive CgErr
  | einval
  | enoent
  | eexist
  | ebusy
  | enodev
  | enospc
  | eagain
  | eopnotsupp
  deriving DecidableEq

/-! ### Memory ledgers -/

/-- The class of a resident page. -/
inductive MemoryKind
  | anon
  | file
  | shmem
  | kernelStack
  | slabReclaimable
  | slabUnreclaimable
  | pageTables
  | perCpu
  | sock
  | vmalloc
  deriving DecidableEq

/-- The resident bytes charged to a node, by class. -/
structure MemoryStats where
  get : MemoryKind → ℕ

namespace MemoryStats

def zero : MemoryStats := ⟨fun _ => 0⟩

/-- The classes, in the order the total is formed. -/
def kinds : List MemoryKind :=
  [.anon, .file, .shmem, .kernelStack, .slabReclaimable, .slabUnreclaimable, .pageTables, .perCpu,
    .sock, .vmalloc]

/-- Bytes of all classes. -/
def total (m : MemoryStats) : ℕ := (kinds.map m.get).foldl satAdd 0

/-- Count bytes of a class. -/
def add (m : MemoryStats) (kind : MemoryKind) (bytes : ℕ) : MemoryStats :=
  ⟨Function.update m.get kind (satAdd (m.get kind) bytes)⟩

/-- Take bytes off, not below zero. -/
def sub (m : MemoryStats) (kind : MemoryKind) (bytes : ℕ) : MemoryStats :=
  ⟨Function.update m.get kind (m.get kind - bytes)⟩

end MemoryStats

/-! ### Nodes -/

def MEMORY : BitVec 8 := 1#8 <<< 1
def PIDS : BitVec 8 := 1#8 <<< 3
/-- The controllers of the root: cpu, memory, io, pids, cpuset, hugetlb. -/
def ALL : BitVec 8 := 0x3F#8

/-- One directory. -/
structure CgNode where
  name : String
  parent : Option ℕ
  children : OrdMap String ℕ
  /-- The processes directly in the node. -/
  procs : Finset ℕ
  /-- How many threads other than leaders are directly in the node. -/
  threads : ℕ
  pendingForks : ℕ
  /-- The forks under way that hold the directory. -/
  forkPins : ℕ
  subtreeControl : BitVec 8
  avail : BitVec 8
  frozen : Bool
  pidsMax : Option ℕ
  killSeq : ℕ
  memMax : Option ℕ
  memHigh : Option ℕ
  swapMax : Option ℕ
  memory : MemoryStats
  /-- How often a charge was refused here. -/
  maxEvents : ℕ
  swapCurrent : ℕ
  /-- Huge pages are charged to the node. -/
  hugetlbCharged : Bool

/-- The root of the hierarchy. -/
def ROOT : ℕ := 1

/-- A new directory. -/
def CgNode.new (name : String) (parent : Option ℕ) (avail : BitVec 8) : CgNode :=
  ⟨name, parent, .empty, ∅, 0, 0, 0, 0, avail, false, none, 0, none, none, none, .zero, 0, 0, false⟩

/-- The hierarchy, with what it knows of tasks. -/
structure CgTree where
  nodes : OrdMap ℕ CgNode
  /-- Removed directories that huge pages are still charged to. -/
  dying : OrdMap ℕ CgNode
  nextId : ℕ
  nextIno : ℕ
  /-- The node of a process. -/
  procCg : OrdMap ℕ ℕ
  /-- The leader and the node of a thread. -/
  threadCg : OrdMap ℕ (ℕ × ℕ)
  /-- Leaders that exited before their last thread. -/
  exitedProcs : Finset ℕ
  mounted : Bool

namespace CgTree

variable (t : CgTree)

def empty : CgTree := ⟨.empty, .empty, ROOT, ROOT, .empty, .empty, ∅, false⟩

/-- Mount, with the root directory. -/
def mountRoot : CgTree :=
  if t.mounted then t
  else
    { t with
      nodes :=
        if (t.nodes.get? ROOT).isSome then t.nodes else t.nodes.insert ROOT (.new "" none ALL)
      nextId := ROOT + 1
      nextIno := ROOT + 1
      mounted := true }

/-- A node that is there is changed. -/
def modify (id : ℕ) (f : CgNode → CgNode) : CgTree :=
  match t.nodes.get? id with
  | none => t
  | some n => { t with nodes := t.nodes.insert id (f n) }

@[simp] theorem modify_get? (id k : ℕ) (f : CgNode → CgNode) :
    (t.modify id f).nodes.get? k = if k = id then (t.nodes.get? k).map f else t.nodes.get? k := by
  unfold modify
  split
  case h_1 hnone =>
    split_ifs with hk
    · rw [hk, hnone, Option.map_none]
    · rfl
  rename_i n hn
  rw [OrdMap.get?_insert]
  split_ifs with hk
  · rw [hk, hn, Option.map_some]
  · rfl

/-! ### Walks -/

/-- The nodes from one up to the root, as the loops over ancestors visit them.  Parents have smaller
ids, so that the id bounds the walk. -/
def pathFrom : ℕ → ℕ → List (ℕ × CgNode)
  | 0, _ => []
  | fuel + 1, id =>
    match t.nodes.get? id with
    | none => []
    | some n => (id, n) :: (match n.parent with | none => [] | some p => pathFrom fuel p)

/-- The nodes from here to the root. -/
def path (id : ℕ) : List (ℕ × CgNode) := t.pathFrom (id + 1) id

/-- A sum over a node and everything below, formed by `add`. -/
def subtreeSum (f : CgNode → ℕ) (add : ℕ → ℕ → ℕ) : ℕ → ℕ → ℕ
  | 0, _ => 0
  | fuel + 1, id =>
    match t.nodes.get? id with
    | none => 0
    | some n => n.children.values.foldl (fun b c => add b (subtreeSum f add fuel c)) (f n)

section

variable (id : ℕ)

/-- The tasks in a subtree, threads included; an exited leader is none. -/
def subtreeProcCount : ℕ :=
  t.subtreeSum (fun n => (n.procs \ t.exitedProcs).card + n.threads) (· + ·) t.nextId id

/-- Memory charged here and below. -/
def subtreeMem : ℕ := t.subtreeSum (fun n => n.memory.total) satAdd t.nextId id

/-- Swap charged here and below. -/
def subtreeSwap : ℕ := t.subtreeSum CgNode.swapCurrent satAdd t.nextId id

def subtreePendingForks : ℕ := t.subtreeSum CgNode.pendingForks satAdd t.nextId id

/-- Tasks here and below, and forks under way. -/
def subtreePidsCount : ℕ :=
  match t.nodes.get? id with
  | none => 0
  | some n => n.children.values.foldl (fun b c => satAdd b (t.subtreePendingForks c))
      (satAdd (t.subtreeProcCount id) n.pendingForks)

/-- Frozen here or above. -/
def effectiveFrozen : Bool := (t.path id).any fun p => p.2.frozen

end

/-! ### Directories -/

/-- Give out an inode number. -/
def allocIno : Except CgErr CgTree :=
  if t.nextIno + 1 ≤ U64_MAX then .ok { t with nextIno := t.nextIno + 1 } else .error .enospc

/-- A node with the next id. -/
def addNode (parent : ℕ) (name : String) (avail : BitVec 8) : CgTree :=
  { t with
    nextId := t.nextId + 1
    nodes := t.nodes.insert t.nextId (.new name (some parent) avail) }

/-- A new child, with the controllers its parent passes on. -/
def create (parent : ℕ) (name : String) : Except CgErr (CgTree × ℕ × BitVec 8) :=
  if name.isEmpty ∨ name.toList.contains '/' then .error .einval
  else match t.nodes.get? parent with
    | none => .error .enoent
    | some p =>
      if (p.children.get? name).isSome then .error .eexist
      else match t.allocIno with
        | .error e => .error e
        | .ok t =>
          .ok ((t.addNode parent name p.subtreeControl).modify parent
            fun p => { p with children := p.children.insert name t.nextId }, t.nextId,
            p.subtreeControl)

/-- Whether a directory may not be removed. -/
def busy (id : ℕ) (n : CgNode) : Bool :=
  n.children.values ≠ [] || t.dying.values.any (fun d => d.parent = some id) || n.procs ≠ ∅ ||
    n.threads ≠ 0 || n.forkPins ≠ 0 || n.memory.total ≠ 0 || n.swapCurrent ≠ 0

/-- The parent forgets a child. -/
def unlink (n : CgNode) : CgTree :=
  match n.parent with
  | none => t
  | some p => t.modify p fun p => { p with children := p.children.erase n.name }

/-- Take a node out; it may stay charged. -/
def dropNode (id : ℕ) (n : CgNode) : CgTree :=
  { t with
    nodes := t.nodes.erase id
    dying := if n.hugetlbCharged then t.dying.insert id n else t.dying }

/-- An empty directory goes; with huge pages charged to it, it is kept aside. -/
def remove (id : ℕ) : Except CgErr CgTree :=
  if id = ROOT then .error .ebusy
  else match t.nodes.get? id with
    | none => .error .enoent
    | some n =>
      if t.busy id n then .error .ebusy
      else .ok ((t.unlink n).dropNode id n)

/-! ### Tasks -/

/-- The node of a task; one that is not recorded is in the root. -/
def cgroupOf (pid : ℕ) : ℕ :=
  ((t.procCg.get? pid).or ((t.threadCg.get? pid).map Prod.snd)).getD ROOT

/-- The process leaves the node it was recorded for. -/
def leave (previous : Option ℕ) (pid : ℕ) : CgTree :=
  match previous with
  | none => t
  | some old => t.modify old fun n => { n with procs := n.procs.erase pid }

/-- A thread that a move of its process takes along. -/
def moves (cgid pid : ℕ) (x : ℕ × ℕ) : Bool := x.1 = pid ∧ x.2 ≠ cgid

/-- How many threads a move of their process takes along. -/
def movedThreads (cgid pid : ℕ) : ℕ := t.threadCg.total fun x => if moves cgid pid x then 1 else 0

/-- The threads of a process are recorded where it goes. -/
def follow (cgid pid : ℕ) : CgTree :=
  { t with threadCg := t.threadCg.mapVal fun x => if moves cgid pid x then (x.1, cgid) else x }

/-- The threads of a process follow it. -/
def moveThreads (old cgid pid : ℕ) : CgTree :=
  let moved := t.movedThreads cgid pid
  let t := t.follow cgid pid
  if old ≠ cgid then
    (t.modify old fun n => { n with threads := n.threads - moved }).modify cgid
      fun n => { n with threads := n.threads + moved }
  else t

/-- The process and its threads go from one node to another. -/
def transfer (previous : Option ℕ) (cgid pid : ℕ) : CgTree :=
  ((t.leave previous pid).moveThreads (previous.getD ROOT) cgid pid).modify cgid
    fun n => { n with procs := insert pid n.procs }

/-- A process joins a node. -/
def addProc (cgid pid : ℕ) : Except CgErr CgTree :=
  if (t.nodes.get? cgid).isNone then .error .enodev
  else
    let previous := t.procCg.get? pid
    let t := { t with procCg := t.procCg.insert pid cgid }
    if previous = some cgid then .ok t else .ok (t.transfer previous cgid pid)

/-- A process leaves its node. -/
def removeProc (pid : ℕ) : CgTree :=
  let t := { t with exitedProcs := t.exitedProcs.erase pid }
  match t.procCg.get? pid with
  | none => t
  | some old =>
    { t with procCg := t.procCg.erase pid }.modify old fun n =>
      { n with procs := n.procs.erase pid }

/-- The leader and the node a new thread inherits. -/
def threadHome (parentPid : ℕ) : ℕ × ℕ :=
  match t.procCg.get? parentPid with
  | some cg => (parentPid, cg)
  | none =>
    match t.threadCg.get? parentPid with
    | some x => x
    | none => (parentPid, ROOT)

/-- The thread is recorded with its leader and its node. -/
def recordThread (tid : ℕ) (x : ℕ × ℕ) : CgTree :=
  { t with threadCg := t.threadCg.insert tid x }.modify x.2
    fun n => { n with threads := n.threads + 1 }

/-- A thread joins its process. -/
def addThread (parentPid tid : ℕ) : CgTree :=
  if (t.threadCg.get? tid).isSome then t else t.recordThread tid (t.threadHome parentPid)

/-- The thread joins a node that a fork holds. -/
def addThreadInto (cgid parentPid tid : ℕ) : CgTree :=
  if (t.threadCg.get? tid).isSome then t
  else t.recordThread tid (((t.threadCg.get? parentPid).map Prod.fst).getD parentPid, cgid)

/-- A thread leaves its node. -/
def removeThread (tid : ℕ) : CgTree :=
  match t.threadCg.get? tid with
  | none => t
  | some x => { t with threadCg := t.threadCg.erase tid }.modify x.2
      fun n => { n with threads := n.threads - 1 }

/-- A thread of the process is recorded. -/
def hasThreads (tgid : ℕ) : Bool := t.threadCg.values.any fun x => x.1 = tgid

/-- A task exits; the node is returned when its process has left it. -/
def exitTask (tid tgid : ℕ) : CgTree × Option ℕ :=
  let cgid := t.cgroupOf tid
  if tid = tgid then
    if t.hasThreads tgid then ({ t with exitedProcs := insert tgid t.exitedProcs }, none)
    else (t.removeProc tgid, some cgid)
  else
    let t := t.removeThread tid
    if t.hasThreads tgid then (t, none)
    else if tgid ∈ t.exitedProcs then
      ({ t with exitedProcs := t.exitedProcs.erase tgid }.removeProc tgid, some cgid)
    else (t, none)

/-! ### Forks -/

variable (cgid : ℕ)

/-- The first node above that has no room for one more task. -/
def pidsLimitExceeded : Option ℕ :=
  ((t.path cgid).find? fun p => p.2.avail &&& PIDS ≠ 0 ∧
    p.2.pidsMax.any fun max => satAdd (t.subtreePidsCount p.1) 1 > max).map Prod.fst

/-- The node is held for a fork. -/
def holdFork : CgTree :=
  t.modify cgid fun n => { n with pendingForks := n.pendingForks + 1, forkPins := n.forkPins + 1 }

/-- Reserve a place for a child. -/
def prepareFork : Except CgErr CgTree :=
  if !t.mounted then .ok t
  else if (t.nodes.get? cgid).isNone then .error .enodev
  else if (t.pidsLimitExceeded cgid).isSome then .error .eagain
  else .ok (t.holdFork cgid)

/-- The node holds the reservation of a fork under way. -/
def reserved : Bool :=
  (t.nodes.get? cgid).any fun n => n.pendingForks ≠ 0 ∧ n.forkPins ≠ 0

/-- Give up the place of a child. -/
def releaseFork : CgTree :=
  t.modify cgid fun n => { n with pendingForks := n.pendingForks - 1, forkPins := n.forkPins - 1 }

/-- The fork has failed. -/
def cancelFork : Option CgTree :=
  if !t.mounted then some t
  else if t.reserved cgid then some (t.releaseFork cgid)
  else none

/-- What a new task finds when it becomes a member. -/
structure ForkCommit where
  frozen : Bool
  killed : Bool
  deriving DecidableEq

/-- The child takes its place. -/
def commitFork (cgid childTid parentTid : ℕ) (thread : Bool) (killSeq : ℕ) :
    Option (CgTree × ForkCommit) :=
  if !t.mounted then some (t, ⟨false, false⟩)
  else if !t.reserved cgid then none
  else
    let joined := if thread then some (t.addThreadInto cgid parentTid childTid)
      else (t.addProc cgid childTid).toOption
    joined.map fun t =>
      let t := t.releaseFork cgid
      (t, ⟨t.effectiveFrozen cgid, (t.nodes.get? cgid).any fun n => n.killSeq ≠ killSeq⟩)

/-! ### Charges -/

/-- What became of a memory charge. -/
inductive MemoryCharge
  | charged (crossedHigh : Bool)
  | max (limitCgid : ℕ)
  deriving DecidableEq

/-- The charge would take the node past its hard limit. -/
def overMax (bytes : ℕ) (p : ℕ × CgNode) : Bool :=
  p.2.avail &&& MEMORY ≠ 0 ∧ p.2.memMax.any fun max => satAdd (t.subtreeMem p.1) bytes > max

/-- The charge takes the node from its soft limit or below to above it. -/
def crossesHigh (bytes : ℕ) (p : ℕ × CgNode) : Bool :=
  p.2.avail &&& MEMORY ≠ 0 ∧ p.2.memHigh.any fun high =>
    t.subtreeMem p.1 ≤ high ∧ satAdd (t.subtreeMem p.1) bytes > high

variable (kind : MemoryKind) (bytes : ℕ)

/-- The bytes are charged to the node. -/
def addMemory : CgTree :=
  t.modify cgid fun n => { n with memory := n.memory.add kind bytes }

/-- Charge memory, if all limits allow. -/
def tryChargeMemoryTransition : CgTree × MemoryCharge :=
  if bytes = 0 then (t, .charged false)
  else if (t.nodes.get? cgid).isNone then (t, .max cgid)
  else match (t.path cgid).find? (t.overMax bytes) with
    | some p => (t.modify cgid fun n => { n with maxEvents := satAdd n.maxEvents 1 }, .max p.1)
    | none => (t.addMemory cgid kind bytes, .charged ((t.path cgid).any (t.crossesHigh bytes)))

/-- Return memory. -/
def unchargeMemory : CgTree :=
  if bytes = 0 then t else t.modify cgid fun n => { n with memory := n.memory.sub kind bytes }

/-- The charge would take the node past its swap limit; the sum is formed without a check. -/
def overSwap (p : ℕ × CgNode) : Bool :=
  p.2.avail &&& MEMORY ≠ 0 ∧ p.2.swapMax.any fun max => (t.subtreeSwap p.1 + bytes) % 2 ^ 64 > max

/-- The bytes of swap are charged to the node. -/
def addSwap (cgid bytes : ℕ) : CgTree :=
  t.modify cgid fun n => { n with swapCurrent := (n.swapCurrent + bytes) % 2 ^ 64 }

/-- Charge swap, if all limits allow. -/
def tryChargeSwap (cgid bytes : ℕ) : CgTree × Bool :=
  if bytes = 0 then (t, true)
  else if (t.nodes.get? cgid).isNone then (t, false)
  else if (t.path cgid).any (t.overSwap bytes) then (t, false)
  else (t.addSwap cgid bytes, true)

/-- Return swap. -/
def unchargeSwap (cgid bytes : ℕ) : CgTree :=
  if bytes = 0 then t else t.modify cgid fun n => { n with swapCurrent := n.swapCurrent - bytes }

end CgTree

end Oxide
