/-
Priority-inheritance futexes: the user word, the table of contended mutexes, and the calls.

* `lockPiStep`, `attachOwnerResult`, `handoffWord`, …: the rules for the user word;
* `PiState`, `PiWaiter`: the record of a contended mutex and of one that waits for it;
* `PiPc`: how far a task is in a call, by the atomic steps it has made;
* `PiWorld`, `PiWorld.step`: the words, the table and the tasks, and what an atomic step does.

Design notes: a futex is named by its key, and the word belongs to the key; `PiEnv.resolve` says
which futex an address of a task names. The order in which waiters are served follows from
priorities that change at any time: a waiter carries a rank, ranks are inputs, and `rekey` changes
them. The task-local lists of owned and awaited mutexes are read off the table, so that an exit
finds its first lock and the record of it in one step, without the `expect` between the two. Left
out are the boosting of priorities itself, and the list of robust mutexes.
-/
import Mathlib.Data.BitVec
import Mathlib.Data.List.MinMax
import Oxide.OrdMap

namespace Oxide

open Function

/-! ### The user word -/

/-- Set while a task is blocked in the kernel on the futex. -/
def FUTEX_WAITERS : BitVec 32 := 0x80000000#32
/-- Set when the owner died with the mutex. -/
def FUTEX_OWNER_DIED : BitVec 32 := 0x40000000#32
/-- The bits that name the owner. -/
def FUTEX_TID_MASK : BitVec 32 := 0x3fffffff#32

/-- A thread number as it stands in a futex word. -/
structure PiTid where
  val : BitVec 32
  visible : val ≠ 0 ∧ val &&& FUTEX_TID_MASK = val
  deriving DecidableEq

/-- The part of a word that names the owner. -/
def ownerBits (word : BitVec 32) : BitVec 32 := word &&& FUTEX_TID_MASK

/-- The task a word names. -/
def PiTid.ofWord (word : BitVec 32) : Option PiTid :=
  if h : ownerBits word ≠ 0 then
    some ⟨ownerBits word, h, by unfold ownerBits; rw [BitVec.and_assoc, BitVec.and_self]⟩
  else none

/-- The errors of the calls. -/
inductive FutexErrno
  | eagain
  | edeadlk
  | efault
  | einval
  | enomem
  | eperm
  | esrch
  | etimedout
  | erestartnointr
  deriving DecidableEq, Repr

/-- What to do next to acquire a futex. -/
inductive PiLockStep
  | takeUncontended (newval : BitVec 32)
  | publishWaitersThenAttach (newval ownerTid : BitVec 32)
  | attachExisting
  deriving DecidableEq

/-- What the owner's id was found to name. -/
inductive OwnerLookup
  | alive
  | kernelThread
  | exiting
  | gone
  deriving DecidableEq

/-- The owner as it was found before the table was locked, if it was looked for. -/
abbrev OwnerPin := Option (OwnerLookup × Option PiTid)

/-- What a lock attempt does, by the word. -/
def lockPiStep (uval vpid : BitVec 32) (havePiState setWaiters : Bool) :
    Except FutexErrno PiLockStep :=
  if uval &&& FUTEX_TID_MASK = vpid then .error .edeadlk
  else if havePiState then .ok .attachExisting
  else if uval &&& FUTEX_TID_MASK = 0 then
    let newval := (uval &&& FUTEX_OWNER_DIED) ||| vpid
    .ok (.takeUncontended (if setWaiters then newval ||| FUTEX_WAITERS else newval))
  else .ok (.publishWaitersThenAttach (uval ||| FUTEX_WAITERS) (uval &&& FUTEX_TID_MASK))

/-- Whether a waiter may queue behind the owner. -/
def attachOwnerResult (lookup : OwnerLookup) (wordChanged : Bool) : Except FutexErrno Unit :=
  match lookup with
  | .alive => .ok ()
  | .kernelThread => .error .eperm
  | .exiting => .error .eagain
  | .gone => if wordChanged then .error .eagain else .error .esrch

/-- The word of a mutex handed over. -/
def handoffWord (newOwnerTid : BitVec 32) : BitVec 32 := FUTEX_WAITERS ||| newOwnerTid

/-- The same after the owner's death. -/
def deadOwnerHandoffWord (uval newOwnerTid : BitVec 32) : BitVec 32 :=
  (uval &&& FUTEX_OWNER_DIED) ||| FUTEX_WAITERS ||| FUTEX_OWNER_DIED ||| newOwnerTid

/-- The word a dead owner leaves. -/
def ownerDiedWord (uval : BitVec 32) : BitVec 32 := (uval &&& FUTEX_WAITERS) ||| FUTEX_OWNER_DIED

/-- The error if the word changed meanwhile. -/
def handoffRace (uval curval : BitVec 32) : FutexErrno :=
  if curval &&& FUTEX_TID_MASK = uval then .eagain else .einval

/-- Only the owner unlocks. -/
def mayUnlock (uval vpid : BitVec 32) : Except FutexErrno Unit :=
  if uval &&& FUTEX_TID_MASK = vpid then .ok () else .error .eperm

/-- The errors of a user access after which an operation starts again. -/
def FutexErrno.transient : FutexErrno → Bool
  | .eagain | .efault => true
  | _ => false

/-! ### The table -/

/-- The slot in which a waiter finds out what became of it. -/
inductive PiGrant
  | pending
  | owner
  | ownerDied
  | ownerFault
  deriving DecidableEq, Repr

/-- The waiter has been made the owner. -/
def PiGrant.isOwner : PiGrant → Bool
  | .owner | .ownerDied => true
  | _ => false

variable (F : Type)

/-- A task that waits for a mutex. -/
structure PiWaiter where
  tid : PiTid
  /-- The place in the order in which waiters are served. -/
  rank : ℕ
  /-- The mutex to which the waiter may be moved, if it waits at a condition variable. -/
  requeueTarget : Option F

/-- The record of a futex on which tasks wait. -/
structure PiState where
  id : ℕ
  /-- The address under which the task that made the record knows the word. -/
  uaddr : ℕ
  owner : Option PiTid
  ownerTid : BitVec 32
  waiters : List (PiWaiter F)

variable {F}

/-- The first of the waiters, by rank. -/
def firstByRank (ws : List (PiWaiter F)) : Option (PiWaiter F) := ws.argmin PiWaiter.rank

/-- The waiter that is to receive the mutex next. -/
def PiState.topWaiter [DecidableEq F] (st : PiState F) : Option (PiWaiter F) :=
  firstByRank (st.waiters.filter fun x => x.requeueTarget = none)

/-- The waiters without one task's. -/
def withoutTid (t : PiTid) (ws : List (PiWaiter F)) : List (PiWaiter F) :=
  ws.eraseP fun x => x.tid = t

/-- The first `n` waiters by rank, and the others. -/
def takeFirst : ℕ → List (PiWaiter F) → List (PiWaiter F) × List (PiWaiter F)
  | 0, ws => ([], ws)
  | n + 1, ws =>
    match firstByRank ws with
    | none => ([], ws)
    | some x =>
      let r := takeFirst n (withoutTid x.tid ws)
      (x :: r.1, r.2)

/-! ### Tasks -/

variable (F)

/-- How far a task is in a call. -/
inductive PiPc
  | user
  -- `lock_pi`: about to read the word, to enter the table, to leave the queue after a trylock
  | lockRead (uaddr : ℕ) (m : F) (timed trylock : Bool)
  | lockTable (uaddr : ℕ) (m : F) (timed trylock : Bool) (uval : BitVec 32)
      (ownerPin : OwnerPin)
  | trylockLeave (m : F)
  -- `park_for_grant`: parked, about to leave the queue, about to look at the grant once more
  | parked (m : F) (target : Option F) (timed : Bool)
  | giveUp (m : F) (target : Option F) (err : FutexErrno)
  | recheck (m : F) (target : Option F) (err : FutexErrno)
  -- `wait_requeue_pi`: reading, entering the table, leaving the queue of the mutex
  | waitRead (uaddr : ℕ) (m : F) (val : BitVec 32) (target : F) (timed : Bool)
  | waitTable (uaddr : ℕ) (m : F) (val : BitVec 32) (target : F) (timed : Bool)
  | leaveTarget (m : F) (err : FutexErrno)
  | unlockRead (m : F)
  | unlockTable (m : F) (uval : BitVec 32)
  -- `cmp_requeue_pi`: between two futexes
  | requeueRead (m1 : F) (uaddr2 : ℕ) (m2 : F) (hne : m1 ≠ m2) (nrRequeue : ℕ)
      (cmpval : BitVec 32)
  | requeueTable (m1 : F) (uaddr2 : ℕ) (m2 : F) (hne : m1 ≠ m2) (nrRequeue : ℕ)
      (cmpval uval1 uval2 : BitVec 32) (owner2 : OwnerPin)
  -- `exit_pi_state_list`
  | exiting
  | exitRead (id uaddr : ℕ)
  | exitTable (id uaddr : ℕ) (uval : BitVec 32)
  | exitFault (id uaddr : ℕ)
  | gone

variable {F}

/-- The task is on its way out, or gone. -/
def PiPc.dead : PiPc F → Bool
  | .exiting | .exitRead .. | .exitTable .. | .exitFault .. | .gone => true
  | _ => false

/-- The task is gone. -/
def PiPc.zombie : PiPc F → Bool
  | .gone => true
  | _ => false

/-- What a task id names. -/
inductive PiKind
  | absent
  | kernel
  | user
  deriving DecidableEq

variable (F)

/-- What is fixed: the tasks there are, and the futexes their addresses name. -/
structure PiEnv where
  kind : PiTid → PiKind
  resolve : PiTid → ℕ → F

/-- The words, the table and the tasks. -/
structure PiWorld [LinearOrder F] where
  word : F → BitVec 32
  table : OrdMap F (PiState F)
  nextId : ℕ
  pc : PiTid → PiPc F
  grant : PiTid → PiGrant
  /-- What the last call returned. -/
  ret : PiTid → Option (Except FutexErrno ℕ)
  /-- The mutexes a task was told it has, and has not given back. -/
  holds : PiTid → F → Bool

/-- Why a wait ends without a grant. -/
inductive PiWake
  | spurious
  | timeout
  | signal
  deriving DecidableEq

/-- What the outside contributes to one atomic step. -/
structure PiInput where
  /-- The errors of a read of user memory, and of a compare-and-exchange there. -/
  access : Option FutexErrno
  exchange : Option FutexErrno
  /-- There is memory for a waiter. -/
  room : Bool
  /-- Why a parked task runs again. -/
  wake : PiWake
  /-- The place a task takes in the order of the waiters. -/
  rank : PiTid → ℕ

/-- The calls, with their arguments. -/
inductive PiCall
  | lockPi (uaddr : ℕ) (timed trylock : Bool)
  | unlockPi (uaddr : ℕ)
  | waitRequeuePi (uaddr : ℕ) (val : BitVec 32) (bitset : BitVec 32) (uaddr2 : ℕ) (timed : Bool)
  | cmpRequeuePi (uaddr1 uaddr2 : ℕ) (nrWake nrRequeue : ℤ) (cmpval : BitVec 32)
  | exit

/-- An event of the system. -/
inductive PiEvent
  | call (t : PiTid) (c : PiCall)
  /-- The next atomic step of a call. -/
  | run (t : PiTid) (i : PiInput)
  /-- User space takes a free mutex, or gives back one for which nobody waits. -/
  | fastLock (t : PiTid) (m : F)
  | fastUnlock (t : PiTid) (m : F)
  /-- A waiter gets another place in the order. -/
  | rekey (m : F) (t : PiTid) (rank : ℕ)

variable {F}

namespace PiWorld

variable [LinearOrder F]

/-! ### Steps shared by the calls -/

section

variable (w : PiWorld F) (t : PiTid)

/-- The call goes on at `p`. -/
def goto (p : PiPc F) : PiWorld F :=
  { w with pc := update w.pc t p }

/-- The call returns. -/
def finish (r : Except FutexErrno ℕ) : PiWorld F :=
  { w.goto t .user with ret := update w.ret t (some r) }

/-- The call returns an error. -/
def fail (e : FutexErrno) : PiWorld F := w.finish t (.error e)

variable (m : F)

def setHolds (b : Bool) : PiWorld F :=
  { w with holds := update w.holds t (update (w.holds t) m b) }

/-- The call returns 0, and its caller has the mutex. -/
def acquired : PiWorld F :=
  (w.finish t (.ok 0)).setHolds t m true

def setWord (v : BitVec 32) : PiWorld F :=
  { w with word := update w.word m v }

def setGrant (g : PiGrant) : PiWorld F :=
  { w with grant := update w.grant t g }

def putState (st : PiState F) : PiWorld F :=
  { w with table := w.table.insert m st }

def dropState : PiWorld F := { w with table := w.table.erase m }

/-- The word an access sees, and the world after the exchange. -/
def cmpxchg (old new : BitVec 32) (access : Option FutexErrno) :
    Except FutexErrno (BitVec 32 × PiWorld F) :=
  match access with
  | some e => .error e
  | none => .ok (w.word m, if w.word m = old then w.setWord m new else w)

end

/-- The check of a futex address. -/
def checkAddr (uaddr : ℕ) : Except FutexErrno Unit :=
  if uaddr = 0 ∨ 0x800000000000 ≤ uaddr then .error .efault
  else if uaddr % 4 ≠ 0 then .error .einval
  else .ok ()

variable (env : PiEnv F)

section

variable (w : PiWorld F)

/-- Look up the owner a word names. -/
def classifyOwner (o : PiTid) : OwnerLookup × Option PiTid :=
  if env.kind o = .absent ∨ (w.pc o).zombie then (.gone, none)
  else if (w.pc o).dead then (.exiting, some o)
  else if env.kind o = .kernel then (.kernelThread, none)
  else (.alive, some o)

/-- The lookup refreshed by exits since. -/
def ownerLookupNow (initial : OwnerLookup) : Option PiTid → OwnerLookup
  | none => initial
  | some o => if (w.pc o).zombie then .gone else if (w.pc o).dead then .exiting else initial

variable (t : PiTid)

/-- The record of the mutex a task is blocked on. -/
def blockedOn : Option (PiState F) :=
  w.table.values.find? fun st => st.waiters.any fun x => x.tid = t ∧ x.requeueTarget = none

/-- The walk along the tasks that are blocked on each other; a walk that visits more tasks than
there are waiters has come back to one of them. -/
def reaches (w : PiWorld F) (waiter : PiTid) : ℕ → PiTid → Bool
  | 0, _ => true
  | fuel + 1, task =>
    if task = waiter then true
    else match w.blockedOn task with
      | none => false
      | some st =>
        match st.owner with
        | none => false
        | some next => w.reaches waiter fuel next

/-- The owner waits, in the end, for the waiter. -/
def wouldDeadlock (waiter owner : PiTid) : Bool :=
  w.reaches waiter ((w.table.values.map fun st => st.waiters.length).sum + 1) owner

/-- `unqueue`: the task's waiter leaves, with the record if it was the last. -/
def unqueue (m : F) (t : PiTid) : PiWorld F :=
  match w.table.get? m with
  | none => w
  | some st =>
    let ws := withoutTid t st.waiters
    if ws = [] then w.dropState m else w.putState m { st with waiters := ws }

/-- `handoff`: the waiter is the owner from now on. -/
def handoff (m : F) (st : PiState F) (x : PiWaiter F) (g : PiGrant) : PiWorld F :=
  let st := { st with
    owner := some x.tid
    ownerTid := x.tid.val
    waiters := withoutTid x.tid st.waiters }
  (if st.waiters = [] then w.dropState m else w.putState m st).setGrant x.tid g

/-- A new waiter, in the record there is or in a new one. -/
def enqueue (m : F) (st : PiState F) (x : PiWaiter F) : PiWorld F :=
  { w with
    table := w.table.insert m { st with waiters := st.waiters ++ [x] }
    grant := update w.grant x.tid .pending
    nextId := max w.nextId (st.id + 1) }

/-! ### `lock_pi` -/

variable (uaddr : ℕ)

/-- `lock_pi` before its section. -/
def lockRead (m : F) (timed trylock : Bool) (i : PiInput) : PiWorld F :=
  match i.access with
  | some e => w.fail t e
  | none =>
    let uval := w.word m
    let ownerPin :=
      match PiTid.ofWord uval with
      | none => none
      | some o => if o = t then none else some (w.classifyOwner env o)
    w.goto t (.lockTable uaddr m timed trylock uval ownerPin)

/-- The waiter is in the queue. -/
def queued (m : F) (timed trylock : Bool) : PiWorld F :=
  w.goto t (if trylock then .trylockLeave m else .parked m none timed)

/-- The first waiter of a mutex makes its record. -/
def attachFirst (m : F) (timed trylock : Bool) (ownerTid : BitVec 32)
    (ownerPin : OwnerPin) (i : PiInput) : PiWorld F :=
  match ownerPin with
  | none => w.fail t .einval
  | some (lookup, owner) =>
    match attachOwnerResult (w.ownerLookupNow lookup owner) false, owner with
    | .error .eagain, _ => w.goto t (.lockRead uaddr m timed trylock)
    | .error e, _ => w.fail t e
    | .ok (), none => w.fail t .einval
    | .ok (), some o =>
      if w.wouldDeadlock t o then w.fail t .edeadlk
      else (w.enqueue m ⟨w.nextId, uaddr, some o, ownerTid, []⟩
        ⟨t, i.rank t, none⟩).queued t m timed trylock

/-- A later waiter joins the record. -/
def attachExisting (m : F) (timed trylock : Bool) (uval : BitVec 32)
    (ownerPin : OwnerPin) (st : PiState F) (i : PiInput) : PiWorld F :=
  match st.owner, ownerPin with
  | none, _ => w.fail t .einval
  | some _, none => w.fail t .einval
  | some o, some (lookup, pinned) =>
    match attachOwnerResult (w.ownerLookupNow lookup pinned) false with
    | .error .eagain => w.goto t (.lockRead uaddr m timed trylock)
    | .error e => w.fail t e
    | .ok () =>
      if st.ownerTid ≠ uval &&& FUTEX_TID_MASK ∨ pinned ≠ some o then w.fail t .einval
      else if w.wouldDeadlock t o then w.fail t .edeadlk
      else (w.enqueue m st ⟨t, i.rank t, none⟩).queued t m timed trylock

/-- The section of `lock_pi`. -/
def lockTable (m : F) (timed trylock : Bool) (uval : BitVec 32)
    (ownerPin : OwnerPin) (i : PiInput) : PiWorld F :=
  let retry : PiPc F := .lockRead uaddr m timed trylock
  if !i.room then w.fail t .enomem
  else match lockPiStep uval t.val (w.table.get? m).isSome false with
    | .error e => w.fail t e
    | .ok (.takeUncontended newval) =>
      match w.cmpxchg m uval newval i.exchange with
      | .error e => if e.transient then w.goto t retry else w.fail t e
      | .ok (seen, w') => if seen ≠ uval then w'.goto t retry else w'.acquired t m
    | .ok (.publishWaitersThenAttach newval ownerTid) =>
      match w.cmpxchg m uval newval i.exchange with
      | .error e => if e.transient then w.goto t retry else w.fail t e
      | .ok (seen, w') =>
        if seen ≠ uval then w'.goto t retry
        else w'.attachFirst t uaddr m timed trylock ownerTid ownerPin i
    | .ok .attachExisting =>
      match w.table.get? m with
      | none => w.fail t .einval
      | some st => w.attachExisting t uaddr m timed trylock uval ownerPin st i

/-! ### `park_for_grant` -/

/-- The wait ends with an error; a waiter at a condition variable leaves the mutex as well. -/
def parkFails (target : Option F) (e : FutexErrno) : PiWorld F :=
  match target with
  | none => w.fail t e
  | some m => w.goto t (.leaveTarget m e)

variable (m : F)

/-- A parked task runs again. -/
def wakeUp (target : Option F) (timed : Bool) (i : PiInput) : PiWorld F :=
  match w.grant t with
  | .owner | .ownerDied => w.acquired t (target.getD m)
  | .ownerFault => w.parkFails t target .efault
  | .pending =>
    match i.wake with
    | .timeout => if timed then w.goto t (.giveUp m target .etimedout) else w
    | .signal => w.goto t (.giveUp m target .erestartnointr)
    | .spurious => w

/-- After leaving the queue the grant decides once more. -/
def lookAgain (target : Option F) (e : FutexErrno) : PiWorld F :=
  if w.grant t ≠ .pending then w.acquired t (target.getD m) else w.parkFails t target e

/-! ### `unlock_pi` -/

/-- The call returns 0, and its caller has given the mutex back. -/
def released : PiWorld F :=
  (w.finish t (.ok 0)).setHolds t m false

/-- `unlock_pi` before its section. -/
def unlockRead (i : PiInput) : PiWorld F :=
  match i.access with
  | some e => w.fail t e
  | none =>
    match mayUnlock (w.word m) t.val with
    | .error e => w.fail t e
    | .ok () => w.goto t (.unlockTable m (w.word m))

/-- The mutex goes to the first waiter. -/
def unlockHandoff (uval : BitVec 32) (st : PiState F) (x : PiWaiter F) (i : PiInput) : PiWorld F :=
  if st.ownerTid ≠ t.val then w.fail t .einval
  else match w.cmpxchg m uval (handoffWord x.tid.val) i.exchange with
    | .error e => if e.transient then w.goto t (.unlockRead m) else w.fail t e
    | .ok (seen, w') =>
      if seen ≠ uval then
        if handoffRace uval seen = .eagain then w'.goto t (.unlockRead m)
        else w'.fail t (handoffRace uval seen)
      else (w'.handoff m st x .owner).released t m

/-- Nobody waits, and the word becomes free. -/
def unlockClear (uval : BitVec 32) (i : PiInput) : PiWorld F :=
  if (w.table.get? m).any fun st => st.ownerTid ≠ t.val then w.fail t .einval
  else match w.cmpxchg m uval 0 i.exchange with
    | .error e => if e.transient then w.goto t (.unlockRead m) else w.fail t e
    | .ok (seen, w') =>
      if seen ≠ uval then w'.goto t (.unlockRead m) else (w'.dropState m).released t m

/-- The section of `unlock_pi`. -/
def unlockTable (uval : BitVec 32) (i : PiInput) : PiWorld F :=
  match w.table.get? m with
  | none => w.unlockClear t m uval i
  | some st =>
    match st.topWaiter with
    | none => w.unlockClear t m uval i
    | some x => w.unlockHandoff t m uval st x i

/-! ### `wait_requeue_pi` -/

def waitRead (val : BitVec 32) (target : F) (timed : Bool) (i : PiInput) : PiWorld F :=
  match i.access with
  | some e => w.fail t e
  | none =>
    if w.word m ≠ val then w.fail t .eagain
    else w.goto t (.waitTable uaddr m val target timed)

/-- The section of `wait_requeue_pi`. -/
def waitTable (val : BitVec 32) (target : F) (timed : Bool) (i : PiInput) : PiWorld F :=
  if !i.room then w.fail t .enomem
  else match i.access with
    | some .efault => w.goto t (.waitRead uaddr m val target timed)
    | some e => w.fail t e
    | none =>
      if w.word m ≠ val then w.fail t .eagain
      else
        let st := (w.table.get? m).getD ⟨w.nextId, uaddr, none, 0, []⟩
        (w.enqueue m st ⟨t, i.rank t, some target⟩).goto t (.parked m (some target) timed)

/-! ### `cmp_requeue_pi` -/

def requeueRead (m1 : F) (uaddr2 : ℕ) (m2 : F) (hne : m1 ≠ m2) (nrRequeue : ℕ) (cmpval : BitVec 32)
    (i : PiInput) : PiWorld F :=
  match i.access with
  | some e => w.fail t e
  | none =>
    if w.word m1 ≠ cmpval then w.fail t .eagain
    else
      let owner2 := (PiTid.ofWord (w.word m2)).map (w.classifyOwner env)
      w.goto t (.requeueTable m1 uaddr2 m2 hne nrRequeue cmpval (w.word m1) (w.word m2) owner2)

/-- Why a requeue stops before anything is moved. -/
inductive RequeueStop
  | retry
  | fails (e : FutexErrno)
  deriving DecidableEq

/-- The source is a plain queue for this target, and the target has the owner its word names. -/
def requeueOwner (m2 : F) (uval2 : BitVec 32) (owner2 : OwnerPin)
    (src : PiState F) : Except RequeueStop (Option PiTid) :=
  if src.owner.isSome ∨ src.ownerTid ≠ 0 ∨
      src.waiters.any (fun x => x.requeueTarget ≠ some m2) then .error (.fails .einval)
  else
    let owner : Except RequeueStop (Option PiTid) :=
      match owner2 with
      | none => .ok none
      | some (lookup, o) =>
        match attachOwnerResult (w.ownerLookupNow lookup o) false with
        | .error .eagain => .error .retry
        | .error e => .error (.fails e)
        | .ok () => .ok o
    match owner with
    | .error s => .error s
    | .ok o =>
      match w.table.get? m2 with
      | none => .ok o
      | some dst =>
        if dst.owner = none ∨ dst.ownerTid ≠ uval2 &&& FUTEX_TID_MASK ∨ o ≠ dst.owner then
          .error (.fails .einval)
        else .ok o

/-- What the attempt to acquire the mutex for the first waiter leaves. -/
structure Proxy (F : Type) [LinearOrder F] where
  world : PiWorld F
  waiters : List (PiWaiter F)
  ownerTid : BitVec 32
  owner : Option PiTid
  woken : ℕ

/-- The attempt to acquire the mutex for the first waiter. -/
def proxyAcquire (m1 m2 : F) (nrRequeue : ℕ) (uval2 : BitVec 32) (owner : Option PiTid)
    (src : PiState F) (access : Option FutexErrno) : Except RequeueStop (Proxy F) :=
  let ownerTid := uval2 &&& FUTEX_TID_MASK
  match firstByRank src.waiters with
  | none => .ok ⟨w, src.waiters, ownerTid, owner, 0⟩
  | some x =>
    match lockPiStep uval2 x.tid.val (w.table.get? m2).isSome (nrRequeue != 0) with
    | .error e => .error (.fails e)
    | .ok (.takeUncontended newval) =>
      match w.cmpxchg m2 uval2 newval access with
      | .error e => .error (if e.transient then .retry else .fails e)
      | .ok (seen, w') =>
        if seen ≠ uval2 then .error .retry
        else
          let rest := withoutTid x.tid src.waiters
          .ok ⟨(w'.putState m1 { src with waiters := rest }).setGrant x.tid .owner, rest, x.tid.val,
            some x.tid, 1⟩
    | .ok (.publishWaitersThenAttach newval _) =>
      match w.cmpxchg m2 uval2 newval access with
      | .error e => .error (if e.transient then .retry else .fails e)
      | .ok (seen, w') =>
        if seen ≠ uval2 then .error .retry else .ok ⟨w', src.waiters, ownerTid, owner, 0⟩
    | .ok .attachExisting => .ok ⟨w, src.waiters, ownerTid, owner, 0⟩

/-- Waiters of a condition variable become waiters of the mutex. -/
def transferred (rank : PiTid → ℕ) (moved : List (PiWaiter F)) : List (PiWaiter F) :=
  moved.map fun x => { x with rank := rank x.tid, requeueTarget := none }

/-- How many waiters may move: one more if none was woken. -/
def Proxy.limit (p : Proxy F) (nrRequeue : ℕ) : ℕ := nrRequeue + if p.woken = 0 then 1 else 0

/-- The condition variable keeps the waiters that do not move. -/
def kept (m1 : F) (src : PiState F) (rest : List (PiWaiter F)) : PiWorld F :=
  if rest = [] then w.dropState m1 else w.putState m1 { src with waiters := rest }

/-- The waiters that move join the record of the mutex. -/
def joined (m2 : F) (dst : PiState F) (moved : List (PiWaiter F)) : PiWorld F :=
  if moved = [] then w
  else { w.putState m2 { dst with waiters := dst.waiters ++ moved } with
    nextId := max w.nextId (dst.id + 1) }

end

/-- The other waiters move to the mutex. -/
def carry (p : Proxy F) (t : PiTid) (m1 : F) (uaddr2 : ℕ) (m2 : F) (nrRequeue : ℕ)
    (src : PiState F) (i : PiInput) : PiWorld F :=
  let r := takeFirst (p.limit nrRequeue) p.waiters
  if p.owner.any fun o => r.1.any fun x => p.world.wouldDeadlock x.tid o then
    p.world.fail t .edeadlk
  else
    let w := p.world.kept m1 src r.2
    let dst := (w.table.get? m2).getD ⟨w.nextId, uaddr2, p.owner, p.ownerTid, []⟩
    (w.joined m2 dst (transferred i.rank r.1)).finish t (.ok (r.1.length + p.woken))

variable (w : PiWorld F)

section

variable (t : PiTid)
variable (id uaddr : ℕ)

/-- The section of `cmp_requeue_pi`. -/
def requeueTable (m1 : F) (uaddr2 : ℕ) (m2 : F) (hne : m1 ≠ m2) (nrRequeue : ℕ)
    (cmpval uval1 uval2 : BitVec 32) (owner2 : OwnerPin) (i : PiInput) :
    PiWorld F :=
  let stop : RequeueStop → PiWorld F
    | .retry => w.goto t (.requeueRead m1 uaddr2 m2 hne nrRequeue cmpval)
    | .fails e => w.fail t e
  if !i.room then w.fail t .enomem
  else if i.access = some .efault then stop .retry
  else if i.access ≠ none ∨ w.word m1 ≠ uval1 ∨ w.word m2 ≠ uval2 then w.fail t .eagain
  else match w.table.get? m1 with
    | none => w.finish t (.ok 0)
    | some src =>
      match w.requeueOwner m2 uval2 owner2 src with
      | .error s => stop s
      | .ok owner =>
        match w.proxyAcquire m1 m2 nrRequeue uval2 owner src i.exchange with
        | .error s => stop s
        | .ok p => carry p t m1 uaddr2 m2 nrRequeue src i

/-! ### `exit_pi_state_list` -/

/-- The owned mutex whose first waiter is served first. -/
def firstOwned : Option (PiState F) :=
  (w.table.values.filter fun st => st.owner = some t ∧ st.topWaiter.isSome).argmin
    fun st => (st.topWaiter.map PiWaiter.rank).getD 0

/-- The record with an identity, if it is still the one the dying task saw. -/
def findOwned : Option (F × PiState F) :=
  w.table.entries.find? fun p => p.2.id = id ∧ p.2.owner = some t ∧ p.2.uaddr = uaddr

/-- The next mutex of an exiting owner. -/
def exitPick : PiWorld F :=
  match w.firstOwned t with
  | none => w.goto t .gone
  | some st => w.goto t (.exitRead st.id st.uaddr)

def exitRead (i : PiInput) : PiWorld F :=
  match i.access with
  | some _ => w.goto t (.exitFault id uaddr)
  | none => w.goto t (.exitTable id uaddr (w.word (env.resolve t uaddr)))

/-- The waiters of a record whose word cannot be reached fail. -/
def faulted (st : PiState F) (u : PiTid) : PiGrant :=
  if st.waiters.any (fun x => x.tid = u) then .ownerFault else w.grant u

/-- The word cannot be reached, and the record goes. -/
def exitFault : PiWorld F :=
  match w.findOwned t id uaddr with
  | none => w.goto t .exiting
  | some (m, st) =>
    { w.dropState m with grant := w.faulted st }.goto t .exiting

/-- The word under the address in the record gets `newval`, if it is still the one that was read. -/
def exitExchange (uaddr : ℕ) (uval newval : BitVec 32) (i : PiInput) : Option (PiWorld F) :=
  if i.access ≠ none ∨ w.word (env.resolve t uaddr) ≠ uval then none
  else match w.cmpxchg (env.resolve t uaddr) uval newval i.exchange with
    | .error _ => none
    | .ok (seen, w') => if seen ≠ uval then none else some w'

/-- The mutex goes to its first waiter. -/
def exitTable (uval : BitVec 32) (i : PiInput) : PiWorld F :=
  match w.findOwned t id uaddr with
  | none => w.goto t .exiting
  | some (m, st) =>
    match st.topWaiter with
    | some x =>
      match w.exitExchange env t uaddr uval (deadOwnerHandoffWord uval x.tid.val) i with
      | none => w.goto t .exiting
      | some w' => (w'.handoff m st x .ownerDied).goto t .exiting
    | none =>
      match w.exitExchange env t uaddr uval (ownerDiedWord uval) i with
      | none => w.goto t .exiting
      | some w' => (w'.dropState m).goto t .exiting

/-! ### Runs -/

/-- A task in user space makes a call. -/
def call : PiCall → PiWorld F
  | .lockPi uaddr timed trylock =>
    match checkAddr uaddr with
    | .error e => w.fail t e
    | .ok () => w.goto t (.lockRead uaddr (env.resolve t uaddr) timed trylock)
  | .unlockPi uaddr =>
    match checkAddr uaddr with
    | .error e => w.fail t e
    | .ok () => w.goto t (.unlockRead (env.resolve t uaddr))
  | .waitRequeuePi uaddr val bitset uaddr2 timed =>
    if uaddr = uaddr2 ∨ bitset = 0 then w.fail t .einval
    else match checkAddr uaddr, checkAddr uaddr2 with
      | .error e, _ => w.fail t e
      | _, .error e => w.fail t e
      | .ok (), .ok () =>
        w.goto t (.waitRead uaddr (env.resolve t uaddr) val (env.resolve t uaddr2) timed)
  | .cmpRequeuePi uaddr1 uaddr2 nrWake nrRequeue cmpval =>
    if uaddr1 = uaddr2 ∨ nrWake < 0 ∨ nrRequeue < 0 ∨ nrWake ≠ 1 then w.fail t .einval
    else match checkAddr uaddr1, checkAddr uaddr2 with
      | .error e, _ => w.fail t e
      | _, .error e => w.fail t e
      | .ok (), .ok () =>
        let m1 := env.resolve t uaddr1
        let m2 := env.resolve t uaddr2
        if hne : m1 ≠ m2 then w.goto t (.requeueRead m1 uaddr2 m2 hne nrRequeue.toNat cmpval)
        else w.fail t .einval
  | .exit => { w.goto t .exiting with holds := update w.holds t fun _ => false }

/-- The next atomic step of a call. -/
def run (i : PiInput) : PiWorld F :=
  match w.pc t with
  | .user | .gone => w
  | .lockRead uaddr m timed trylock => w.lockRead env t uaddr m timed trylock i
  | .lockTable uaddr m timed trylock uval ownerPin =>
    w.lockTable t uaddr m timed trylock uval ownerPin i
  -- a trylock that queued gives up without looking at its grant
  | .trylockLeave m => (w.unqueue m t).fail t .eagain
  | .parked m target timed => w.wakeUp t m target timed i
  | .giveUp m target e => (w.unqueue m t).goto t (.recheck m target e)
  | .recheck m target e => w.lookAgain t m target e
  | .waitRead uaddr m val target timed => w.waitRead t uaddr m val target timed i
  | .waitTable uaddr m val target timed => w.waitTable t uaddr m val target timed i
  | .leaveTarget m e => (w.unqueue m t).fail t e
  | .unlockRead m => w.unlockRead t m i
  | .unlockTable m uval => w.unlockTable t m uval i
  | .requeueRead m1 uaddr2 m2 hne nrRequeue cmpval =>
    w.requeueRead env t m1 uaddr2 m2 hne nrRequeue cmpval i
  | .requeueTable m1 uaddr2 m2 hne nrRequeue cmpval uval1 uval2 owner2 =>
    w.requeueTable t m1 uaddr2 m2 hne nrRequeue cmpval uval1 uval2 owner2 i
  | .exiting => w.exitPick t
  | .exitRead id uaddr => w.exitRead env t id uaddr i
  | .exitTable id uaddr uval => w.exitTable env t id uaddr uval i
  | .exitFault id uaddr => w.exitFault t id uaddr

/-- The task is a process in user space. -/
def atUser : Bool :=
  match env.kind t, w.pc t with
  | .user, .user => true
  | _, _ => false

end

/-- What an event does. -/
def step : PiEvent F → PiWorld F
  | .call t c => if w.atUser env t then w.call env t c else w
  | .run t i => w.run env t i
  | .fastLock t m =>
    if w.atUser env t ∧ w.word m = 0 then (w.setWord m t.val).setHolds t m true else w
  | .fastUnlock t m =>
    if w.atUser env t ∧ w.word m = t.val then (w.setWord m 0).setHolds t m false else w
  | .rekey m t rank =>
    match w.table.get? m with
    | none => w
    | some st =>
      w.putState m { st with
        waiters := st.waiters.map fun x => if x.tid = t then { x with rank := rank } else x }

end PiWorld

end Oxide
