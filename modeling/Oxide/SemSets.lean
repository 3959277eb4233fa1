/-
System V semaphore sets and their undo lists.

A set has a lock of its own; the undo lists of all tasks stand under one other lock. `semop` finds
or makes its undo entry under the second lock, then applies its batch under both; `SETVAL` and
`SETALL` assign under the set's lock and clear the listed adjustments inside; `exit_sem` takes the
entries of a list out under the second lock and visits the sets one by one afterwards.

* `performAtomicSemop`: one batch, applied operation by operation and rolled back on failure;
* `SemWorld.attempt`, `setval`, `setall`, `retire`, `takeOut`, `visit`: the locked sections;
* `SemWorld.step`: one event, which is one section of one task.

Design notes: a set is named by its namespace and identifier together, and the name is not used
again. Clocks, permissions, faults and allocation failures are inputs. Values lie between 0 and
`SEMVMX` and adjustments in 16 bits, so that no sum of the source leaves its 32 bits. For the
theorems only, `epoch` counts the assignments a semaphore has seen, and an undo entry keeps the
epoch of each operation its adjustment sums up.
-/
import Oxide.MsgQueue
import Mathlib.Data.Fintype.Basic

namespace Oxide

open Function

def SEMVMX : Int := 32767
def SEMAEM : Int := SEMVMX
def SEMOPM : ℕ := 500
def SEM_UNDO : BitVec 16 := 0o10000

/-- One operation of a batch. -/
structure Sembuf where
  semNum : ℕ
  semOp : Int
  semFlg : BitVec 16

/-- The operation is to be undone at exit. -/
def Sembuf.undo (s : Sembuf) : Bool := s.semFlg &&& SEM_UNDO != 0

def Sembuf.nowait (s : Sembuf) : Bool := hasFlag (s.semFlg.signExtend 32) IPC_NOWAIT

/-- One semaphore. -/
structure Sem where
  val : Int
  /-- Thread group of the last mutator. -/
  pid : ℕ
  /-- Tasks parked for an increase. -/
  ncnt : ℕ
  /-- Tasks parked for zero. -/
  zcnt : ℕ
  deriving DecidableEq

/-- What the lock of a set protects, with the number of its semaphores. -/
structure SemSet where
  nsems : ℕ
  sems : ℕ → Sem
  otime : Int
  ctime : Int
  removed : Bool

/-- `newary`. -/
def newSet (nsems : ℕ) (now : Int) : SemSet := ⟨nsems, fun _ => ⟨0, 0, 0, 0⟩, 0, now, false⟩

/-- Charge or discharge the tally of the semaphore a parked operation names. -/
def SemSet.countBlocked (st : SemSet) (semNum : ℕ) (semOp : Int) (add : Bool) : SemSet :=
  let tally (n : ℕ) := if add then min (n + 1) (2 ^ 32 - 1) else n - 1
  let s := st.sems semNum
  let counted := if semOp = 0 then { s with zcnt := tally s.zcnt }
    else { s with ncnt := tally s.ncnt }
  { st with sems := update st.sems semNum counted }

/-! ### One batch -/

/-- How one evaluation of a batch ends. -/
inductive Semop
  | done
  | block (i : ℕ)
  | fail (e : IpcErrno)
  deriving DecidableEq

/-- The state of a batch under evaluation: the values, the adjustments, and the operations applied
so far, the latest first. -/
structure Batch where
  sems : ℕ → Sem
  adj : Option (ℕ → Int)
  applied : List Sembuf

/-- Assign a value. -/
def setSemval (sems : ℕ → Sem) (i : ℕ) (v : Int) : ℕ → Sem :=
  update sems i { sems i with val := v }

/-- Apply one operation, or say why it cannot proceed. -/
def Batch.apply (b : Batch) (s : Sembuf) : Except Semop Batch :=
  let cur := (b.sems s.semNum).val
  if s.semOp = 0 ∧ cur ≠ 0 then .error (.block b.applied.length)
  else if cur + s.semOp < 0 then .error (.block b.applied.length)
  else if SEMVMX < cur + s.semOp then .error (.fail .erange)
  else
    let sems := setSemval b.sems s.semNum (cur + s.semOp)
    if s.undo then
      match b.adj with
      | some adj =>
        let u := adj s.semNum - s.semOp
        if u < -(SEMAEM + 1) ∨ SEMAEM < u then .error (.fail .erange)
        else .ok ⟨sems, some (update adj s.semNum u), s :: b.applied⟩
      | none => .ok ⟨sems, none, s :: b.applied⟩
    else .ok ⟨sems, b.adj, s :: b.applied⟩

/-- Apply the operations in order, up to the first that cannot proceed. -/
def Batch.run (b : Batch) : List Sembuf → Batch × Option Semop
  | [] => (b, none)
  | s :: rest =>
    match b.apply s with
    | .ok b' => b'.run rest
    | .error o => (b, some o)

/-- Take back one operation. -/
def rollbackOne (sems : ℕ → Sem) (adj : Option (ℕ → Int)) (s : Sembuf) :
    (ℕ → Sem) × Option (ℕ → Int) :=
  (setSemval sems s.semNum ((sems s.semNum).val - s.semOp),
    if s.undo then adj.map fun a => update a s.semNum (a s.semNum + s.semOp) else adj)

/-- Take back operations, the latest first. -/
def rollback (sems : ℕ → Sem) (adj : Option (ℕ → Int)) : List Sembuf → (ℕ → Sem) × Option (ℕ → Int)
  | [] => (sems, adj)
  | s :: rest => rollback (rollbackOne sems adj s).1 (rollbackOne sems adj s).2 rest

/-- The mutator of every semaphore a batch names. -/
def stampPids (pid : ℕ) (sems : ℕ → Sem) : List Sembuf → ℕ → Sem
  | [] => sems
  | s :: rest =>
    stampPids pid (update sems s.semNum { sems s.semNum with pid := pid }) rest

/-- `perform_atomic_semop`: the values and adjustments it leaves, and its outcome. -/
def performAtomicSemop (sems : ℕ → Sem) (sops : List Sembuf) (adj : Option (ℕ → Int))
    (pid : ℕ) : (ℕ → Sem) × Option (ℕ → Int) × Semop :=
  match Batch.run ⟨sems, adj, []⟩ sops with
  | (b, none) => (stampPids pid b.sems sops, b.adj, .done)
  | (b, some o) =>
    let r := rollback b.sems b.adj b.applied
    (r.1, r.2, o)

/-! ### Undo lists -/

/-- The adjustments one list holds for one set. -/
structure UndoEntry where
  semid : ℕ
  semadj : ℕ → Int
  /-- The epochs in which the operations summed up in an adjustment were recorded. -/
  epochs : ℕ → List ℕ

/-- A reference-counted undo list. -/
structure ProcUndo where
  id : ℕ
  refs : ℕ
  entries : List UndoEntry

/-- Change the first element that passes a test. -/
def modifyFirst {α : Type*} (p : α → Bool) (f : α → α) : List α → List α
  | [] => []
  | a :: l => if p a then f a :: l else a :: modifyFirst p f l

def isList (id : ℕ) (p : ProcUndo) : Bool := p.id == id
def isEntry (semid : ℕ) (e : UndoEntry) : Bool := e.semid == semid

section

variable (undo : List ProcUndo)

/-- The entry of a list for a set. -/
def findEntry (id semid : ℕ) : Option UndoEntry := do
  let p ← undo.find? (isList id)
  p.entries.find? (isEntry semid)

/-- Change the entry of a list for a set. -/
def modifyEntry (id semid : ℕ) (f : UndoEntry → UndoEntry) : List ProcUndo :=
  modifyFirst (isList id) (fun p => { p with entries := modifyFirst (isEntry semid) f p.entries })
    undo

/-- Change every entry for a set. -/
def mapEntries (semid : ℕ) (f : UndoEntry → UndoEntry) : List ProcUndo :=
  undo.map fun p =>
    { p with entries := p.entries.map fun e => if isEntry semid e then f e else e }

/-- Zero the adjustments an entry holds for the semaphores `assigned`. -/
def UndoEntry.clear (assigned : ℕ → Bool) (e : UndoEntry) : UndoEntry :=
  { e with
    semadj := fun i => if assigned i then 0 else e.semadj i
    epochs := fun i => if assigned i then [] else e.epochs i }

/-- `clear_adjustments`: of one semaphore, or of all of them. -/
def clearAdjustments (semid : ℕ) (semnum : Option ℕ) : List ProcUndo :=
  mapEntries undo semid (UndoEntry.clear fun i => match semnum with
    | some n => i == n
    | none => true)

/-- `invalidate_set`. -/
def invalidateSet (semid : ℕ) : List ProcUndo :=
  undo.map fun p => { p with entries := p.entries.filter fun e => !isEntry semid e }

end

/-- The operations a batch records in an entry that it commits to. -/
def recordOps (epoch : ℕ → ℕ) (sops : List Sembuf) (e : UndoEntry) : UndoEntry :=
  { e with epochs := fun i =>
      (sops.filter fun s => s.undo && s.semNum == i).map (fun _ => epoch i) ++ e.epochs i }

/-- What a batch leaves in its entry. -/
def storeAdj (epoch : ℕ → ℕ) (sops : List Sembuf) (adj : Option (ℕ → Int)) (o : Semop)
    (e : UndoEntry) : UndoEntry :=
  let e' := { e with semadj := adj.getD e.semadj }
  if o = .done then recordOps epoch sops e' else e'

/-! ### Calls -/

/-- A `semop` past its first checks. -/
structure SemopArgs where
  set : ℕ
  sops : List Sembuf
  deadline : Option ℕ

/-- Some operation is to be undone at exit. -/
def SemopArgs.undos (a : SemopArgs) : Bool := a.sops.any Sembuf.undo

/-- `deadline_from`: a relative timeout as an absolute time. -/
def deadlineFrom (timeout : Option (Int × Int)) (now : ℕ) : Except IpcErrno (Option ℕ) :=
  match timeout with
  | none => .ok none
  | some (sec, nsec) =>
    if sec < 0 ∨ nsec < 0 ∨ 1000000000 ≤ nsec then .error .einval
    else
      let rel := satAdd (satMul sec.toNat 1000000000) nsec.toNat
      .ok (some (satAdd now rel))

/-- Where a task is between two sections. -/
inductive SemCall
  | idle
  | undoList (a : SemopArgs)
  | undoEntry (a : SemopArgs) (id : ℕ)
  | checking (a : SemopArgs) (id : Option ℕ)
  | attempting (a : SemopArgs) (id : Option ℕ)
  | parked (a : SemopArgs) (id : Option ℕ) (s : Sembuf)
  | setval (set idx : ℕ) (val : Int)
  | setall (set : ℕ) (vals : ℕ → Int)
  | freeing (set : ℕ)
  | retiring (set : ℕ)
  | exiting (entries : List UndoEntry)
  | visiting (e : UndoEntry) (rest : List UndoEntry)
  | returned (r : Option IpcErrno)

/-- Why a park ends. -/
inductive Wake
  | timedOut
  | signal
  | retry

/-- What a locked section reads from outside. -/
structure Reading where
  tgid : ℕ
  /-- The monotonic clock. -/
  now : ℕ
  /-- The wall clock. -/
  seconds : Int

/-- What happens next to a task in a call. -/
inductive SemAct
  | getList (reserved : Bool)
  | findAlloc (reserved : Bool)
  | check (permitted : Bool)
  | attempt (r : Reading)
  | wake (why : Wake)
  | assign (r : Reading)
  | unpublish
  | retire
  | lookup
  | visit (r : Reading)

/-- One section of one task. -/
inductive SemEvent (τ : Type)
  | semop (t : τ) (semid : Int) (sops : List Sembuf) (timeout : Option (Int × Int)) (now : ℕ)
  | setval (t : τ) (semid semnum val : Int) (permitted : Bool)
  | setall (t : τ) (semid : Int) (permitted reserved : Bool) (vals : Option (ℕ → UInt16))
  | rmid (t : τ) (semid : Int) (admin destroy : Bool)
  | exitSem (t : τ)
  | copySemundo (parent child : τ) (sysvsem : Bool)
  | act (t : τ) (a : SemAct)

/-! ### The world -/

/-- Sets, undo lists and calls. -/
structure SemWorld (τ : Type) where
  set : ℕ → Option SemSet
  /-- The identifier is in the registry. -/
  published : ℕ → Bool
  undo : List ProcUndo
  nextId : ℕ
  /-- The undo list a task holds. -/
  slot : τ → Option ℕ
  call : τ → SemCall
  /-- How often a semaphore has been assigned. -/
  epoch : ℕ → ℕ → ℕ

namespace SemWorld

variable {τ : Type} [DecidableEq τ]

/-- New sets, no undo list, no call. -/
def start (nsems : ℕ → Option ℕ) : SemWorld τ where
  set := fun s => (nsems s).map (newSet · 0)
  published := fun s => (nsems s).isSome
  undo := []
  nextId := 1
  slot := fun _ => none
  call := fun _ => .idle
  epoch := fun _ _ => 0

variable (w : SemWorld τ)

section

variable (t : τ)
variable (semid : Int)

def putCall (c : SemCall) : SemWorld τ :=
  { w with call := update w.call t c }

def putSet (s : ℕ) (st : SemSet) : SemWorld τ :=
  { w with set := update w.set s (some st) }

/-- Return from a call, with an error or without. -/
def leave (r : Option IpcErrno) : SemWorld τ := w.putCall t (.returned r)

/-- Go on where a computation says, or return its error. -/
def enter : Except IpcErrno SemCall → SemWorld τ
  | .ok c => w.putCall t c
  | .error e => w.leave t (some e)

/-- `lookup_checked`. -/
def lookupChecked : Except IpcErrno (ℕ × SemSet) :=
  if semid < 0 then .error .einval
  else if w.published semid.toNat then
    match w.set semid.toNat with
    | some st => .ok (semid.toNat, st)
    | none => .error .einval
  else .error .einval

/-- A task starts a call only when it is in none. -/
def ready : Bool :=
  match w.call t with
  | .idle | .returned _ => true
  | _ => false

/-- A task exits when it is in no call, or from a park. -/
def mayExit : Bool :=
  match w.call t with
  | .idle | .returned _ | .parked _ _ _ => true
  | _ => false

/-! ### `semop` -/

/-- `semop_in` up to the undo list. -/
def semop (sops : List Sembuf) (timeout : Option (Int × Int)) (now : ℕ) :
    Except IpcErrno SemCall := do
  if sops = [] ∨ semid < 0 then .error .einval
  else if SEMOPM < sops.length then .error .e2big
  else do
    let deadline ← deadlineFrom timeout now
    let (s, _) ← w.lookupChecked semid
    let a : SemopArgs := ⟨s, sops, deadline⟩
    pure (if a.undos then .undoList a else .checking a none)

/-- `get_undo_list`: the world with the list in it, and the list. -/
def getUndoList : SemWorld τ × ℕ :=
  match w.slot t with
  | some id => (w, id)
  | none =>
    ({ w with
        undo := w.undo ++ [⟨w.nextId, 1, []⟩]
        nextId := w.nextId + 1
        slot := update w.slot t (some w.nextId) }, w.nextId)

section

variable (a : SemopArgs)

/-- `get_undo_list` where the allocation can fail. -/
def getList (reserved : Bool) : SemWorld τ :=
  if (w.slot t).isNone && !reserved then w.leave t (some .enomem)
  else (w.getUndoList t).1.putCall t (.undoEntry a (w.getUndoList t).2)

/-- `find_alloc`: an entry that is there has the length of the set. -/
def findAlloc (id : ℕ) (reserved : Bool) : SemWorld τ :=
  match w.undo.find? (isList id) with
  | none => w.leave t (some .enomem)
  | some p =>
    if (p.entries.find? (isEntry a.set)).isSome then w.putCall t (.checking a (some id))
    else if !reserved then w.leave t (some .enomem)
    else
      let grow := fun p : ProcUndo =>
        { p with entries := p.entries ++ [⟨a.set, fun _ => 0, fun _ => []⟩] }
      { w with undo := modifyFirst (isList id) grow w.undo }.putCall t (.checking a (some id))

/-- The highest semaphore number named. -/
def maxNum (sops : List Sembuf) : ℕ := sops.foldl (fun m s => max m s.semNum) 0

variable (id : Option ℕ)

/-- The checks between the undo list and the first attempt. -/
def check (permitted : Bool) : SemWorld τ :=
  match w.set a.set with
  | none => w
  | some st =>
    if st.nsems ≤ maxNum a.sops then w.leave t (some .efbig)
    else if !permitted then w.leave t (some .eacces)
    else w.putCall t (.attempting a id)

/-- What follows on an evaluation that left `sems`. -/
def conclude (r : Reading) (st : SemSet) : Semop → SemWorld τ
  | .done => (w.putSet a.set { st with otime := r.seconds }).leave t none
  | .fail e => (w.putSet a.set st).leave t (some e)
  | .block i =>
    match a.sops[i]? with
    | none => w
    | some s =>
      if s.nowait then (w.putSet a.set st).leave t (some .eagain)
      else if a.deadline.any fun d => d ≤ r.now then (w.putSet a.set st).leave t (some .eagain)
      else (w.putSet a.set (st.countBlocked s.semNum s.semOp true)).putCall t (.parked a id s)

/-- The locked section of `semop`. -/
def attempt (r : Reading) : SemWorld τ :=
  match w.set a.set with
  | none => w
  | some st =>
    if st.removed then w.leave t (some .eidrm)
    else if a.undos then
      match id.bind fun id => (findEntry w.undo id a.set).map (Prod.mk id) with
      | none => w.leave t (some .eidrm)
      | some (l, e) =>
        let p := performAtomicSemop st.sems a.sops (some e.semadj) r.tgid
        let stored := storeAdj (w.epoch a.set) a.sops p.2.1 p.2.2
        { w with undo := modifyEntry w.undo l a.set stored }.conclude t a id r
          { st with sems := p.1 } p.2.2
    else
      let p := performAtomicSemop st.sems a.sops none r.tgid
      w.conclude t a id r { st with sems := p.1 } p.2.2

/-- The section after a park. -/
def wake (s : Sembuf) (why : Wake) : SemWorld τ :=
  match w.set a.set with
  | none => w
  | some st =>
    let w' := w.putSet a.set (st.countBlocked s.semNum s.semOp false)
    if st.removed then w'.leave t (some .eidrm)
    else match why with
      | .timedOut => w'.leave t (some .eagain)
      | .signal => w'.leave t (some .eintr)
      | .retry => w'.putCall t (.attempting a id)

end

/-! ### `semctl` -/

/-- `semctl_setval` up to its lock. -/
def setval (semid semnum val : Int) (permitted : Bool) : Except IpcErrno SemCall := do
  if semid < 0 then .error .einval
  else if SEMVMX < val ∨ val < 0 then .error .erange
  else do
    let (s, st) ← w.lookupChecked semid
    if semnum < 0 ∨ st.nsems ≤ semnum.toNat then .error .einval
    else if !permitted then .error .eacces
    else pure (.setval s semnum.toNat val)

/-- `SETALL` up to its lock: every value is checked before any is written. -/
def setall (permitted reserved : Bool) (vals : Option (ℕ → UInt16)) :
    Except IpcErrno SemCall := do
  let (s, st) ← w.lookupChecked semid
  if !permitted then .error .eacces
  else if !reserved then .error .enomem
  else match vals with
    | none => .error .efault
    | some vals =>
      if (List.range st.nsems).any fun i => SEMVMX < (vals i).toNat then .error .erange
      else pure (.setall s fun i => (vals i).toNat)

/-- The semaphores an assignment is about: one, or all of the set. -/
def selects (semnum : Option ℕ) (nsems i : ℕ) : Bool :=
  match semnum with
  | some n => i == n
  | none => decide (i < nsems)

/-- The assignment under the lock. -/
def assign (s : ℕ) (semnum : Option ℕ) (vals : ℕ → Int) (r : Reading) : SemWorld τ :=
  match w.set s with
  | none => w
  | some st =>
    if st.removed then w.leave t (some .eidrm)
    else
      let sems := fun i =>
        if selects semnum st.nsems i then { st.sems i with val := vals i, pid := r.tgid }
        else st.sems i
      { w.putSet s { st with sems := sems, ctime := r.seconds, otime := r.seconds } with
        undo := clearAdjustments w.undo s semnum
        epoch := update w.epoch s fun i =>
          if selects semnum st.nsems i then w.epoch s i + 1 else w.epoch s i }.leave t none

/-- `semctl_rmid` up to the registry. -/
def rmid (admin destroy : Bool) : Except IpcErrno SemCall := do
  let (s, _) ← w.lookupChecked semid
  if !admin then .error .eperm
  else if !destroy then .error .eacces
  else pure (.freeing s)

/-- The registry half of `freeary`. -/
def unpublish (s : ℕ) : SemWorld τ :=
  { w with published := update w.published s false }.putCall t (.retiring s)

/-- `retire`. -/
def retire (s : ℕ) : SemWorld τ :=
  match w.set s with
  | none => w
  | some st =>
    { w.putSet s { st with removed := true } with undo := invalidateSet w.undo s }.leave t none

/-! ### Exit -/

/-- `exit_sem` up to the walk: the last holder takes the entries out. -/
def takeOut : SemWorld τ :=
  match w.slot t with
  | none => w.leave t none
  | some id =>
    let w' := { w with slot := update w.slot t none }
    match w.undo.find? (isList id) with
    | none => w'.leave t none
    | some p =>
      if p.refs - 1 ≠ 0 then
        let drop := fun p : ProcUndo => { p with refs := p.refs - 1 }
        { w' with undo := modifyFirst (isList id) drop w.undo }.leave t none
      else { w' with undo := w.undo.eraseP (isList id) }.putCall t (.exiting p.entries)

/-- Look for the set of the next entry. -/
def lookup : List UndoEntry → SemWorld τ
  | [] => w.leave t none
  | e :: rest =>
    if w.published e.semid then w.putCall t (.visiting e rest) else w.putCall t (.exiting rest)

/-- `clamp_semval`. -/
def clampSemval (v : Int) : Int := if v < 0 then 0 else if SEMVMX < v then SEMVMX else v

/-- Apply an entry to a set. -/
def applyEntry (e : UndoEntry) (st : SemSet) (r : Reading) : SemSet :=
  { st with
    sems := fun i =>
      if i < st.nsems ∧ e.semadj i ≠ 0 then
        { st.sems i with val := clampSemval ((st.sems i).val + e.semadj i), pid := r.tgid }
      else st.sems i
    otime := r.seconds }

/-- The locked section of a visit. -/
def visit (e : UndoEntry) (rest : List UndoEntry) (r : Reading) : SemWorld τ :=
  match w.set e.semid with
  | none => w
  | some st =>
    if st.removed then w.putCall t (.exiting rest)
    else (w.putSet e.semid (applyEntry e st r)).putCall t (.exiting rest)

/-- `copy_semundo`: the parent holds its list throughout. -/
def copySemundo (parent child : τ) (sysvsem : Bool) : SemWorld τ :=
  if !sysvsem then w
  else
    let g := w.getUndoList parent
    match g.1.undo.find? (isList g.2) with
    | none => g.1
    | some _ =>
      { g.1 with
        undo := modifyFirst (isList g.2) (fun p => { p with refs := p.refs + 1 }) g.1.undo
        slot := update g.1.slot child (some g.2) }

/-! ### Events -/

/-- A task goes on with its call; only what its place in the call allows happens. -/
def callStep (act : SemAct) : SemWorld τ :=
  match w.call t, act with
  | .undoList a, .getList reserved => w.getList t a reserved
  | .undoEntry a id, .findAlloc reserved => w.findAlloc t a id reserved
  | .checking a id, .check permitted => w.check t a id permitted
  | .attempting a id, .attempt r => w.attempt t a id r
  | .parked a id s, .wake why => w.wake t a id s why
  | .setval s idx val, .assign r => w.assign t s (some idx) (fun _ => val) r
  | .setall s vals, .assign r => w.assign t s none vals r
  | .freeing s, .unpublish => w.unpublish t s
  | .retiring s, .retire => w.retire t s
  | .exiting entries, .lookup => w.lookup t entries
  | .visiting e rest, .visit r => w.visit t e rest r
  | _, _ => w

end

/-- One event. -/
def step : SemEvent τ → SemWorld τ
  | .semop t semid sops timeout now =>
    if w.ready t then w.enter t (w.semop semid sops timeout now) else w
  | .setval t semid semnum val permitted =>
    if w.ready t then w.enter t (w.setval semid semnum val permitted) else w
  | .setall t semid permitted reserved vals =>
    if w.ready t then w.enter t (w.setall semid permitted reserved vals) else w
  | .rmid t semid admin destroy =>
    if w.ready t then w.enter t (w.rmid semid admin destroy) else w
  | .exitSem t => if w.mayExit t then w.takeOut t else w
  | .copySemundo parent child sysvsem =>
    -- the child is a new task
    if parent ≠ child ∧ w.ready parent ∧ w.ready child ∧ (w.slot child).isNone then
      w.copySemundo parent child sysvsem
    else w
  | .act t a => w.callStep t a

end SemWorld

end Oxide
