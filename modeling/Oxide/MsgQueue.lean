/-
System V message queues.

`msgsnd` and `msgrcv` each make one pass under the queue's lock per attempt and park between
attempts; `IPC_RMID` unpublishes the queue and then empties it under the same lock. The world
holds every queue, the identifiers that name them, and the call each task is in; an event is one
lock-protected section of a call, with the answers of the security hooks and of user memory.

* `findMsg`: the message `msgtyp` selects;
* `sendSection`, `recvSection`: one pass of the two loops;
* `MsgWorld.step`: one event.

Design notes: the identifier encoding is left out, an identifier names a queue or does not.
Hook verdicts, clocks and process ids are inputs of a section. Each call carries a mark of
whether one of its sections changed the queue, which nothing reads.
-/
import Mathlib.Algebra.Ring.Int.Defs
import Mathlib.Data.List.Basic
import Oxide.Word

namespace Oxide

open Function

inductive IpcErrno
  | efault
  | einval
  | enomem
  | eacces
  | eidrm
  | eagain
  | e2big
  | enomsg
  | eperm
  | eintr
  | efbig
  | erange
  deriving DecidableEq

/-- `IPC_NOWAIT` and the flags of `msgrcv`. -/
def IPC_NOWAIT : BitVec 32 := 0o4000
def MSG_NOERROR : BitVec 32 := 0o10000
def MSG_EXCEPT : BitVec 32 := 0o20000
def MSG_COPY : BitVec 32 := 0o40000

def MSGMAX : ℕ := 8192
def MSGMNB : ℕ := 16384

/-- Whether a flag word has the flag. -/
def hasFlag (flags flag : BitVec 32) : Bool := flags &&& flag != 0

/-- A queued message. -/
structure Msg where
  mtype : Int
  data : List UInt8
  securitySid : ℕ
  deriving DecidableEq

/-- The payload length. -/
def Msg.ts (m : Msg) : ℕ := m.data.length

/-- What the lock of a queue protects. -/
structure QueueState where
  msgs : List Msg
  stime : Int
  rtime : Int
  ctime : Int
  /-- Payload bytes queued. -/
  cbytes : ℕ
  /-- Messages queued. -/
  qnum : ℕ
  /-- The byte budget. -/
  qbytes : ℕ
  lspid : ℕ
  lrpid : ℕ
  deriving DecidableEq

/-- Both the bytes and the number of messages are held to the byte budget. -/
def QueueState.fits (s : QueueState) (msgsz : ℕ) : Bool :=
  satAdd msgsz s.cbytes ≤ s.qbytes && satAdd s.qnum 1 ≤ s.qbytes

/-- A queue. -/
structure MsgQueue where
  state : QueueState
  removed : Bool

def newQueue (now : Int) : MsgQueue where
  state := ⟨[], 0, 0, now, 0, 0, MSGMNB, 0, 0⟩
  removed := false

/-! ### Selecting a message -/

/-- How `msgrcv` selects. -/
inductive Search
  | any
  | equal
  | notEqual
  | lessEqual
  | number
  deriving DecidableEq

/-- The mode of a receive and its bound; the least `long` is not negated. -/
def convertMode (msgtyp : Int) (msgflg : BitVec 32) : Search × Int :=
  if hasFlag msgflg MSG_COPY then (.number, msgtyp)
  else if msgtyp = 0 then (.any, msgtyp)
  else if msgtyp < 0 then (.lessEqual, if msgtyp = -2 ^ 63 then 2 ^ 63 - 1 else -msgtyp)
  else if hasFlag msgflg MSG_EXCEPT then (.notEqual, msgtyp)
  else (.equal, msgtyp)

def testmsg (mtype msgtyp : Int) : Search → Bool
  | .any | .number => true
  | .lessEqual => mtype ≤ msgtyp
  | .equal => mtype = msgtyp
  | .notEqual => mtype ≠ msgtyp

/-- The scan from index `i`: `count` messages passed the test, `found` is the best so far.  The
bound narrows as better messages are found. -/
def findFrom (mode : Search) : List Msg → ℕ → Int → Int → Option ℕ → Option ℕ × Int
  | [], _, _, msgtyp, found => (found, msgtyp)
  | m :: ms, i, count, msgtyp, found =>
    if !testmsg m.mtype msgtyp mode then findFrom mode ms (i + 1) count msgtyp found
    else if mode = .lessEqual ∧ m.mtype ≠ 1 then
      findFrom mode ms (i + 1) (count + 1) (m.mtype - 1) (some i)
    else if mode = .number then
      if msgtyp = count then (some i, msgtyp)
      else findFrom mode ms (i + 1) (count + 1) msgtyp found
    else (some i, msgtyp)

/-- The index of the selected message, and the bound the scan leaves. -/
def findMsg (msgs : List Msg) (msgtyp : Int) (mode : Search) : Option ℕ × Int :=
  findFrom mode msgs 0 0 msgtyp none

/-! ### Calls -/

/-- A `msgsnd` past its checks. -/
structure SendArgs where
  /-- The queue the identifier named. -/
  queue : ℕ
  mtype : Int
  data : List UInt8
  msgsz : ℕ
  msgflg : BitVec 32

/-- A `msgrcv` past its checks. -/
structure RecvArgs where
  queue : ℕ
  uptr : ℕ
  bufsz : ℕ
  msgtyp : Int
  mode : Search
  msgflg : BitVec 32

/-- How a call ends.  A signal during a park asks for a restart, which is no error. -/
inductive Returned
  | value (n : ℕ)
  | restart
  | error (e : IpcErrno)
  | copyOutFault
  deriving DecidableEq

/-- Where a call is between two sections. -/
inductive CallState
  | sending (a : SendArgs)
  | sendParked (a : SendArgs)
  | receiving (a : RecvArgs)
  | recvParked (a : RecvArgs)
  | filling (a : RecvArgs) (m : Msg)
  | freeing (queue : ℕ)
  | returned (r : Returned)

/-- A call of a task. -/
structure Call where
  state : CallState
  /-- A section of this call changed its queue. -/
  changed : Bool

/-- What a section of `msgsnd` learns. -/
structure SendVerdicts where
  /-- `permitted_selinux` and the `write` permission. -/
  permitted : Bool
  /-- The label the message would get. -/
  msgSid : ℕ
  send : Bool
  enqueue : Bool
  tgid : ℕ
  now : Int

/-- What a section of `msgrcv` learns. -/
structure RecvVerdicts where
  /-- `permitted_selinux` and the `read` permission. -/
  permitted : Bool
  /-- The copy of a peeked message can be allocated. -/
  reserved : Bool
  /-- The `receive` permission on the message. -/
  receive : Bool
  tgid : ℕ
  now : Int

section

variable (q : MsgQueue)

/-- One pass of `msgsnd` under the lock. -/
def sendSection (a : SendArgs) (v : SendVerdicts) : MsgQueue × CallState :=
  if !v.permitted then (q, .returned (.error .eacces))
  else if q.removed then (q, .returned (.error .eidrm))
  else if q.state.fits a.msgsz then
    -- the sender is stamped before the hooks are asked
    let stamped := { q.state with lspid := v.tgid, stime := v.now }
    if !(v.send && v.enqueue) then ({ q with state := stamped }, .returned (.error .eacces))
    else
      ({ q with state := { stamped with
          msgs := stamped.msgs ++ [⟨a.mtype, a.data, v.msgSid⟩]
          cbytes := wrapAdd stamped.cbytes a.msgsz
          qnum := wrapAdd stamped.qnum 1 } }, .returned (.value 0))
  else if hasFlag a.msgflg IPC_NOWAIT then (q, .returned (.error .eagain))
  else (q, .sendParked a)

/-- Take the message at an index off the queue. -/
def recvTake (a : RecvArgs) (v : RecvVerdicts) (i : ℕ) : MsgQueue × CallState :=
  match q.state.msgs[i]? with
  | none => (q, .returned (.error .enomsg))
  | some taken =>
    -- the message is off the queue before the hook is asked
    let removed := { q.state with msgs := q.state.msgs.eraseIdx i }
    if !v.receive then ({ q with state := removed }, .returned (.error .eacces))
    else
      ({ q with state := { removed with
          qnum := wrapSub removed.qnum 1
          rtime := v.now
          lrpid := v.tgid
          cbytes := wrapSub removed.cbytes taken.ts } }, .filling a taken)

/-- Copy the message at an index. -/
def recvCopy (a : RecvArgs) (v : RecvVerdicts) (m : Msg) : MsgQueue × CallState :=
  if a.bufsz < m.ts then (q, .returned (.error .einval))
  else if !v.reserved then (q, .returned (.error .enomem))
  else if !v.receive then (q, .returned (.error .eacces))
  else (q, .filling a m)

/-- One pass of `msgrcv`: the permission is tested ahead of the lock. -/
def recvSection (a : RecvArgs) (v : RecvVerdicts) : MsgQueue × CallState :=
  if !v.permitted then (q, .returned (.error .eacces))
  else if q.removed then (q, .returned (.error .eidrm))
  else match findMsg q.state.msgs a.msgtyp a.mode with
    | (some i, _) =>
      match q.state.msgs[i]? with
      | none => (q, .returned (.error .enomsg))
      | some m =>
        if a.bufsz < m.ts && !hasFlag a.msgflg MSG_NOERROR then (q, .returned (.error .e2big))
        else if hasFlag a.msgflg MSG_COPY then recvCopy q a v m
        else recvTake q a v i
    | (none, msgtyp) =>
      if hasFlag a.msgflg IPC_NOWAIT then (q, .returned (.error .enomsg))
      else (q, .recvParked { a with msgtyp := msgtyp })

/-- `freeque`: the removal is published and the messages are dropped. -/
def freeque : MsgQueue where
  state := { q.state with msgs := [], cbytes := 0, qnum := 0 }
  removed := true

end

/-! ### The world -/

/-- Queues, identifiers and calls. -/
structure MsgWorld where
  queue : ℕ → Option MsgQueue
  /-- The name of the next queue. -/
  nextQueue : ℕ
  /-- The queue an identifier names. -/
  ids : ℕ → Option ℕ
  call : ℕ → Option Call

/-- What `msgsnd` reads from user memory. -/
structure SendMemory where
  uptr : ℕ
  /-- The type word, unless it faults. -/
  header : Option Int
  /-- The payload buffer can be allocated. -/
  reserved : Bool
  /-- The bytes behind the type word, unless they fault. -/
  text : Option (ℕ → UInt8)

/-- What `msgrcv` learns of user memory before it looks for the queue. -/
structure RecvMemory where
  uptr : ℕ
  readable : Bool

/-- Whether the two stores of a received message reach user memory. -/
structure CopyOut where
  header : Bool
  text : Bool

/-- What happens next to a task in a call. -/
inductive CallAct
  | sendLocked (v : SendVerdicts)
  | recvLocked (v : RecvVerdicts)
  | resume (signal : Bool)
  | fill (out : CopyOut)
  | freeque

/-- One locked section. -/
inductive MsgEvent
  | msgget (id : ℕ) (now : Int)
  | msgsnd (task : ℕ) (mem : SendMemory) (msqid : Int) (msgsz : ℕ) (msgflg : BitVec 32)
  | msgrcv (task : ℕ) (mem : RecvMemory) (msqid : Int) (bufsz : ℕ) (msgtyp : Int)
      (msgflg : BitVec 32)
  | rmid (task : ℕ) (msqid : Int) (admin destroy : Bool)
  | act (task : ℕ) (a : CallAct)

namespace MsgWorld

/-- No queue and no call. -/
def boot : MsgWorld := ⟨fun _ => none, 0, fun _ => none, fun _ => none⟩

variable (w : MsgWorld)

/-- The queue a checked identifier names. -/
def lookupChecked (msqid : Int) : Except IpcErrno ℕ :=
  if msqid < 0 then .error .einval
  else match w.ids msqid.toNat with
    | some q => .ok q
    | none => .error .einval

/-- `msgsnd` up to its first lock. -/
def msgsnd (mem : SendMemory) (msqid : Int) (msgsz : ℕ) (msgflg : BitVec 32) :
    Except IpcErrno SendArgs := do
  let mtype ← (match mem.header with
    | some t => .ok t
    | none => .error .efault)
  if MSGMAX < msgsz ∨ msqid < 0 then .error .einval
  else if mtype < 1 then .error .einval
  else if !mem.reserved then .error .enomem
  else if 2 ^ 64 ≤ mem.uptr + 8 then .error .efault
  else match mem.text with
    | none => .error .efault
    | some text => do
      let q ← w.lookupChecked msqid
      pure ⟨q, mtype, (List.range msgsz).map text, msgsz, msgflg⟩

/-- `msgrcv` up to its first attempt. -/
def msgrcv (mem : RecvMemory) (msqid : Int) (bufsz : ℕ) (msgtyp : Int) (msgflg : BitVec 32) :
    Except IpcErrno RecvArgs := do
  if msqid < 0 ∨ 2 ^ 63 ≤ bufsz then .error .einval
  else if hasFlag msgflg MSG_COPY &&
      (hasFlag msgflg MSG_EXCEPT || !hasFlag msgflg IPC_NOWAIT) then .error .einval
  else if hasFlag msgflg MSG_COPY && !mem.readable then .error .efault
  else do
    let q ← w.lookupChecked msqid
    let m := convertMode msgtyp msgflg
    pure ⟨q, mem.uptr, bufsz, m.2, m.1, msgflg⟩

/-- `do_msg_fill`: the type word, then as much of the payload as the buffer takes. -/
def fill (a : RecvArgs) (m : Msg) (out : CopyOut) : Returned :=
  if !out.header then .copyOutFault
  else if 2 ^ 64 ≤ a.uptr + 8 then .copyOutFault
  else if !out.text then .copyOutFault
  else .value (min a.bufsz m.ts)

/-- `ipc_rmid` under the registry lock. -/
def rmid (msqid : Int) (admin destroy : Bool) : Except IpcErrno ℕ := do
  let q ← w.lookupChecked msqid
  if !admin then .error .eperm
  else if !destroy then .error .eacces
  else pure q

section

variable (task : ℕ)

/-- Enter a call, or return from it at once. -/
def enter : Except IpcErrno CallState → MsgWorld
  | .ok s => { w with call := update w.call task (some ⟨s, false⟩) }
  | .error e => { w with call := update w.call task (some ⟨.returned (.error e), false⟩) }

/-- Leave a section of a call on its queue. -/
def leaveSection (c : Call) (queue : ℕ) (q : MsgQueue) (r : MsgQueue × CallState) : MsgWorld :=
  { w with
    queue := update w.queue queue (some r.1)
    call := update w.call task (some ⟨r.2, c.changed || r.1.state ≠ q.state⟩) }

/-- A call goes on without touching its queue. -/
def goOn (c : Call) (s : CallState) : MsgWorld :=
  { w with call := update w.call task (some { c with state := s }) }

/-- Run a section on the queue of a call. -/
def onQueue (c : Call) (queue : ℕ) (section' : MsgQueue → MsgQueue × CallState) : MsgWorld :=
  match w.queue queue with
  | some q => w.leaveSection task c queue q (section' q)
  | none => w

/-- A task starts a call only when it is in none. -/
def idle : Bool :=
  match w.call task with
  | none => true
  | some ⟨.returned _, _⟩ => true
  | some _ => false

/-- A fresh queue under an unused identifier. -/
def publish (id : ℕ) (now : Int) : MsgWorld :=
  if (w.ids id).isSome then w
  else { w with
    queue := update w.queue w.nextQueue (some (newQueue now))
    nextQueue := w.nextQueue + 1
    ids := update w.ids id (some w.nextQueue) }

/-- A task goes on with its call; only what its place in the call allows happens. -/
def callStep (c : Call) (act : CallAct) : MsgWorld :=
  match c.state, act with
  | .sending a, .sendLocked v => w.onQueue task c a.queue fun q => sendSection q a v
  | .receiving a, .recvLocked v => w.onQueue task c a.queue fun q => recvSection q a v
  | .sendParked a, .resume signal =>
    w.goOn task c (if signal then .returned .restart else .sending a)
  | .recvParked a, .resume signal =>
    w.goOn task c (if signal then .returned .restart else .receiving a)
  | .filling a m, .fill out => w.goOn task c (.returned (fill a m out))
  | .freeing queue, .freeque =>
    w.onQueue task c queue fun q => (Oxide.freeque q, .returned (.value 0))
  | _, _ => w

end

/-- One event. -/
def step : MsgEvent → MsgWorld
  | .msgget id now => w.publish id now
  | .msgsnd task mem msqid msgsz msgflg =>
    if w.idle task then w.enter task ((w.msgsnd mem msqid msgsz msgflg).map .sending) else w
  | .msgrcv task mem msqid bufsz msgtyp msgflg =>
    if w.idle task then w.enter task ((w.msgrcv mem msqid bufsz msgtyp msgflg).map .receiving)
    else w
  | .rmid task msqid admin destroy =>
    if w.idle task then
      match w.rmid msqid admin destroy with
      | .ok q => { w with ids := update w.ids msqid.toNat none }.enter task
          (.ok (.freeing q))
      | .error e => w.enter task (.error e)
    else w
  | .act task a =>
    match w.call task with
    | some c => w.callStep task c a
    | none => w

end MsgWorld

end Oxide
