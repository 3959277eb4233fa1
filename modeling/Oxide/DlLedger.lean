/-
The bandwidth ledger of the deadline class.

An ordinary deadline reservation is booked in one ledger. When its task leaves the class the
booking stays, as a token in the task's entity, until the zero-lag instant; a timer then claims the
token and releases the booking. A task that re-enters the class before that reuses the booking.

* `planTransition`, `changedTotal`: what a policy request does to the total;
* `DlWorld.inactiveAdmit`, `leaveClassFor`: admission, and a reservation retained or released;
* `DlWorld.popDue`, `expireClaim`: the two halves of a timer expiry;
* `DlWorld.tryMarkOffline`: a CPU leaves only if the rest can serve the total;
* `DlWorld.step`: one event.

Design notes: the lock of a task is held throughout a policy change, an exit and the claiming half
of an expiry, so each of these is one event. Budgets and the run queues are left out; the zero-lag
instant and the clock are inputs, and the ledger keeps its default cap. Two things are there for
the theorems only: every booking has a number, held by its entity, by the token, or in the list of
released ones; and a departed booking keeps the bandwidth it left with.
-/
import Oxide.Serial
import Mathlib.Data.BitVec

namespace Oxide

def MAX_CPUS : ℕ := 256
def BW_UNIT : ℕ := 2 ^ 20
def BW_DISABLED : ℕ := 2 ^ 64 - 1
def DEFAULT_BW : ℕ := BW_UNIT
def DL_PERIOD_MIN_NS : ℕ := 100 * 1000
def DL_PERIOD_MAX_NS : ℕ := 2 ^ 22 * 1000
def FLAG_SUGOV : BitVec 64 := 0x10000000
def SCHED_DL_FLAGS : BitVec 64 := 0x02 ||| 0x04 ||| FLAG_SUGOV

/-! ### Reservations -/

/-- The static reservation of an entity. -/
structure DlParams where
  runtime : ℕ
  deadline : ℕ
  period : ℕ
  /-- Runtime over period, in fixed point. -/
  bw : ℕ
  density : ℕ
  flags : BitVec 64

def DlParams.zero : DlParams := ⟨0, 0, 0, 0, 0, 0⟩

/-- A governor entity, outside the accounting. -/
def DlParams.isSpecial (p : DlParams) : Bool := p.flags &&& FLAG_SUGOV != 0

/-- `to_ratio`; the shift is one of 64-bit words. -/
def toRatio (period runtime : ℕ) : ℕ :=
  if runtime = 2 ^ 64 - 1 then BW_UNIT
  else if period = 0 then 0
  else runtime * BW_UNIT % 2 ^ 64 / period

/-- What userspace asks for. -/
structure DlRequest where
  runtime : ℕ
  deadline : ℕ
  period : ℕ
  flags : BitVec 64

/-- `DlParams::from_request`. -/
def DlRequest.params (r : DlRequest) : DlParams :=
  let period := if r.period = 0 then r.deadline else r.period
  ⟨r.runtime, r.deadline, period, toRatio period r.runtime, toRatio r.deadline r.runtime,
    r.flags &&& SCHED_DL_FLAGS⟩

/-- `checkparam_dl`. -/
def DlRequest.checkparam (r : DlRequest) : Bool :=
  if r.flags &&& FLAG_SUGOV != 0 then true
  else if r.deadline = 0 then false
  else if r.runtime < 2 ^ 10 then false
  else if 2 ^ 63 ≤ r.deadline ∨ 2 ^ 63 ≤ r.period then false
  else
    let period := if r.period = 0 then r.deadline else r.period
    if period < r.deadline ∨ r.deadline < r.runtime then false
    else !(decide (period < DL_PERIOD_MIN_NS) || decide (DL_PERIOD_MAX_NS < period))

/-! ### The ledger's arithmetic -/

/-- Why an admission stops. -/
inductive LedgerStop
  | busy
  | panicked
  deriving DecidableEq

/-- `cap_scale`. -/
def capScale (bw cap : ℕ) : ℕ := bw * cap / 2 ^ 10 % 2 ^ 64

/-- `capacity_of`. -/
def capacityOf (n : ℕ) : ℕ := n * 2 ^ 10 % 2 ^ 64

/-- The total with one booking replaced; the checked operations of the source panic. -/
def replaced (total old new : ℕ) : Except LedgerStop ℕ :=
  if total < old then .error .panicked
  else if 2 ^ 64 ≤ total - old + new then .error .panicked
  else .ok (total - old + new)

/-- `dl_overflow`. -/
def dlOverflow (bw cap total old new : ℕ) : Except LedgerStop Bool :=
  if bw = BW_DISABLED then .ok false
  else do
    let prospective ← replaced total old new
    pure (decide (capScale bw cap < prospective))

/-- What a request does to the total. -/
inductive BwChange
  | none
  | add (new : ℕ)
  | replace (old new : ℕ)
  | leaving

/-- `plan_transition`. -/
def planTransition (bw cap total : ℕ) (wantDl isDl : Bool) (curBw newBw : ℕ)
    (curSpecial newSpecial : Bool) : Except LedgerStop BwChange := do
  let hasBooking := isDl && !curSpecial
  let wantsBooking := wantDl && !newSpecial
  if wantsBooking && hasBooking && newBw == curBw then .ok .none
  else if wantsBooking && !hasBooking then do
    let overflow ← dlOverflow bw cap total 0 newBw
    if overflow then .error .busy else .ok (.add newBw)
  else if wantsBooking && hasBooking then do
    let overflow ← dlOverflow bw cap total curBw newBw
    if overflow then .error .busy else .ok (.replace curBw newBw)
  else if hasBooking then .ok .leaving
  else .ok .none

/-- `changed_total`. -/
def changedTotal (total : ℕ) : BwChange → Except LedgerStop ℕ
  | .none | .leaving => .ok total
  | .add new => replaced total 0 new
  | .replace old new => replaced total old new

/-! ### Entities and the world -/

/-- The generation-stamped word of the embedded token. -/
inductive InactiveWord
  | empty
  | armed (generation : ℕ)
  | claimed (generation : ℕ)
  deriving DecidableEq

/-- The deadline entity of a task. -/
structure DlEntity where
  params : DlParams
  /-- The task's policy is `SCHED_DEADLINE`. -/
  policyDl : Bool
  zombie : Bool
  word : InactiveWord
  inactiveAt : BitVec 64
  inactiveBw : ℕ
  inactiveClear : Bool
  /-- The number of its current booking. -/
  booking : Option ℕ
  /-- The number of the booking it left, and its bandwidth. -/
  departed : Option (ℕ × ℕ)

def DlEntity.new : DlEntity := ⟨.zero, false, false, .empty, 0, 0, false, none, none⟩

/-- `InactiveReservation::active`, for the generation in the word. -/
def DlEntity.armed (e : DlEntity) : Bool :=
  match e.word with
  | .armed _ => true
  | _ => false

/-- Arm the token. -/
def DlEntity.arm (e : DlEntity) (generation : ℕ) (zeroLag : BitVec 64) (bw : ℕ)
    (clearOnExpire : Bool) : DlEntity :=
  { e with
    word := .armed generation
    inactiveAt := zeroLag
    inactiveBw := bw
    inactiveClear := clearOnExpire }

/-- The ledger, the entities and the timers. -/
structure DlWorld (ε : Type) where
  entity : ε → DlEntity
  /-- The per-CPU cap. -/
  bw : ℕ
  /-- The admitted total. -/
  total : ℕ
  online : Finset (Fin MAX_CPUS)
  /-- The timer queue. -/
  queue : List ε
  /-- Expiries that have left the queue and not claimed yet, with their generation. -/
  popped : List (ε × ℕ)
  nextId : ℕ
  panicked : Bool
  nextBooking : ℕ
  released : List ℕ

namespace DlWorld

variable {ε : Type} [DecidableEq ε]

/-- No reservation yet. -/
def start (online : Finset (Fin MAX_CPUS)) : DlWorld ε :=
  ⟨fun _ => .new, DEFAULT_BW, 0, online, [], [], 1, false, 0, []⟩

variable (w : DlWorld ε)

section

variable (x : ε)

def put (e : DlEntity) : DlWorld ε :=
  { w with entity := Function.update w.entity x e }

/-- An assertion of the ledger fails. -/
def fault : DlWorld ε := { w with panicked := true }

/-- The capacity admission is held to. -/
def capacity : ℕ := capacityOf w.online.card

/-! The numbers of bookings. -/

/-- A request that was admitted has a booking: the one it had, the one it left, or a new one. -/
def book (reused : Bool) : DlWorld ε :=
  let e := w.entity x
  match e.booking, (if reused then e.departed else none) with
  | some _, _ => w
  | none, some (k, _) => w.put x { e with booking := some k, departed := none }
  | none, none =>
    { w.put x { e with booking := some w.nextBooking } with nextBooking := w.nextBooking + 1 }

/-- The current booking of an entity ends. -/
def unbook : DlWorld ε :=
  let e := w.entity x
  match e.booking with
  | some k => { w.put x { e with booking := none } with released := k :: w.released }
  | none => w

/-- The current booking of an entity is retained. -/
def depart : DlWorld ε :=
  let e := w.entity x
  match e.booking with
  | some k => w.put x { e with booking := none, departed := some (k, e.params.bw) }
  | none => w

/-! ### Admission -/

/-- Clear the parameters of an entity. -/
def clear : DlWorld ε := w.put x { w.entity x with params := .zero }

def setParams (p : DlParams) : DlWorld ε :=
  w.put x { w.entity x with params := p }

/-- What becomes of an armed token. -/
inductive PendingUse
  | none
  | reused
  | expired
  deriving DecidableEq

/-- The booking a request is weighed against: a token that is armed stands for it. -/
def oldBooking (e : DlEntity) : Bool × ℕ × Bool :=
  if e.armed then (true, e.inactiveBw, false) else (e.policyDl, e.params.bw, e.params.isSpecial)

/-- What a request that was admitted makes of the token. -/
def useToken (wantDl : Bool) (wanted : DlParams) : DlWorld ε × PendingUse :=
  let e := w.entity x
  if e.word = .empty then (w, .none)
  else if e.armed && wantDl && !wanted.isSpecial then
    -- the claim stands inside a debug assertion, which a release build does not evaluate
    (w, .reused)
  else if e.armed && wantDl && wanted.isSpecial then
    (w.put x { e with inactiveClear := false }, .none)
  else if !e.armed then (w, .expired)
  else (w, .none)

/-- `admit_pending` under the ledger's lock: the new total, and what becomes of the token. -/
def admitPending (wantDl : Bool) (wanted : DlParams) :
    Except LedgerStop (DlWorld ε × PendingUse) := do
  let old := oldBooking (w.entity x)
  let change ← planTransition w.bw w.capacity w.total wantDl old.1 old.2.1 wanted.bw old.2.2
    wanted.isSpecial
  let total ← changedTotal w.total change
  pure ({ w with total := total }.useToken x wantDl wanted)

/-- `cancel`: the timer leaves the queue. -/
def cancel : DlWorld ε := { w with queue := w.queue.erase x }

/-- `consume_inactive`: only a claimed token is emptied. -/
def consumeInactive : DlWorld ε :=
  match (w.entity x).word with
  | .claimed _ => w.put x { w.entity x with word := .empty }
  | _ => w

/-- `inactive::admit`. -/
def inactiveAdmit (wantDl : Bool) (wanted : DlParams) : Except LedgerStop (DlWorld ε) := do
  let r ← w.admitPending x wantDl wanted
  let w' := match r.2 with
    | .reused => (r.1.cancel x).consumeInactive x
    | .expired => ((r.1.cancel x).consumeInactive x).clear x
    | .none => r.1
  pure (if wantDl && !wanted.isSpecial then w'.book x (r.2 == .reused) else w')

/-! ### Entering and leaving the class -/

/-- `release`. -/
def release (bw : ℕ) : DlWorld ε :=
  if w.total < bw then w.fault else { w with total := w.total - bw }

/-- `enter_class` and `reset_params`: a task that is dead by now gives its booking back. -/
def install (p : DlParams) : DlWorld ε :=
  if (w.entity x).zombie then
    let w' := if !p.isSpecial && p.bw != 0 then w.release p.bw else w
    (w'.clear x).unbook x
  else w.setParams x p

/-- Where a timer stands in the queue. -/
def timerAt : BitVec 64 :=
  if (w.entity x).word = .empty then 2 ^ 64 - 1 else (w.entity x).inactiveAt

/-- `insert`: before the first timer that is later. -/
def insert (w : DlWorld ε) (x : ε) (zeroLag : BitVec 64) : List ε → List ε
  | [] => [x]
  | c :: rest =>
    if Serial.before zeroLag (w.timerAt c) then x :: c :: rest else c :: w.insert x zeroLag rest

/-- The generation of the next token. -/
def generation : ℕ := if w.nextId % 2 ^ 62 = 0 then 1 else w.nextId % 2 ^ 62

/-- `inactive::arm`, unless an older generation holds the token. -/
def arm (zeroLag : BitVec 64) (bw : ℕ) (clearOnExpire : Bool) : Option (DlWorld ε) :=
  let e := w.entity x
  if e.word ≠ .empty then none
  else
    let w' := { w with nextId := w.nextId + 1 }.put x (e.arm w.generation zeroLag bw clearOnExpire)
    some { w' with queue := w'.insert x zeroLag w'.queue }

/-- `leave_class_for`. -/
def leaveClassFor (clearOnExpire : Bool) (zeroLag now : BitVec 64) : DlWorld ε :=
  let p := (w.entity x).params
  if p.bw = 0 ∨ p.isSpecial then (w.clear x).unbook x
  else if (w.entity x).word ≠ .empty then w.depart x
  else
    match (if Serial.before now zeroLag then w.arm x zeroLag p.bw clearOnExpire else none) with
    | some w' => w'.depart x
    | none => ((w.release p.bw).clear x).unbook x

/-- `apply_sched_update_unlocked`, as far as the deadline class goes. -/
def apply (wanted : Option DlParams) (zeroLag now : BitVec 64) : DlWorld ε :=
  let e := w.entity x
  let w' := match wanted with
    | some p =>
      if e.policyDl && !e.params.isSpecial && p.isSpecial then
        (w.leaveClassFor x false zeroLag now).install x p
      else w.install x p
    | none => if e.policyDl then w.leaveClassFor x true zeroLag now else w
  w'.put x { w'.entity x with policyDl := wanted.isSome }

/-- One policy change. -/
def policy (req : Option DlRequest) (allowed : Bool) (zeroLag now : BitVec 64) : DlWorld ε :=
  let wanted := req.map DlRequest.params
  if !(req.all DlRequest.checkparam) then w
  else if !(wanted.isSome || (w.entity x).policyDl) then w
  else if wanted.isSome && !allowed then w
  else match w.inactiveAdmit x wanted.isSome (wanted.getD .zero) with
    | .error .busy => w
    | .error .panicked => w.fault
    | .ok w' => w'.apply x wanted zeroLag now

end

/-! ### Expiry -/

/-- `pop_due`: the head of the queue, if it is due. -/
def popDue (now : BitVec 64) : DlWorld ε :=
  match w.queue with
  | [] => w
  | x :: rest =>
    match (w.entity x).word with
    | .empty => { w with queue := rest }
    | .armed g | .claimed g =>
      if Serial.before now (w.entity x).inactiveAt then w
      else { w with queue := rest, popped := (x, g) :: w.popped }

/-- A departed booking ends. -/
def unbookDeparted (x : ε) : DlWorld ε :=
  let e := w.entity x
  match e.departed with
  | some (k, _) => { w.put x { e with departed := none } with released := k :: w.released }
  | none => w

/-- `expire_claim`: `release_inactive`, and `finish_expiry` if it released. -/
def expireClaim (x : ε) (g : ℕ) : DlWorld ε :=
  let w := { w with popped := w.popped.erase (x, g) }
  let e := w.entity x
  if e.word ≠ .armed g then w
  else if w.total < e.inactiveBw then w.fault
  else
    let e' := { e with
      word := .empty
      params := if e.inactiveClear then .zero else e.params }
    ({ w with total := w.total - e.inactiveBw }.put x e').unbookDeparted x

/-! ### CPUs -/

/-- `try_mark_offline`. -/
def tryMarkOffline (cpu : Fin MAX_CPUS) : DlWorld ε :=
  if cpu ∉ w.online then w
  else
    let remaining := w.online.card - 1
    if w.total = 0 then { w with online := w.online.erase cpu }
    else if remaining = 0 then w
    else match dlOverflow w.bw (capacityOf remaining) w.total 0 0 with
      | .error _ => w.fault
      | .ok true => w
      | .ok false => { w with online := w.online.erase cpu }

/-! ### Events -/

/-- An event of the class. -/
inductive Event (ε : Type)
  | policy (x : ε) (req : Option DlRequest) (allowed : Bool) (zeroLag now : BitVec 64)
  | exit (x : ε)
  | leave (x : ε) (zeroLag now : BitVec 64)
  | popDue (now : BitVec 64)
  | expireClaim (x : ε) (g : ℕ)
  | offline (cpu : Fin MAX_CPUS)

/-- One event; a panic stops the machine. -/
def step (e : Event ε) : DlWorld ε :=
  if w.panicked then w
  else match e with
    | .policy x req allowed zeroLag now => w.policy x req allowed zeroLag now
    | .exit x => w.put x { w.entity x with zombie := true }
    -- the exit of a running task leaves the class when it is scheduled out
    | .leave x zeroLag now =>
      if (w.entity x).zombie then w.leaveClassFor x true zeroLag now else w
    | .popDue now => w.popDue now
    | .expireClaim x g => if (x, g) ∈ w.popped then w.expireClaim x g else w
    | .offline cpu => w.tryMarkOffline cpu

end DlWorld

end Oxide
