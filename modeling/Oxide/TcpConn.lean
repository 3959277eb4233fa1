/-
A TCP connection: its transmission control block and what segments and calls do to it.

* `TcpState`, `TcpEvent`, `transition`: the state diagram;
* `TcpConn`: the control block;
* `TcpConn.inputWithHeader`, `input`: the segment handler, one function per arm;
* `activeOpen`, `send`, `sendUrgent`, `outputLimit`, `localClose`, `shutdownWrite`, `dropClose`,
  `recv`: the calls of the socket layer.

Design notes: a segment is the record its header, options and payload parse to; addresses, ports and
checksums are left out. The clock, the keyed initial sequence number and the congestion window that
follows from an acknowledgement are inputs, gathered in `TcpEnv`. Left out are retransmission and
keepalive timers, SACK marks on the retransmit queue, ECN, fast open, SYN cookies, and the counters
and samples that nothing here reads.
-/
import Oxide.OrdMap
import Oxide.RecvBuf
import Oxide.Serial

namespace Oxide

/-! ### States -/

/-- The states of a connection. -/
inductive TcpState
  | closed
  | listen
  | synSent
  | synRecv
  | established
  | finWait1
  | finWait2
  | closeWait
  | closing
  | lastAck
  | timeWait
  deriving DecidableEq, Repr

/-- What moves the state. -/
inductive TcpEvent
  | passiveOpen
  | activeOpen
  | recvSyn
  | recvSynAck
  | recvAckEstablish
  | localClose
  | recvFin
  | recvFinAck
  | timeWaitExpired
  | reset
  deriving DecidableEq, Repr

/-- The state diagram. -/
def transition : TcpState → TcpEvent → Option TcpState
  | _, .reset => some .closed
  | .closed, .passiveOpen => some .listen
  | .closed, .activeOpen => some .synSent
  | .listen, .recvSyn => some .synRecv
  | .synSent, .recvSynAck => some .established
  | .synSent, .recvSyn => some .synRecv
  | .synRecv, .recvAckEstablish => some .established
  | .synRecv, .recvFin => some .closeWait
  | .established, .localClose => some .finWait1
  | .established, .recvFin => some .closeWait
  | .finWait1, .recvFinAck => some .finWait2
  | .finWait1, .recvFin => some .closing
  | .finWait2, .recvFin => some .timeWait
  | .closeWait, .localClose => some .lastAck
  | .lastAck, .recvFinAck => some .closed
  | .closing, .recvFinAck => some .timeWait
  | .timeWait, .timeWaitExpired => some .closed
  | _, _ => none

/-! ### Segments -/

/-- Sequence numbers. -/
abbrev SeqNo := BitVec 32

namespace TcpFlags

def FIN : BitVec 8 := 0x01
def SYN : BitVec 8 := 0x02
def RST : BitVec 8 := 0x04
def PSH : BitVec 8 := 0x08
def ACK : BitVec 8 := 0x10
def URG : BitVec 8 := 0x20

end TcpFlags

open TcpFlags

/-- One selective acknowledgement, a half-open range. -/
structure SackBlock where
  left : SeqNo
  right : SeqNo
  deriving DecidableEq

/-- A segment, with its options. -/
structure TcpSegment where
  seq : SeqNo
  ack : SeqNo
  flags : BitVec 8
  window : ℕ
  urgPtr : ℕ
  payload : List UInt8
  mss : Option ℕ
  wscale : Option ℕ
  /-- The value of the timestamp option. -/
  ts : Option (BitVec 32)
  sackPermitted : Bool
  sacks : List SackBlock
  deriving DecidableEq

/-- The segment carries one of the flags. -/
def TcpSegment.has (seg : TcpSegment) (f : BitVec 8) : Bool := seg.flags &&& f != 0

/-- One segment on the retransmit queue. -/
structure UnackedSegment where
  seq : SeqNo
  flags : BitVec 8
  payload : List UInt8
  deriving DecidableEq

/-- The sequence numbers a queued segment takes up; SYN and FIN take up one. -/
def UnackedSegment.len (s : UnackedSegment) : ℕ :=
  s.payload.length + if s.flags &&& (SYN ||| FIN) != 0 then 1 else 0

/-- One received segment retained until the gap before it is filled. -/
structure OutOfOrderSegment where
  payload : List UInt8
  urgent : Option (SeqNo × UInt8)
  fin : Bool
  deriving DecidableEq

/-- The numbers it takes up. -/
def OutOfOrderSegment.sequenceLen (s : OutOfOrderSegment) : ℕ :=
  s.payload.length + if s.fin then 1 else 0

/-- What the outside contributes to the handling of a segment. -/
structure TcpEnv where
  /-- The clock of the timestamp option. -/
  now : BitVec 32
  /-- The keyed initial sequence number, and the keyed offset of the clock. -/
  isn : SeqNo
  tsOff : BitVec 32
  /-- The congestion window after an acknowledgement. -/
  cwnd : ℕ

/-! ### The control block -/

def OWN_MSS_DEFAULT : ℕ := 1460
def OWN_WSCALE : ℕ := 7
/-- The bytes retained beyond a gap. -/
def OOO_CAP : ℕ := 64 * 1024

/-- The transmission control block. -/
structure TcpConn where
  state : TcpState
  sndUna : SeqNo
  sndNxt : SeqNo
  rcvNxt : SeqNo
  /-- The sequence number of the next byte a reader sees. -/
  rcvReadSeq : SeqNo
  sendBuf : List UInt8
  recvBuf : RecvBuf
  urgent : Option (SeqNo × UInt8)
  oobConsumed : Option SeqNo
  retxQ : List UnackedSegment
  peerMss : ℕ
  ownMss : ℕ
  sndWscale : ℕ
  rcvWscale : ℕ
  sndWnd : ℕ
  cwnd : ℕ
  /-- The segments beyond a gap, by their raw sequence numbers. -/
  oooBuf : OrdMap ℕ OutOfOrderSegment
  tsEnabled : Bool
  tsRecent : BitVec 32
  tsOff : BitVec 32
  sackOk : Bool
  wscaleOk : Bool
  windowClamp : ℕ
  rcvBufCap : ℕ
  rcvBufMax : ℕ
  rcvBufLocked : Bool
  rcvPeak : ℕ
  rcvSsthresh : ℕ
  quickack : Bool
  repair : Bool
  rcvWup : SeqNo
  ackPending : Bool

/-- The errors of the calls. -/
inductive TcpConnError
  | badState
  | reset
  deriving DecidableEq

namespace TcpConn

/-- The fields on which `new_client` and `new_listener` agree. -/
def fresh (state : TcpState) (isn : SeqNo) : TcpConn where
  state := state
  sndUna := isn
  sndNxt := isn
  rcvNxt := 0
  rcvReadSeq := 0
  sendBuf := []
  recvBuf := .empty
  urgent := none
  oobConsumed := none
  retxQ := []
  peerMss := 0
  ownMss := 0
  sndWscale := 0
  rcvWscale := 0
  sndWnd := 65535
  cwnd := 10 * OWN_MSS_DEFAULT
  oooBuf := .empty
  tsEnabled := false
  tsRecent := 0
  tsOff := 0
  sackOk := false
  wscaleOk := false
  windowClamp := 2 ^ 32 - 1
  rcvBufCap := 65536
  rcvBufMax := 4 * 1024 * 1024
  rcvBufLocked := false
  rcvPeak := 0
  rcvSsthresh := 65536
  quickack := true
  repair := false
  rcvWup := 0
  ackPending := false

/-- A client before it connects. -/
def newClient (isn : SeqNo) : TcpConn := fresh .closed isn

/-- A passive socket. -/
def newListener : TcpConn := fresh .listen 0

/-! ### Windows -/

section

variable (c : TcpConn)

/-- The window to advertise. -/
def currentRcvWindow : ℕ :=
  min (min (min (c.rcvBufCap - c.recvBuf.len) c.windowClamp) c.rcvSsthresh >>> c.sndWscale)
    (2 ^ 16 - 1)

/-- Grow the advertised window when the observed peak exceeds half of the cap. -/
def rcvAutotune : TcpConn :=
  if c.rcvBufLocked then c
  else
    let c := if c.rcvPeak < c.recvBuf.len then { c with rcvPeak := c.recvBuf.len } else c
    if c.rcvBufCap / 2 < c.rcvPeak ∧ c.rcvBufCap < c.rcvBufMax then
      let cap := min (c.rcvBufCap * 2) c.rcvBufMax
      { c with
        rcvBufCap := cap
        rcvSsthresh := min cap c.windowClamp
        rcvPeak := 0 }
    else c

/-- The effective segment size. -/
def ccMss : ℕ :=
  let m := if c.ownMss ≠ 0 then c.ownMss else OWN_MSS_DEFAULT
  if c.peerMss ≠ 0 then min m c.peerMss else m

/-- An acknowledgement is not delayed. -/
def ackNow : Bool :=
  c.quickack || c.repair || decide (c.ccMss < (c.rcvNxt - c.rcvWup).toNat)

/-! ### Segments sent -/

/-- A segment as the connection fills it in. -/
def buildSegmentAt (seq : SeqNo) (flags : BitVec 8) (payload : List UInt8) (urgPtr : ℕ)
    (now : BitVec 32) : TcpSegment where
  seq := seq
  ack := c.rcvNxt
  flags := flags
  window := c.currentRcvWindow
  urgPtr := urgPtr
  payload := payload
  mss := none
  wscale := none
  ts := if c.tsEnabled then some (now + c.tsOff) else none
  sackPermitted := false
  sacks := []

/-- The same at `snd_nxt`. -/
def buildSegment (flags : BitVec 8) (payload : List UInt8) (now : BitVec 32) : TcpSegment :=
  c.buildSegmentAt c.sndNxt flags payload 0 now

/-- A SYN offers every option, a SYN-ACK those the peer offered. -/
def buildSynWithOptsAt (seq : SeqNo) (flags : BitVec 8) (now : BitVec 32) : TcpSegment :=
  let synack := flags &&& ACK != 0
  { c.buildSegmentAt seq flags [] 0 now with
    mss := some (if c.ownMss ≠ 0 then c.ownMss else OWN_MSS_DEFAULT)
    wscale := if !synack || c.wscaleOk then some c.sndWscale else none
    ts := if !synack || c.tsEnabled then some (now + c.tsOff) else none
    sackPermitted := !synack || c.sackOk }

/-- A queued segment, sent again. -/
def buildRetx (s : UnackedSegment) (now : BitVec 32) : TcpSegment :=
  if s.flags &&& SYN != 0 then c.buildSynWithOptsAt s.seq s.flags now
  else c.buildSegmentAt s.seq s.flags s.payload (if s.flags &&& URG != 0 then 1 else 0) now

variable (seg : TcpSegment)

/-- The reset that answers a segment, from that segment alone. -/
def buildRstReply : TcpSegment :=
  let endSeq := seg.seq + BitVec.ofNat 32 seg.payload.length +
    (if seg.has SYN then 1 else 0) + if seg.has FIN then 1 else 0
  { seq := if seg.has ACK then seg.ack else 0
    ack := if seg.has ACK then 0 else endSeq
    flags := if seg.has ACK then RST else RST ||| ACK
    window := 0
    urgPtr := 0
    payload := []
    mss := none
    wscale := none
    ts := none
    sackPermitted := false
    sacks := [] }

/-- The blocks that start at an entry: entries that adjoin are one block. -/
def collapse (left right : SeqNo) : List (ℕ × OutOfOrderSegment) → List SackBlock
  | [] => [⟨left, right⟩]
  | (k, s) :: rest =>
    if BitVec.ofNat 32 k = right then collapse left (right + BitVec.ofNat 32 s.sequenceLen) rest
    else
      ⟨left, right⟩ ::
        collapse (BitVec.ofNat 32 k) (BitVec.ofNat 32 k + BitVec.ofNat 32 s.sequenceLen) rest

/-- What is retained beyond the gap. -/
def sackBlocks : List SackBlock :=
  match c.oooBuf.entries with
  | [] => []
  | (k, s) :: rest =>
    (collapse (BitVec.ofNat 32 k) (BitVec.ofNat 32 k + BitVec.ofNat 32 s.sequenceLen) rest).take 4

def buildAckWithSack (now : BitVec 32) : TcpSegment :=
  { c.buildSegment ACK [] now with sacks := if c.sackOk then c.sackBlocks else [] }

/-! ### Receiving -/

/-- The reset is to be obeyed. -/
def rstAcceptable : Bool :=
  match c.state with
  | .synSent =>
    if !seg.has ACK then false
    else
      let outstanding := (c.sndNxt - c.sndUna).toNat
      let acknowledged := (seg.ack - c.sndUna).toNat
      acknowledged ≠ 0 && acknowledged ≤ outstanding
  | .listen | .closed => false
  | _ =>
    let window := c.currentRcvWindow <<< c.sndWscale % 2 ^ 32
    if window = 0 then seg.seq = c.rcvNxt
    else
      let offset := seg.seq - c.rcvNxt
      offset.toNat < window && !offset.msb

/-- Payload joins the receive stream, without an urgent byte that was consumed ahead of it. -/
def appendRecvPayload (seq : SeqNo) (payload : List UInt8) : TcpConn :=
  let hit := (List.range payload.length).find? fun i =>
    c.oobConsumed = some (seq + BitVec.ofNat 32 i)
  match hit with
  | none => { c with recvBuf := c.recvBuf.pushPayload payload }
  | some i =>
    { c with
      recvBuf := (c.recvBuf.pushPayload (payload.take i)).pushPayload (payload.drop (i + 1))
      oobConsumed := none }

/-- A new urgent byte. -/
def noteUrgent : Option (SeqNo × UInt8) → TcpConn
  | some u => { c with urgent := some u, oobConsumed := none }
  | none => c

/-- A segment that is in order: its payload and its urgent byte. -/
def accept (seq : SeqNo) (payload : List UInt8) (urgent : Option (SeqNo × UInt8)) : TcpConn :=
  let c := (c.appendRecvPayload seq payload).noteUrgent urgent
  { c with rcvNxt := c.rcvNxt + BitVec.ofNat 32 payload.length }

/-- The segments beyond the gap that has been filled, as long as the least raw number is the one
expected; and whether one of them carried a FIN. -/
def drain (c : TcpConn) : List (ℕ × OutOfOrderSegment) → TcpConn × Bool
  | [] => (c, false)
  | (k, s) :: rest =>
    if k ≠ c.rcvNxt.toNat then (c, false)
    else
      let c := { c with oooBuf := c.oooBuf.erase k }.accept c.rcvNxt s.payload s.urgent
      if s.fin then (c, true) else c.drain rest

/-- The bytes retained beyond gaps. -/
def oooUsed : ℕ := (c.oooBuf.values.map fun s => s.payload.length).sum

/-- A segment that comes early is retained: it is ahead, there is room, and none is retained under
its number. -/
def retains : Bool :=
  let diff := seg.seq - c.rcvNxt
  !diff.msb && diff != 0 && decide (c.oooUsed + seg.payload.length ≤ OOO_CAP) &&
    (c.oooBuf.get? seg.seq.toNat).isNone

/-- The urgent byte a segment carries. -/
def urgentByte : Option (SeqNo × UInt8) :=
  if seg.has URG && seg.urgPtr != 0 then
    (seg.payload[seg.urgPtr - 1]?).map fun b => (seg.seq + BitVec.ofNat 32 (seg.urgPtr - 1), b)
  else none

/-- The payload and the FIN of a segment; whether the FIN of the stream has been reached. -/
def receiveData : TcpConn × Bool :=
  let urgent := urgentByte seg
  if seg.payload = [] ∧ !seg.has FIN then (c, false)
  else if seg.seq = c.rcvNxt then
    let c := c.accept seg.seq seg.payload urgent
    let r := if seg.has FIN then (c, true) else c.drain c.oooBuf.entries
    (r.1.rcvAutotune, r.2)
  else if c.retains seg then
    ({ c with oooBuf := c.oooBuf.insert seg.seq.toNat ⟨seg.payload, urgent, seg.has FIN⟩ }, false)
  else (c, false)

/-! ### Acknowledgements -/

/-- `snd_una` moves forwards only. -/
def advanceSndUna (ack : SeqNo) : TcpConn :=
  let delta := ack - c.sndUna
  if delta ≠ 0 ∧ !delta.msb then { c with sndUna := ack } else c

/-- The retransmit queue without what is acknowledged. -/
def trimAcked (ack : SeqNo) : List UnackedSegment → List UnackedSegment
  | [] => []
  | front :: rest =>
    let acked := ack - front.seq
    if acked = 0 ∨ acked.msb then front :: rest
    else if front.len ≤ acked.toNat then trimAcked ack rest
    else
      let payloadAcked := if front.flags &&& SYN != 0 then acked.toNat - 1 else acked.toNat
      { seq := ack
        flags := front.flags &&& ~~~SYN
        payload := front.payload.drop payloadAcked } :: rest

/-- Drop what has been acknowledged. -/
def trimRetxAcked (ack : SeqNo) : TcpConn :=
  { c with retxQ := trimAcked ack c.retxQ }

/-! ### The segment handler -/

variable (env : TcpEnv)

/-- A SYN arrives at a listener. -/
def inputListen : TcpConn × Option TcpSegment :=
  let c := { c with
    rcvNxt := seg.seq + 1
    rcvReadSeq := seg.seq + 1
    sndUna := env.isn
    sndNxt := env.isn
    tsOff := env.tsOff
    peerMss := seg.mss.getD c.peerMss
    wscaleOk := seg.wscale.isSome || c.wscaleOk
    rcvWscale := (seg.wscale.map (min · 14)).getD c.rcvWscale
    sndWscale := if seg.wscale.isSome then OWN_WSCALE else c.sndWscale
    tsEnabled := seg.ts.isSome || c.tsEnabled
    tsRecent := seg.ts.getD c.tsRecent
    sackOk := seg.sackPermitted
    sndWnd := seg.window
    state := .synRecv }
  ({ c with
      sndNxt := c.sndNxt + 1
      retxQ := c.retxQ ++ [⟨c.sndNxt, SYN ||| ACK, []⟩] },
    some (c.buildSynWithOptsAt c.sndNxt (SYN ||| ACK) env.now))

/-- A SYN-ACK answers the active open. -/
def inputSynSent : TcpConn × Option TcpSegment :=
  let c := { c with rcvNxt := seg.seq + 1, rcvReadSeq := seg.seq + 1 }.advanceSndUna seg.ack
  let c := { c with
    peerMss := seg.mss.getD c.peerMss
    wscaleOk := seg.wscale.isSome || c.wscaleOk
    rcvWscale := (seg.wscale.map (min · 14)).getD 0
    sndWscale := if seg.wscale.isSome then c.sndWscale else 0
    sackOk := seg.sackPermitted
    tsEnabled := seg.ts.isSome || c.tsEnabled
    tsRecent := seg.ts.getD c.tsRecent
    sndWnd := seg.window }
  let c := { c.trimRetxAcked seg.ack with state := .established }
  (c, some (c.buildSegment ACK [] env.now))

/-- The window the peer advertises. -/
def updateWindow : TcpConn :=
  { c with sndWnd := seg.window <<< c.rcvWscale % 2 ^ 32 }

/-- `socket_ack_acceptable`. -/
def socketAckAcceptable (ack sndUna sndNxt : SeqNo) : Bool :=
  !Serial.before ack sndUna && !Serial.before sndNxt ack

/-- A segment of a connection that has answered a SYN. -/
def inputSynRecv : TcpConn × Option TcpSegment :=
  if seg.has SYN then (c, c.retxQ.head?.map fun s => c.buildRetx s env.now)
  else if !seg.has ACK then (c, none)
  else if !socketAckAcceptable seg.ack c.sndUna c.sndNxt then (c, some (buildRstReply seg))
  else
    let c := (c.advanceSndUna seg.ack).trimRetxAcked seg.ack
    ({ c.updateWindow seg with state := .established }, none)

/-- A timestamp that is older than the last one drops the segment. -/
def checkTimestamp : Option TcpConn :=
  match c.tsEnabled, seg.ts with
  | true, some tsval =>
    if (tsval - c.tsRecent).msb then none
    else if seg.seq = c.rcvNxt then some { c with tsRecent := tsval }
    else some c
  | _, _ => some c

/-- An acknowledgement of the data transfer phase. -/
def processAck : TcpConn :=
  { (c.advanceSndUna seg.ack).trimRetxAcked seg.ack with cwnd := env.cwnd }

/-- The answer to a segment of the data transfer phase. -/
def respond (receivedFin : Bool) (env : TcpEnv) : TcpConn × Option TcpSegment :=
  if receivedFin then
    let c := { c with
      rcvNxt := c.rcvNxt + 1
      state := (transition c.state .recvFin).getD c.state }
    ({ c with rcvWup := c.rcvNxt, ackPending := false }, some (c.buildSegment ACK [] env.now))
  else if seg.payload ≠ [] then
    if c.ackNow then
      let c := { c with rcvWup := c.rcvNxt, ackPending := false }
      (c, some (c.buildAckWithSack env.now))
    else ({ c with ackPending := true }, none)
  else (c, none)

/-- A segment of the data transfer phase whose timestamp is good. -/
def inputTimely : TcpConn × Option TcpSegment :=
  -- an old duplicate is answered
  if seg.payload = [] ∧ (seg.seq - c.rcvNxt).msb then (c, some (c.buildAckWithSack env.now))
  else
    let r := c.receiveData seg
    (if seg.has ACK then r.1.processAck seg env else r.1).respond seg r.2 env

/-- A segment of the data transfer phase. -/
def inputData : TcpConn × Option TcpSegment :=
  match c.checkTimestamp seg with
  | none => (c, none)
  | some c => (c.updateWindow seg).inputTimely seg env

/-- `input_with_header`. -/
def inputWithHeader : TcpConn × Except TcpConnError (Option TcpSegment) :=
  if seg.has RST then
    if c.rstAcceptable seg then ({ c with state := .closed }, .error .reset) else (c, .ok none)
  else match c.state with
    | .listen =>
      if seg.has SYN then (c.inputListen seg env).map id .ok else (c, .ok none)
    | .synSent =>
      if seg.flags &&& (SYN ||| ACK) = SYN ||| ACK then (c.inputSynSent seg env).map id .ok
      else (c, .ok none)
    | .synRecv => (c.inputSynRecv seg env).map id .ok
    | .established | .finWait1 | .finWait2 => (c.inputData seg env).map id .ok
    -- any acknowledgement ends the connection here
    | .lastAck => if seg.has ACK then ({ c with state := .closed }, .ok none) else (c, .ok none)
    | .closed | .closeWait | .closing | .timeWait => (c, .ok none)

/-- `input`: the segment that completes a handshake is applied twice if it carries something. -/
def input : TcpConn × Except TcpConnError (Option TcpSegment) :=
  let r := c.inputWithHeader seg env
  match r.2 with
  | .error e => (r.1, .error e)
  | .ok resp =>
    if c.state = .synRecv ∧ r.1.state = .established ∧ (seg.payload ≠ [] ∨ seg.has FIN) then
      r.1.inputWithHeader seg env
    else (r.1, .ok resp)

/-! ### Calls -/

/-- Connect: send a SYN. -/
def activeOpen (now : BitVec 32) : Except TcpConnError (TcpConn × TcpSegment) :=
  match transition c.state .activeOpen with
  | none => .error .badState
  | some state =>
    let c := { c with sndWscale := OWN_WSCALE }
    .ok ({ c with
        sndNxt := c.sndNxt + 1
        state := state
        retxQ := c.retxQ ++ [⟨c.sndNxt, SYN, []⟩] },
      c.buildSynWithOptsAt c.sndNxt SYN now)

/-- Buffer bytes to send. -/
def send (data : List UInt8) : TcpConn := { c with sendBuf := c.sendBuf ++ data }

/-- Queue what is sent at `snd_nxt`. -/
def emit (flags : BitVec 8) (payload : List UInt8) : TcpConn :=
  { c with
    sndNxt := c.sndNxt + BitVec.ofNat 32 payload.length
    retxQ := c.retxQ ++ [⟨c.sndNxt, flags, payload⟩] }

/-- Send one urgent byte at once. -/
def sendUrgent (byte : UInt8) (now : BitVec 32) : TcpConn × TcpSegment :=
  (c.emit (PSH ||| ACK ||| URG) [byte],
    c.buildSegmentAt c.sndNxt (PSH ||| ACK ||| URG) [byte] 1 now)

/-- The segment size `output` works with. -/
def outputMss (mtu : ℕ) : ℕ :=
  let configured := if c.ownMss ≠ 0 then c.ownMss else OWN_MSS_DEFAULT
  let localMss := min (mtu - 40) configured
  if c.peerMss ≠ 0 then min localMss c.peerMss else localMss

/-- Bytes sent and not acknowledged. -/
def inFlight : ℕ := (c.retxQ.map fun s => s.payload.length).sum % 2 ^ 32

end

/-- The loop of `output_limit`: `avail` bytes of window and `limit` segments are left. -/
def outputLoop (mss : ℕ) (cork : Bool) (now : BitVec 32) :
    ℕ → TcpConn → ℕ → ℕ → TcpConn × List TcpSegment
  | 0, c, _, _ => (c, [])
  | fuel + 1, c, avail, limit =>
    let take := min (min mss avail) c.sendBuf.length
    if c.sendBuf = [] ∨ avail = 0 ∨ limit = 0 ∨ (cork ∧ take < mss) ∨ take = 0 then (c, [])
    else
      let chunk := c.sendBuf.take take
      let c := { c with sendBuf := c.sendBuf.drop take }
      let r := outputLoop mss cork now fuel (c.emit (PSH ||| ACK) chunk) (avail - take) (limit - 1)
      (r.1, c.buildSegment (PSH ||| ACK) chunk now :: r.2)

variable (c : TcpConn)

/-- Send what the windows allow. -/
def outputLimit (mtu : ℕ) (nodelay cork : Bool) (limit : ℕ) (now : BitVec 32) :
    TcpConn × List TcpSegment :=
  let mss := c.outputMss mtu
  if c.state ≠ .established ∧ c.state ≠ .closeWait then (c, [])
  else if !nodelay ∧ c.retxQ ≠ [] ∧ c.sendBuf.length < mss then (c, [])
  else if cork ∧ c.sendBuf.length < mss then (c, [])
  else outputLoop mss cork now c.sendBuf.length c (min c.sndWnd c.cwnd - c.inFlight) limit

/-- `local_close`: the FIN takes up a sequence number and does not join the retransmit queue. -/
def localClose (now : BitVec 32) : Except TcpConnError (TcpConn × TcpSegment) :=
  match c.state with
  | .established | .closeWait =>
    match transition c.state .localClose with
    | none => .error .badState
    | some state =>
      .ok ({ c with sndNxt := c.sndNxt + 1, state := state }, c.buildSegment (FIN ||| ACK) [] now)
  | _ => .error .badState

/-- No more is sent: a FIN, if open. -/
def shutdownWrite (now : BitVec 32) : Except TcpConnError (TcpConn × Option TcpSegment) :=
  match c.state with
  | .synSent => .ok ({ c with state := .closed, sendBuf := [], retxQ := [] }, none)
  | .established | .closeWait => (c.localClose now).map fun r => (r.1, some r.2)
  | _ => .ok (c, none)

/-- Close with the last reference. -/
def dropClose (now : BitVec 32) : TcpConn × Option TcpSegment :=
  match c.state with
  | .synSent | .synRecv => ({ c with state := .closed }, some (c.buildSegment RST [] now))
  | .established | .closeWait =>
    match c.localClose now with
    | .ok r => (r.1, some r.2)
    | .error _ => (c, none)
  | _ => (c, none)

/-- `recv`: the bytes read, and the connection without them. -/
def recv (max : ℕ) : TcpConn × List UInt8 :=
  let take := min max c.recvBuf.len
  let out := c.recvBuf.bytes 0 take
  ({ c with
      recvBuf := c.recvBuf.consume out.length
      rcvReadSeq := c.rcvReadSeq + BitVec.ofNat 32 take }, out)

/-! ### What the parts of the segment handler leave -/

theorem rcvAutotune_eq : ∃ cap ssthresh peak, c.rcvAutotune =
    { c with rcvBufCap := cap, rcvSsthresh := ssthresh, rcvPeak := peak } := by
  unfold rcvAutotune
  dsimp only
  split_ifs <;> exact ⟨_, _, _, rfl⟩

theorem respond_false_eq (seg : TcpSegment) (env : TcpEnv) : ∃ wup pending,
    (c.respond seg false env).1 = { c with rcvWup := wup, ackPending := pending } := by
  rw [respond, if_neg Bool.false_ne_true]
  split_ifs <;> exact ⟨_, _, rfl⟩

variable {c} {c' : TcpConn} {seg : TcpSegment}

/-- Only the end of a handshake has the segment handled twice. -/
theorem input_of_ne_synRecv (h : c.state ≠ .synRecv) (env : TcpEnv) :
    c.input seg env = c.inputWithHeader seg env := by
  unfold input
  dsimp only
  split
  case h_1 e he => rw [← he]
  case h_2 resp he => rw [if_neg fun hh => h hh.1, ← he]

theorem inputWithHeader_established (h : c.state = .established) (hrst : seg.has RST = false)
    (env : TcpEnv) : c.inputWithHeader seg env = (c.inputData seg env).map id .ok := by
  rw [inputWithHeader, hrst, if_neg Bool.false_ne_true, h]

theorem checkTimestamp_eq (h : c.checkTimestamp seg = some c') :
    ∃ ts, c' = { c with tsRecent := ts } := by
  unfold checkTimestamp at h
  split at h
  · split_ifs at h
    · exact ⟨_, (Option.some.inj h).symm⟩
    · exact ⟨_, (Option.some.inj h).symm⟩
  · exact ⟨_, (Option.some.inj h).symm⟩

end TcpConn

end Oxide
