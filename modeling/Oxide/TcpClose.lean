/-
Closing a TCP connection from both sides.

Two endpoints are joined by channels that lose nothing and keep the order. Each side sends, offers
its output, and closes.

* `TcpPair`, `TcpPair.step`: the two endpoints, the channels, and what an event does to them;
* `TcpPair.Ended`: when everything is at rest after both closes, both connections are over and all
  data has arrived;
* `TcpPair.LeavesOnAck`: the states that wait for the FIN to be acknowledged are left when it is;
* `TcpPair.Closing`: the invariant: how far each side is, by who has closed;
* `TcpPair.closeProtocol_of_oneCloser`: **the first fails in every run that comes to rest after
  both sides have closed**: the side that closes first is in `FinWait1` or `Closing` for good.
  While only one side closes, the second holds.
-/
import Oxide.TcpReassembly
import Oxide.TcpSendSequence

namespace Oxide

open TcpFlags Function TcpConn

/-! ### Two endpoints -/

inductive TcpSide
  | a
  | b
  deriving DecidableEq, Repr

def TcpSide.other : TcpSide → TcpSide
  | .a => .b
  | .b => .a

@[simp] theorem TcpSide.other_other (s : TcpSide) : s.other.other = s := by
  cases s <;> rfl

@[simp] theorem TcpSide.other_ne (s : TcpSide) : s.other ≠ s := by
  cases s <;> rintro ⟨⟩

theorem TcpSide.eq_or_other (s x : TcpSide) : x = s ∨ x = s.other := by
  cases s <;> cases x <;> first | exact .inl rfl | exact .inr rfl

/-- Two endpoints and their channels. -/
structure TcpPair where
  conn : TcpSide → TcpConn
  /-- What is under way to a side, the oldest first. -/
  toward : TcpSide → List TcpSegment
  /-- The bytes a side has accepted from its user before it closed. -/
  accepted : TcpSide → List UInt8
  closed : TcpSide → Bool
  /-- A side has offered its output after it closed. -/
  offered : TcpSide → Bool

/-- The segment that answers another. -/
def answer : Except TcpConnError (Option TcpSegment) → List TcpSegment
  | .ok (some seg) => [seg]
  | _ => []

namespace TcpPair

def join (a b : TcpConn) : TcpPair where
  conn
    | .a => a
    | .b => b
  toward _ := []
  accepted _ := []
  closed _ := false
  offered _ := false

/-- What happens to them. -/
inductive Event
  | deliver (s : TcpSide) (env : TcpEnv)
  | send (s : TcpSide) (data : List UInt8)
  | output (s : TcpSide) (mtu : ℕ) (nodelay cork : Bool) (limit : ℕ) (now : BitVec 32)
  | close (s : TcpSide) (now : BitVec 32)

variable (w : TcpPair)

/-- A side has a new control block and has sent segments. -/
def put (s : TcpSide) (c : TcpConn) (sent : List TcpSegment) : TcpPair :=
  { w with
    conn := update w.conn s c
    toward := update w.toward s.other (w.toward s.other ++ sent) }

def step : Event → TcpPair
  | .deliver s env =>
    match w.toward s with
    | [] => w
    | seg :: rest =>
      let r := (w.conn s).input seg env
      { w with toward := update w.toward s rest }.put s r.1 (answer r.2)
  | .send s data =>
    { w.put s ((w.conn s).send data) [] with
      accepted :=
        if w.closed s then w.accepted else update w.accepted s (w.accepted s ++ data) }
  | .output s mtu nodelay cork limit now =>
    let r := (w.conn s).outputLimit mtu nodelay cork limit now
    { w.put s r.1 r.2 with offered := update w.offered s (w.closed s) }
  | .close s now =>
    match (w.conn s).localClose now with
    | .error _ => w
    | .ok r =>
      { w.put s r.1 [r.2] with
        closed := update w.closed s true
        offered := update w.offered s false }

/-- Nothing is under way, and both sides have closed and have offered what was left. -/
def AtRest : Prop :=
  ∀ s, w.toward s = [] ∧ w.closed s = true ∧ w.offered s = true

/-- **At rest both connections are over and what was accepted has arrived.** -/
def Ended : Prop :=
  w.AtRest → ∀ s, ((w.conn s).state = .timeWait ∨ (w.conn s).state = .closed) ∧
    w.accepted s <:+ (w.conn s.other).recvBuf.contents

/-- **A state that waits for its FIN to be acknowledged is left on that acknowledgement only.** -/
def LeavesOnAck (e : Event) : Prop :=
  ∀ s, ((w.conn s).state = .lastAck ∨ (w.conn s).state = .closing ∨ (w.conn s).state = .finWait1) →
    ((w.step e).conn s).state ≠ (w.conn s).state →
    ∃ env seg, e = .deliver s env ∧ (w.toward s).head? = some seg ∧ seg.has ACK = true ∧
      seg.ack = (w.conn s).sndNxt

/-- A side closes only if the other has not. -/
def OneCloser : Event → Prop
  | .close s _ => w.closed s.other = false
  | _ => True

end TcpPair

/-! ### What reaches an endpoint -/

namespace TcpConn

variable {c c' : TcpConn} {seg : TcpSegment} {env : TcpEnv}

/-- No FIN waits beyond a gap. -/
def NoFinHeld (c : TcpConn) : Prop := ∀ k t, c.oooBuf.get? k = some t → t.fin = false

theorem oooBuf_accept (c : TcpConn) (seq : SeqNo) (payload : List UInt8)
    (urgent : Option (SeqNo × UInt8)) : (c.accept seq payload urgent).oooBuf = c.oooBuf := by
  unfold accept noteUrgent appendRecvPayload
  dsimp only
  split <;> split <;> rfl

/-- Without a FIN beyond the gap none is reached, and none is there afterwards. -/
theorem drain_noFin (c : TcpConn) (l : List (ℕ × OutOfOrderSegment)) (h : c.NoFinHeld)
    (hl : ∀ p ∈ l, p.2.fin = false) : (c.drain l).2 = false ∧ (c.drain l).1.NoFinHeld := by
  induction l generalizing c with
  | nil => exact ⟨rfl, h⟩
  | cons p l ih =>
  obtain ⟨k, t⟩ := p
  have ht : t.fin = false := hl _ (List.mem_cons_self ..)
  unfold drain
  split
  · exact ⟨rfl, h⟩
  rw [ht]
  refine ih _ ?_ fun p hp => hl p (List.mem_cons_of_mem _ hp)
  intro k' t' hget
  rw [oooBuf_accept] at hget
  exact h k' t' (OrdMap.of_get?_erase hget).2

theorem receiveData_noFin (h : c.NoFinHeld) (hseg : seg.has FIN = false) :
    (c.receiveData seg).2 = false ∧ (c.receiveData seg).1.NoFinHeld := by
  unfold receiveData
  split
  · exact ⟨rfl, h⟩
  split
  · rw [hseg]
    have hacc : (c.accept seg.seq seg.payload (urgentByte seg)).NoFinHeld := by
      intro k t hget
      rw [oooBuf_accept] at hget
      exact h k t hget
    obtain ⟨hfin, hheld⟩ := drain_noFin _ _ hacc
      fun p hp => hacc p.1 p.2 (OrdMap.get?_eq_some_iff_mem.mpr hp)
    refine ⟨hfin, ?_⟩
    intro k t hget
    rw [(sameReceive_rcvAutotune _).oooBuf] at hget
    exact hheld k t hget
  split
  · refine ⟨rfl, ?_⟩
    intro k t hget
    rcases OrdMap.of_get?_insert hget with ⟨-, rfl⟩ | ⟨-, hget⟩
    · exact hseg
    · exact h k t hget
  · exact ⟨rfl, h⟩

/-- A segment of the data transfer phase: the state stays or sees a FIN, and an answer is a bare
acknowledgement. -/
structure Handled (c : TcpConn) (seg : TcpSegment) (r : TcpConn × Option TcpSegment) : Prop where
  state : r.1.state = c.state ∨ r.1.state = (transition c.state .recvFin).getD c.state
  noFin : seg.has FIN = false → c.NoFinHeld → r.1.state = c.state ∧ r.1.NoFinHeld
  answers : ∀ seg' ∈ r.2, seg'.flags = ACK

theorem respond_answers (c : TcpConn) (fin : Bool) :
    ∀ seg' ∈ (c.respond seg fin env).2, seg'.flags = ACK := by
  unfold respond
  intro seg' h
  split at h
  · cases h
    rfl
  split at h
  · split at h
    · cases h
      rfl
    · cases h
  · cases h

theorem inputTimely_handled (c : TcpConn) (seg : TcpSegment) (env : TcpEnv) :
    Handled c seg (c.inputTimely seg env) := by
  unfold inputTimely
  split
  · refine ⟨.inl rfl, fun _ hheld => ⟨rfl, hheld⟩, ?_⟩
    rintro seg' ⟨⟩
    rfl
  dsimp only
  have hack := sameReceive_acked (c.receiveData seg).1 seg env
  have hstate := hack.state.trans (untouched_receiveData c seg).state
  refine ⟨?_, ?_, respond_answers _ _⟩
  · cases hfin : (c.receiveData seg).2 with
    | false => exact .inl ((sameReceive_respond _ seg env).state.trans hstate)
    | true =>
    right
    rw [← hstate]
    rfl
  intro hseg hheld
  obtain ⟨hfin, hheld'⟩ := receiveData_noFin hheld hseg
  rw [hfin]
  have hresp := sameReceive_respond (if seg.has ACK then (c.receiveData seg).1.processAck seg env
      else (c.receiveData seg).1) seg env
  refine ⟨hresp.state.trans hstate, ?_⟩
  intro k t hget
  rw [hresp.oooBuf, hack.oooBuf] at hget
  exact hheld' k t hget

theorem inputData_handled (c : TcpConn) (seg : TcpSegment) (env : TcpEnv) :
    Handled c seg (c.inputData seg env) := by
  unfold inputData
  split
  · refine ⟨.inl rfl, fun _ hheld => ⟨rfl, hheld⟩, ?_⟩
    rintro seg' ⟨⟩
  rename_i c0 htime
  have hsame := sameReceive_checkTimestamp htime
  obtain ⟨hstate, hnoFin, hanswers⟩ := inputTimely_handled (c0.updateWindow seg) seg env
  have hs : (c0.updateWindow seg).state = c.state := hsame.state
  rw [hs] at hstate hnoFin
  refine ⟨hstate, fun hseg hheld => hnoFin hseg ?_, hanswers⟩
  intro k t hget
  exact hheld k t (hsame.oooBuf ▸ hget)

end TcpConn

/-! ### How far each side is -/

/-- The states of a side, by whether it has closed and whether the other has. -/
def TcpState.Reached (closed otherClosed : Bool) (st : TcpState) : Prop :=
  match closed, otherClosed with
  | false, false => st = .established
  | false, true => st = .established ∨ st = .closeWait
  | true, false => st = .finWait1
  | true, true => st = .finWait1 ∨ st = .closing ∨ st = .lastAck ∨ st = .closed

/-- The states in which the handler never sees the FIN acknowledged. -/
def TcpState.Stuck (st : TcpState) : Prop := st = .finWait1 ∨ st = .closing

theorem TcpState.Reached.otherCloses {closed : Bool} {st : TcpState}
    (h : st.Reached closed false) : st.Reached closed true := by
  cases closed with
  | false => exact .inl h
  | true => exact .inl h

variable {now : BitVec 32} {r : TcpConn × TcpSegment}

namespace TcpConn

variable {c : TcpConn} {seg : TcpSegment} {env : TcpEnv} {mine theirs : Bool}

/-- What a segment without RST makes of a side. -/
structure Delivered (c : TcpConn) (mine theirs : Bool)
    (r : TcpConn × Except TcpConnError (Option TcpSegment)) : Prop where
  reached : r.1.state.Reached mine theirs
  stuck : c.state.Stuck → r.1.state.Stuck
  held : theirs = false → r.1.NoFinHeld
  answers : ∀ seg' ∈ answer r.2, seg'.flags = ACK

/-- The data transfer phase goes on, or ends with a FIN from the other side. -/
theorem Handled.delivered {r : TcpConn × Option TcpSegment} (h : Handled c seg r)
    (hstate : c.state = .established ∨ c.state = .finWait1) (hreached : c.state.Reached mine theirs)
    (hfin : theirs = false → seg.has FIN = false ∧ c.NoFinHeld) :
    Delivered c mine theirs (r.map id .ok) := by
  have hstuck : c.state.Stuck → r.1.state.Stuck := by
    rintro (hs | hs)
    · rcases h.state with hr | hr
      · exact .inl (hr.trans hs)
      · rw [hs] at hr
        exact .inr hr
    · rcases hstate with he | he <;> cases hs.symm.trans he
  refine ⟨?_, hstuck, fun ht => (h.noFin (hfin ht).1 (hfin ht).2).2, ?_⟩
  · cases theirs with
    | false =>
      obtain ⟨hseg, hheld⟩ := hfin rfl
      show r.1.state.Reached mine false
      rwa [(h.noFin hseg hheld).1]
    | true =>
    show r.1.state.Reached mine true
    rcases h.state with hr | hr
    · rwa [hr]
    rcases hstate with he | he
    · rw [he] at hr hreached
      cases mine with
      | false => exact .inr hr
      | true => rcases hreached with h | h | h | h <;> cases h
    rw [he] at hr hreached
    cases mine with
    | false => rcases hreached with h | h <;> cases h
    | true => exact .inr (.inl hr)
  intro seg' hmem
  obtain ⟨c', resp⟩ := r
  cases resp with
  | none => cases hmem
  | some seg1 =>
    rw [List.mem_singleton.mp hmem]
    exact h.answers seg1 rfl

theorem input_delivered (env : TcpEnv) (hrst : seg.has RST = false)
    (hreached : c.state.Reached mine theirs)
    (hfin : theirs = false → seg.has FIN = false ∧ c.NoFinHeld) :
    Delivered c mine theirs (c.input seg env) := by
  -- no handshake is completed here, so that the segment is handled once
  have honce : c.state ≠ .synRecv := by
    intro hs
    rw [hs] at hreached
    cases mine <;> cases theirs <;> simp [TcpState.Reached] at hreached
  rw [input_of_ne_synRecv honce]
  rw [inputWithHeader, hrst, if_neg Bool.false_ne_true]
  have hignored : ∀ r, r.1 = c → answer r.2 = [] → Delivered c mine theirs r := by
    intro r hr hans
    refine ⟨hr ▸ hreached, fun hs => hr ▸ hs, fun ht => hr ▸ (hfin ht).2, ?_⟩
    rw [hans]
    rintro _ ⟨⟩
  cases hstate : c.state with
  | listen | synSent | synRecv | finWait2 | timeWait =>
    rw [hstate] at hreached
    cases mine <;> cases theirs <;> simp [TcpState.Reached] at hreached
  | established => exact (inputData_handled c seg env).delivered (.inl hstate) hreached hfin
  | finWait1 => exact (inputData_handled c seg env).delivered (.inr hstate) hreached hfin
  | closeWait | closing | closed => exact hignored _ rfl rfl
  | lastAck =>
  dsimp only
  split
  · rw [hstate] at hreached
    refine ⟨?_, ?_, ?_, ?_⟩
    · -- both sides have closed
      cases mine <;> cases theirs <;> simp [TcpState.Reached] at hreached ⊢
    · rw [hstate]
      rintro (hs | hs) <;> cases hs
    · intro ht
      exact (hfin ht).2
    · rintro _ ⟨⟩
  · exact hignored _ rfl rfl

/-- Output sends data, and changes neither the state nor what is retained. -/
theorem outputLoop_sends (mss : ℕ) (cork : Bool) (now : BitVec 32) (fuel : ℕ) (c : TcpConn)
    (avail limit : ℕ) :
    (outputLoop mss cork now fuel c avail limit).1.state = c.state ∧
      (outputLoop mss cork now fuel c avail limit).1.oooBuf = c.oooBuf ∧
      ∀ seg ∈ (outputLoop mss cork now fuel c avail limit).2, seg.flags = PSH ||| ACK := by
  induction fuel generalizing c avail limit with
  | zero => exact ⟨rfl, rfl, by simp [outputLoop]⟩
  | succ fuel ih =>
  unfold outputLoop
  dsimp only
  split
  · exact ⟨rfl, rfl, by simp⟩
  obtain ⟨hstate, hooo, hsent⟩ := ih ..
  refine ⟨hstate, hooo, ?_⟩
  intro seg hmem
  rcases List.mem_cons.mp hmem with rfl | hmem
  · rfl
  · exact hsent seg hmem

theorem outputLimit_sends (c : TcpConn) (mtu : ℕ) (nodelay cork : Bool) (limit : ℕ)
    (now : BitVec 32) :
    (c.outputLimit mtu nodelay cork limit now).1.state = c.state ∧
      (c.outputLimit mtu nodelay cork limit now).1.oooBuf = c.oooBuf ∧
      ∀ seg ∈ (c.outputLimit mtu nodelay cork limit now).2, seg.flags = PSH ||| ACK := by
  have hidle : ∀ seg ∈ (c, ([] : List TcpSegment)).2, seg.flags = PSH ||| ACK :=
    nofun
  unfold outputLimit
  dsimp only
  split
  · exact ⟨rfl, rfl, hidle⟩
  split
  · exact ⟨rfl, rfl, hidle⟩
  · split
    · exact ⟨rfl, rfl, hidle⟩
    · exact outputLoop_sends ..

theorem localClose_ok (h : c.localClose now = .ok r) :
    (c.state = .established ∧ r.1.state = .finWait1 ∨ c.state = .closeWait ∧ r.1.state = .lastAck) ∧
    r.1.oooBuf = c.oooBuf ∧ r.2.flags = FIN ||| ACK := by
  unfold localClose at h
  cases hstate : c.state with
  | established =>
    rw [hstate] at h
    cases h
    exact ⟨.inl ⟨rfl, rfl⟩, rfl, rfl⟩
  | closeWait =>
    rw [hstate] at h
    cases h
    exact ⟨.inr ⟨rfl, rfl⟩, rfl, rfl⟩
  | closed | listen | synSent | synRecv | finWait1 | finWait2 | closing | lastAck | timeWait =>
    simp [hstate] at h

end TcpConn

namespace TcpPair

variable {w w' : TcpPair} {s : TcpSide} {c : TcpConn} {sent : List TcpSegment}

/-- **How far both sides are.** -/
structure Closing (w : TcpPair) : Prop where
  noRst : ∀ s, ∀ seg ∈ w.toward s, seg.has RST = false
  noFin : ∀ s, w.closed s.other = false →
    (∀ seg ∈ w.toward s, seg.has FIN = false) ∧ (w.conn s).NoFinHeld
  reached : ∀ s, (w.conn s).state.Reached (w.closed s) (w.closed s.other)
  -- whoever closed first has not come further than `Closing`
  stuck : ∀ s, w.closed s = true → (w.conn s).state.Stuck ∨
    w.closed s.other = true ∧ (w.conn s.other).state.Stuck

theorem join_closing {a b : TcpConn} (ha : a.state = .established) (hb : b.state = .established)
    (hao : a.oooBuf = .empty) (hbo : b.oooBuf = .empty) : (join a b).Closing where
  noRst _ _ hmem := by cases hmem
  noFin s _ := by
    refine ⟨nofun, ?_⟩
    intro k t hget
    cases s with
    | a =>
      rw [show (join a b).conn .a = a from rfl, hao] at hget
      cases hget
    | b =>
      rw [show (join a b).conn .b = b from rfl, hbo] at hget
      cases hget
  reached s := by
    cases s with
    | a => exact ha
    | b => exact hb
  stuck _ h := by cases h

/-- One side has a new control block and has sent something. -/
structure Moved (w w' : TcpPair) (s : TcpSide) (c : TcpConn) (sent : List TcpSegment) : Prop where
  self : w'.conn s = c
  other : w'.conn s.other = w.conn s.other
  inbox : ∀ seg ∈ w'.toward s, seg ∈ w.toward s
  outbox : w'.toward s.other = w.toward s.other ++ sent
  closedOther : w'.closed s.other = w.closed s.other
  closed : w.closed s = true → w'.closed s = true

theorem moved_put (w : TcpPair) (s : TcpSide) (c : TcpConn) (sent : List TcpSegment) :
    Moved w (w.put s c sent) s c sent where
  self := update_self ..
  other := update_of_ne s.other_ne ..
  inbox seg hmem := by
    rwa [show (w.put s c sent).toward s = w.toward s from update_of_ne s.other_ne.symm ..] at hmem
  outbox := update_self ..
  closedOther := rfl
  closed := id

section

variable (h : w.Closing)
include h

/-- A move of one side keeps the invariant, if the side is as far as it may be. -/
theorem Closing.move (hm : Moved w w' s c sent)
    (hreached : c.state.Reached (w'.closed s) (w.closed s.other))
    (hheld : w.closed s.other = false → c.NoFinHeld)
    (hsent : ∀ seg ∈ sent, seg.has RST = false ∧ (w'.closed s = false → seg.has FIN = false))
    (hstuck : w'.closed s = true → c.state.Stuck ∨
      w.closed s.other = true ∧ (w.conn s.other).state.Stuck)
    (hstay : w.closed s = true → (w.conn s).state.Stuck → c.state.Stuck) : w'.Closing where
  noRst x seg hmem := by
    rcases s.eq_or_other x with rfl | rfl
    · exact h.noRst _ seg (hm.inbox seg hmem)
    rw [hm.outbox] at hmem
    rcases List.mem_append.mp hmem with hold | hnew
    · exact h.noRst _ seg hold
    · exact (hsent seg hnew).1
  noFin x hx := by
    rcases s.eq_or_other x with rfl | rfl
    · rw [hm.closedOther] at hx
      rw [hm.self]
      exact ⟨fun seg hmem => (h.noFin _ hx).1 seg (hm.inbox seg hmem), hheld hx⟩
    rw [TcpSide.other_other] at hx
    have hopen : w.closed s = false := by
      cases hc : w.closed s with
      | false => rfl
      | true => exact absurd (hm.closed hc) (Bool.eq_false_iff.mp hx)
    obtain ⟨hin, hno⟩ := h.noFin s.other (by rwa [TcpSide.other_other])
    refine ⟨?_, hm.other ▸ hno⟩
    intro seg hmem
    rw [hm.outbox] at hmem
    rcases List.mem_append.mp hmem with hold | hnew
    · exact hin seg hold
    · exact (hsent seg hnew).2 hx
  reached x := by
    rcases s.eq_or_other x with rfl | rfl
    · rwa [hm.closedOther, hm.self]
    have hold := h.reached s.other
    rw [TcpSide.other_other] at hold ⊢
    rw [hm.other, hm.closedOther]
    -- the other side sees at most that this one has closed
    cases hc : w'.closed s with
    | true =>
      cases hc0 : w.closed s with
      | true => rwa [hc0] at hold
      | false =>
        rw [hc0] at hold
        exact hold.otherCloses
    | false =>
    cases hc0 : w.closed s with
    | true => exact absurd (hm.closed hc0) (Bool.eq_false_iff.mp hc)
    | false => rwa [hc0] at hold
  stuck x hx := by
    rcases s.eq_or_other x with rfl | rfl
    · rw [hm.closedOther, hm.other, hm.self]
      exact hstuck hx
    rw [TcpSide.other_other, hm.other, hm.self]
    rw [hm.closedOther] at hx
    rcases h.stuck s.other hx with hs | ⟨hc, hs⟩
    · exact .inl hs
    · rw [TcpSide.other_other] at hc hs
      exact .inr ⟨hm.closed hc, hstay hc hs⟩

/-- A move that leaves the state and what is retained, and sends no FIN. -/
theorem Closing.quiet (hm : Moved w w' s c sent) (hclosed : w'.closed s = w.closed s)
    (hstate : c.state = (w.conn s).state) (hooo : c.oooBuf = (w.conn s).oooBuf)
    (hsent : ∀ seg ∈ sent, seg.has RST = false ∧ seg.has FIN = false) : w'.Closing := by
  refine h.move hm ?_ ?_ (fun seg hmem => ⟨(hsent seg hmem).1, fun _ => (hsent seg hmem).2⟩) ?_ ?_
  · rw [hstate, hclosed]
    exact h.reached s
  · intro ht k t hget
    exact (h.noFin s ht).2 k t (hooo ▸ hget)
  · intro hc
    rw [hstate]
    exact h.stuck s (hclosed ▸ hc)
  · intro _ hs
    rwa [hstate]

theorem Closing.deliver (env : TcpEnv) {seg : TcpSegment} {rest : List TcpSegment}
    (hqueue : w.toward s = seg :: rest) :
    ({ w with toward := update w.toward s rest }.put s
      ((w.conn s).input seg env).1 (answer ((w.conn s).input seg env).2)).Closing := by
  have hmem : seg ∈ w.toward s := by
    rw [hqueue]
    exact List.mem_cons_self ..
  have hd := input_delivered env (h.noRst s seg hmem) (h.reached s)
    fun ht => ⟨(h.noFin s ht).1 seg hmem, (h.noFin s ht).2⟩
  have hput := moved_put { w with toward := update w.toward s rest } s
    ((w.conn s).input seg env).1 (answer ((w.conn s).input seg env).2)
  -- the segment has left the channel
  have hinbox : ∀ seg' ∈ update w.toward s rest s, seg' ∈ w.toward s := by
    intro seg' hmem'
    rw [update_self] at hmem'
    rw [hqueue]
    exact List.mem_cons_of_mem _ hmem'
  have houtbox : update w.toward s rest s.other = w.toward s.other :=
    update_of_ne s.other_ne ..
  refine h.move ⟨hput.self, hput.other, fun seg' hmem' => hinbox seg' (hput.inbox seg' hmem'),
    hput.outbox.trans (congrArg (· ++ _) houtbox), rfl, id⟩ hd.reached hd.held ?_ ?_ ?_
  · intro seg' hmem'
    have hflags := hd.answers seg' hmem'
    unfold TcpSegment.has
    rw [hflags]
    exact ⟨rfl, fun _ => rfl⟩
  · exact fun hc => (h.stuck s hc).imp hd.stuck id
  · exact fun _ => hd.stuck

theorem Closing.not_closed
    (hstate : (w.conn s).state = .established ∨ (w.conn s).state = .closeWait) :
    w.closed s = false := by
  have hreached := h.reached s
  cases hc : w.closed s with
  | false => rfl
  | true =>
  rw [hc] at hreached
  cases ho : w.closed s.other <;> rw [ho] at hreached <;>
    rcases hstate with he | he <;> rw [he] at hreached <;>
    simp [TcpState.Reached] at hreached

theorem Closing.close (hr : (w.conn s).localClose now = .ok r) (hw' : Moved w w' s r.1 [r.2])
    (hnow : w'.closed s = true) : w'.Closing := by
  obtain ⟨hmove, hooo, hflags⟩ := localClose_ok hr
  have hopen : w.closed s = false := h.not_closed (hmove.imp And.left And.left)
  have hfirst : w.closed s.other = false → r.1.state = .finWait1 := by
    intro ho
    have hest := h.reached s
    rw [hopen, ho] at hest
    rcases hmove with ⟨-, hs⟩ | ⟨he, -⟩
    · exact hs
    · cases he.symm.trans hest
  refine h.move hw' ?_ ?_ ?_ ?_ ?_
  · rw [hnow]
    cases ho : w.closed s.other with
    | false => exact hfirst ho
    | true => exact hmove.elim (fun hs => .inl hs.2) fun hs => .inr (.inr (.inl hs.2))
  · intro ht k t hget
    rw [hooo] at hget
    exact (h.noFin s ht).2 k t hget
  · intro seg hmem
    rw [List.mem_singleton.mp hmem]
    rw [TcpSegment.has, hflags]
    exact ⟨rfl, fun hc => absurd hnow (Bool.eq_false_iff.mp hc)⟩
  · intro _
    cases ho : w.closed s.other with
    | false => exact .inl (.inl (hfirst ho))
    | true =>
    rcases h.stuck s.other ho with hs | ⟨hc, -⟩
    · exact .inr ⟨rfl, hs⟩
    · rw [TcpSide.other_other, hopen] at hc
      cases hc
  · intro hc
    cases hopen.symm.trans hc

/-- **Every event keeps the invariant.** -/
theorem Closing.step (e : Event) : (w.step e).Closing := by
  cases e with
  | deliver s env =>
    unfold TcpPair.step
    dsimp only
    split
    · exact h
    case h_2 seg rest hqueue => exact h.deliver env hqueue
  | send s data =>
    have hput := moved_put w s ((w.conn s).send data) []
    refine h.quiet ⟨hput.self, hput.other, hput.inbox, hput.outbox, rfl, id⟩ rfl rfl rfl ?_
    rintro _ ⟨⟩
  | output s mtu nodelay cork limit now =>
    obtain ⟨hstate, hooo, hsent⟩ := (w.conn s).outputLimit_sends mtu nodelay cork limit now
    have hput := moved_put w s ((w.conn s).outputLimit mtu nodelay cork limit now).1
      ((w.conn s).outputLimit mtu nodelay cork limit now).2
    refine h.quiet ⟨hput.self, hput.other, hput.inbox, hput.outbox, rfl, id⟩ rfl hstate hooo ?_
    intro seg hmem
    have hflags := hsent seg hmem
    unfold TcpSegment.has
    rw [hflags]
    exact ⟨rfl, rfl⟩
  | close s =>
  unfold TcpPair.step
  dsimp only
  split
  · exact h
  rename_i r hr
  have hput := moved_put w s r.1 [r.2]
  have hother : update w.closed s true s.other = w.closed s.other :=
    update_of_ne s.other_ne ..
  have hnow : update w.closed s true s = true := update_self ..
  exact h.close hr ⟨hput.self, hput.other, hput.inbox, hput.outbox, hother, fun _ => hnow⟩ hnow

/-- **Once both sides have closed, one of them waits for good.** -/
theorem Closing.not_over (hboth : ∀ s, w.closed s = true) : ∃ s, (w.conn s).state.Stuck := by
  rcases h.stuck .a (hboth .a) with hs | ⟨-, hs⟩
  · exact ⟨_, hs⟩
  · exact ⟨_, hs⟩

end

/-- Not both sides have closed. -/
def NotBoth (w : TcpPair) : Prop := ∀ s, w.closed s = true → w.closed s.other = false

theorem closed_step (w : TcpPair) (e : Event) (x : TcpSide) (hx : w.closed x = true) :
    (w.step e).closed x = true := by
  cases e with
  | deliver =>
    unfold step
    dsimp only
    split <;> exact hx
  | send => exact hx
  | output => exact hx
  | close s =>
  unfold step
  dsimp only
  split
  · exact hx
  show update w.closed s true x = true
  rw [update_apply]
  split
  · rfl
  · exact hx

variable {e : Event}

theorem NotBoth.step (h : w.NotBoth) (ho : w.OneCloser e) : (w.step e).NotBoth := by
  cases e with
  | deliver =>
    unfold TcpPair.step
    dsimp only
    split <;> exact h
  | send => exact h
  | output => exact h
  | close s =>
  unfold TcpPair.step
  dsimp only
  split
  · exact h
  intro x hx
  have hother : update w.closed s true s.other = false := by
    rwa [update_of_ne s.other_ne]
  rcases s.eq_or_other x with rfl | rfl
  · exact hother
  · cases hx.symm.trans hother

/-- While only one side has closed, no state that waits for an acknowledgement is left. -/
theorem Closing.leavesOnAck (h : w.Closing) (hn : w.NotBoth)
    (hn' : (w.step e).NotBoth) : w.LeavesOnAck e := by
  intro s hwait hleft
  have hreached := h.reached s
  cases hc : w.closed s with
  | false =>
    rw [hc] at hreached
    cases ho : w.closed s.other <;> rw [ho] at hreached <;>
      rcases hwait with hs | hs | hs <;> rw [hs] at hreached <;>
      simp [TcpState.Reached] at hreached
  | true =>
  rw [hc, hn s hc] at hreached
  have hc' := closed_step w e s hc
  have hreached' := (h.step e).reached s
  rw [hc', hn' s hc'] at hreached'
  exact absurd (Eq.trans hreached' (Eq.symm hreached)) hleft

/-! ### Runs -/

/-- **A run that comes to rest after both sides have closed ends with a connection that is not
over**; while only one side closes, the close protocol works. -/
theorem closeProtocol_of_oneCloser (a b : TcpConn) (ha : a.state = .established)
    (hb : b.state = .established) (hao : a.oooBuf = .empty) (hbo : b.oooBuf = .empty)
    (es : List Event) :
    ((es.foldl step (join a b)).AtRest → ¬ (es.foldl step (join a b)).Ended) ∧
    (Run.Meets step OneCloser (join a b) es →
      Run.Always step Ended (join a b) es ∧ Run.Meets step LeavesOnAck (join a b) es) := by
  have hstart : (join a b).Closing := join_closing ha hb hao hbo
  refine ⟨fun hrest hended => ?_, fun hmeets => ?_⟩
  · have hend : (es.foldl step (join a b)).Closing :=
      Run.invariant (fun w e hw => hw.step e) hstart
    obtain ⟨s, hs⟩ := hend.not_over fun s => (hrest s).2.1
    have hover := (hended hrest s).1
    rcases hs with hs | hs <;> rw [hs] at hover <;> simp at hover
  have hinit : (join a b).Closing ∧ (join a b).NotBoth := ⟨hstart, nofun⟩
  constructor
  · refine hmeets.always (I := fun w => w.Closing ∧ w.NotBoth)
      (fun w e hw ho => ⟨hw.1.step e, hw.2.step ho⟩) hinit ?_
    rintro w ⟨-, hnot⟩ hrest
    cases (hrest _).2.1.symm.trans (hnot .a (hrest .a).2.1)
  · exact hmeets.imp (I := fun w => w.Closing ∧ w.NotBoth)
      (fun w e hw ho => ⟨⟨hw.1.step e, hw.2.step ho⟩, hw.1.leavesOnAck hw.2 (hw.2.step ho)⟩) hinit

/-! ### A half-close, and a close from both sides -/

/-- An endpoint in the middle of its connection. -/
def midway (snd rcv : SeqNo) : TcpConn :=
  { fresh .established snd with rcvNxt := rcv, rcvReadSeq := rcv }

/-- One side sends two bytes, closes, and both arrive. -/
def halfClose : List Event :=
  [.send .a [104, 105], .output .a 1500 true false 8 0, .close .a 0,
    .deliver .b quiet, .deliver .b quiet,
    .deliver .a quiet, .deliver .a quiet]

theorem halfClose_protocol :
    Run.Always step Ended (join (midway 100 500) (midway 500 100)) halfClose ∧
      Run.Meets step LeavesOnAck (join (midway 100 500) (midway 500 100)) halfClose :=
  (closeProtocol_of_oneCloser (midway 100 500) (midway 500 100) rfl rfl rfl rfl halfClose).2
    ⟨trivial, trivial, rfl, trivial, trivial, trivial, trivial, trivial⟩

/-- Both sides close, one after the other, and everything arrives. -/
def bothClose : List Event :=
  [.close .a 0, .deliver .b quiet, .deliver .a quiet, .close .b 0,
    .deliver .a quiet, .deliver .b quiet,
    .output .a 1500 true false 8 0, .output .b 1500 true false 8 0]

/-- **However both sides send, deliver and close**: no reset is ever under way, no FIN before its
sender has closed, and each side is in a state that the closes so far account for. -/
theorem closing_kept (a b : TcpConn) (ha : a.state = .established) (hb : b.state = .established)
    (hao : a.oooBuf = .empty) (hbo : b.oooBuf = .empty) (es : List Event) :
    (es.foldl step (join a b)).Closing :=
  Run.invariant (fun _ e hw => hw.step e) (join_closing ha hb hao hbo)

theorem bothClose_closing :
    (bothClose.foldl step (join (midway 100 500) (midway 500 100))).Closing :=
  closing_kept (midway 100 500) (midway 500 100) rfl rfl rfl rfl bothClose

/-- The side that closed first stays in `Closing`. -/
theorem bothClose_stays :
    ¬ Run.Always step Ended (join (midway 100 500) (midway 500 100)) bothClose := by
  intro h
  have hended := h.last
  have hover := (hended (fun s => by cases s <;> exact ⟨rfl, rfl, rfl⟩) .a).1
  rcases hover with hs | hs <;> cases hs

end TcpPair

end Oxide
