/-
The send sequence of a TCP connection.

The retransmit queue is to tile the unacknowledged numbers: its segments follow each other from
`snd_una` to `snd_nxt`, with no gap and no overlap, and `snd_una` moves only to numbers that have
been sent.

* `Tiles`: the queue tiles a range of sequence numbers; `Tiles.append` and `Tiles.trim` say what
  sending and acknowledging make of it;
* `TcpConn.SendSound`, `TcpConn.AckMoves`: the property, of states and of steps;
* `TcpConn.Sound`: the invariant, in every state of the connection;
* `TcpConn.Orderly`: the condition on an event;
* `TcpConn.sendSound_of_orderly`: **the property holds along every run of orderly events**;
* `TcpConn.close_untiles`: a FIN takes up a number that the queue does not hold.
-/
import Oxide.Runs
import Oxide.TcpConn

namespace Oxide

open TcpFlags List TcpConn

/-! ### Tiling -/

/-- The sequence numbers a queue takes up. -/
def queueLen (q : List UnackedSegment) : ℕ := (q.map UnackedSegment.len).sum

/-- The segments follow each other, from `una` on. -/
def Chained : SeqNo → List UnackedSegment → Prop
  | _, [] => True
  | una, s :: q => s.seq = una ∧ 0 < s.len ∧ Chained (una + BitVec.ofNat 32 s.len) q

/-- **The queue tiles the numbers from `una` up to `nxt`.** -/
structure Tiles (una nxt : SeqNo) (q : List UnackedSegment) : Prop where
  chained : Chained una q
  whole : (nxt - una).toNat = queueLen q

variable {una nxt ack : SeqNo} {q : List UnackedSegment} {s : UnackedSegment}

theorem Tiles.empty (una : SeqNo) : Tiles una una [] where
  chained := trivial
  whole := by
    rw [BitVec.sub_self]
    rfl

theorem Tiles.eq_nil (h : Tiles una una q) : q = [] := by
  cases q with
  | nil => rfl
  | cons s q =>
  have hpos := h.chained.2.1
  have hwhole := h.whole
  rw [BitVec.sub_self] at hwhole
  have hsum : queueLen (s :: q) = s.len + queueLen q := rfl
  have hzero : (0#32).toNat = 0 := rfl
  omega

theorem Tiles.tail (h : Tiles una nxt (s :: q)) : Tiles (una + BitVec.ofNat 32 s.len) nxt q := by
  refine ⟨h.chained.2.2, ?_⟩
  have hwhole := h.whole
  have hsum : queueLen (s :: q) = s.len + queueLen q := rfl
  simp only [BitVec.toNat_sub, BitVec.toNat_add, BitVec.toNat_ofNat] at hwhole ⊢
  omega

theorem Chained.append (h : Chained una q) (hseq : s.seq = una + BitVec.ofNat 32 (queueLen q))
    (hpos : 0 < s.len) : Chained una (q ++ [s]) := by
  induction q generalizing una with
  | nil =>
    refine ⟨?_, hpos, trivial⟩
    rw [hseq]
    exact BitVec.add_zero una
  | cons t q ih =>
  refine ⟨h.1, h.2.1, ih h.2.2 ?_⟩
  rw [hseq, BitVec.add_assoc, ← BitVec.ofNat_add]
  rfl

/-- **What is sent at the end of the range extends it.** -/
theorem Tiles.append (h : Tiles una nxt q) (hseq : s.seq = nxt) (hpos : 0 < s.len)
    (hlt : (nxt - una).toNat + s.len < 2 ^ 32) :
    Tiles una (nxt + BitVec.ofNat 32 s.len) (q ++ [s]) := by
  have hwhole := h.whole
  refine ⟨h.chained.append ?_ hpos, ?_⟩
  · rw [hseq, ← hwhole, BitVec.ofNat_toNat, BitVec.setWidth_eq, BitVec.add_comm,
      BitVec.sub_add_cancel]
  have hsum : queueLen (q ++ [s]) = queueLen q + s.len := by
    rw [queueLen, map_append, sum_append]
    rfl
  rw [hsum, ← hwhole]
  simp only [BitVec.toNat_sub, BitVec.toNat_add, BitVec.toNat_ofNat] at hlt ⊢
  omega

/-! ### Trimming -/

theorem trimAcked_old (h : Chained una q) (hold : ack - una = 0 ∨ (ack - una).msb = true) :
    trimAcked ack q = q := by
  cases q with
  | nil => rfl
  | cons =>
    rw [trimAcked, h.1]
    exact if_pos hold

/-- The flags of a segment whose SYN is acknowledged, where it has no FIN. -/
theorem flags_without_syn : ∀ f : BitVec 8, f &&& FIN = 0 →
    (f &&& ~~~SYN) &&& FIN = 0 ∧ ((f &&& ~~~SYN) &&& (SYN ||| FIN) != 0) = false ∧
      (f &&& (SYN ||| FIN) != 0) = (f &&& SYN != 0) := by
  decide

/-- **An acknowledgement of what was sent moves the start of the range**, through whole segments and
into one. -/
theorem Tiles.trim (h : Tiles una nxt q) (hclean : ∀ s ∈ q, s.flags &&& FIN = 0)
    (hmsb : (ack - una).msb = false) (hle : (ack - una).toNat ≤ queueLen q) :
    Tiles ack nxt (trimAcked ack q) := by
  have hsame : ∀ {una}, ack - una = 0 → una = ack := fun h => by bv_omega
  induction q generalizing una with
  | nil =>
    -- nothing is queued, so nothing is acknowledged
    obtain rfl := hsame (BitVec.eq_of_toNat_eq (Nat.le_zero.mp hle))
    exact h
  | cons front rest ih =>
  obtain ⟨hseq, hpos, -⟩ := h.chained
  have hsum : queueLen (front :: rest) = front.len + queueLen rest := rfl
  rw [trimAcked, hseq]
  dsimp only
  by_cases hzero : ack - una = 0
  · rw [if_pos (.inl hzero)]
    obtain rfl := hsame hzero
    exact h
  rw [if_neg (by rw [hmsb]; rintro (h0 | h0); exacts [hzero h0, Bool.false_ne_true h0])]
  by_cases hwhole : front.len ≤ (ack - una).toNat
  · -- the segment is acknowledged as a whole
    rw [if_pos hwhole]
    have hnext : (ack - (una + BitVec.ofNat 32 front.len)).toNat =
        (ack - una).toNat - front.len := by
      simp only [BitVec.toNat_sub, BitVec.toNat_add, BitVec.toNat_ofNat] at hwhole ⊢
      omega
    refine ih h.tail (fun s hs => hclean s (mem_cons_of_mem _ hs)) ?_ (by omega)
    rw [BitVec.msb_eq_false_iff_two_mul_lt] at hmsb ⊢
    omega
  -- the segment is acknowledged in part
  rw [if_neg hwhole]
  have hacked : 0 < (ack - una).toNat :=
    Nat.pos_of_ne_zero fun h0 => hzero (BitVec.eq_of_toNat_eq h0)
  obtain ⟨-, hnosyn, hsyn⟩ := flags_without_syn front.flags (hclean front mem_cons_self)
  generalize hpart : ({ seq := ack, flags := front.flags &&& ~~~SYN, payload := _ } :
    UnackedSegment) = part
  have hlen : part.len + (ack - una).toNat = front.len := by
    rw [← hpart]
    unfold UnackedSegment.len at hwhole ⊢
    rw [hsyn] at hwhole ⊢
    rw [hnosyn, length_drop]
    split_ifs at hwhole with hs
    · rw [if_pos hs, if_pos hs, if_neg Bool.false_ne_true]
      omega
    rw [if_neg hs, if_neg hs, if_neg Bool.false_ne_true]
    omega
  have hend : ack + BitVec.ofNat 32 part.len = una + BitVec.ofNat 32 front.len := by
    rw [← hlen]
    apply BitVec.eq_of_toNat_eq
    simp only [BitVec.toNat_sub, BitVec.toNat_add, BitVec.toNat_ofNat]
    omega
  have htail := h.tail
  refine ⟨⟨by rw [← hpart], by omega, hend ▸ htail.chained⟩, ?_⟩
  have hsum' : queueLen (part :: rest) = part.len + queueLen rest := rfl
  have hold := h.whole
  simp only [BitVec.toNat_sub] at hlen hold hwhole ⊢
  omega

theorem trimAcked_clean (hclean : ∀ s ∈ q, s.flags &&& FIN = 0) :
    ∀ s ∈ trimAcked ack q, s.flags &&& FIN = 0 := by
  induction q with
  | nil => exact hclean
  | cons front rest ih =>
  have hrest : ∀ s ∈ rest, s.flags &&& FIN = 0 := fun s hs =>
    hclean s (mem_cons_of_mem _ hs)
  rw [trimAcked]
  split
  · exact hclean
  split
  · exact ih hrest
  intro s hs
  rcases mem_cons.mp hs with rfl | hs
  · exact (flags_without_syn front.flags (hclean front mem_cons_self)).1
  · exact hrest s hs

/-- The queue tiles less than half of the number space, and holds no FIN. -/
structure Queued (una nxt : SeqNo) (q : List UnackedSegment) : Prop where
  tiles : Tiles una nxt q
  half : (nxt - una).toNat < 2 ^ 31
  clean : ∀ s ∈ q, s.flags &&& FIN = 0

theorem Queued.append (h : Queued una nxt q) (hseq : s.seq = nxt) (hpos : 0 < s.len)
    (hfin : s.flags &&& FIN = 0) (hhalf : (nxt - una).toNat + s.len < 2 ^ 31) :
    Queued una (nxt + BitVec.ofNat 32 s.len) (q ++ [s]) := by
  have htiles := h.tiles.append hseq hpos (by omega)
  refine ⟨htiles, ?_, ?_⟩
  · simp only [BitVec.toNat_sub, BitVec.toNat_add, BitVec.toNat_ofNat] at hhalf ⊢
    omega
  intro t ht
  rcases mem_append.mp ht with ht | ht
  · exact h.clean t ht
  · rwa [mem_singleton.mp ht]

/-- The acknowledgement names nothing beyond what was sent. -/
def NotBeyond (una nxt ack : SeqNo) : Prop :=
  (ack - una).msb = true ∨ (ack - una).toNat ≤ (nxt - una).toNat

instance (una nxt ack : SeqNo) : Decidable (NotBeyond una nxt ack) :=
  inferInstanceAs (Decidable (_ ∨ _))

/-- Where an acknowledgement moves `snd_una`. -/
def ackedUna (una ack : SeqNo) : SeqNo :=
  if ack - una ≠ 0 ∧ !(ack - una).msb then ack else una

/-- **An acknowledgement of what was sent.** -/
theorem Queued.acked (h : Queued una nxt q) (hack : NotBeyond una nxt ack) :
    Queued (ackedUna una ack) nxt (trimAcked ack q) ∧
      (ackedUna una ack = una ∨ ackedUna una ack = ack ∧ 0 < (ack - una).toNat ∧
        (ack - una).toNat ≤ (nxt - una).toNat) := by
  unfold ackedUna
  by_cases hold : ack - una = 0 ∨ (ack - una).msb = true
  · rw [if_neg (by simpa [or_iff_not_imp_left] using hold), trimAcked_old h.tiles.chained hold]
    exact ⟨h, .inl rfl⟩
  rw [not_or, Bool.not_eq_true] at hold
  obtain ⟨hne, hmsb⟩ := hold
  have hle : (ack - una).toNat ≤ (nxt - una).toNat :=
    hack.resolve_left (by rw [hmsb]; exact Bool.false_ne_true)
  have hpos : 0 < (ack - una).toNat :=
    Nat.pos_of_ne_zero fun h0 => hne (BitVec.eq_of_toNat_eq h0)
  rw [if_pos ⟨hne, by rw [hmsb]; rfl⟩]
  refine ⟨⟨?_, ?_, trimAcked_clean h.clean⟩, .inr ⟨rfl, hpos, hle⟩⟩
  · exact h.tiles.trim h.clean hmsb (h.tiles.whole ▸ hle)
  · have hhalf := h.half
    simp only [BitVec.toNat_sub] at hle hhalf ⊢
    omega

/-! ### The property -/

/-- Both sides have agreed on their initial sequence numbers. -/
def TcpState.synchronised : TcpState → Bool
  | .closed | .listen | .synSent | .synRecv => false
  | _ => true

/-- The connection has sent something. -/
def TcpState.opened : TcpState → Bool
  | .closed | .listen => false
  | _ => true

theorem TcpState.opened_of_synchronised :
    ∀ s : TcpState, s.synchronised = true → s.opened = true := by
  intro s h
  cases s <;> first | rfl | cases h

namespace TcpConn

/-- The calls on a connection, and the segments that arrive. -/
inductive Call
  | activeOpen (now : BitVec 32)
  | send (data : List UInt8)
  | sendUrgent (byte : UInt8) (now : BitVec 32)
  | output (mtu : ℕ) (nodelay cork : Bool) (limit : ℕ) (now : BitVec 32)
  | localClose (now : BitVec 32)
  | shutdownWrite (now : BitVec 32)
  | dropClose (now : BitVec 32)
  | input (seg : TcpSegment) (env : TcpEnv)

/-- The connection after a call. -/
def step (c : TcpConn) : Call → TcpConn
  | .activeOpen now => match c.activeOpen now with
    | .ok r => r.1
    | .error _ => c
  | .send data => c.send data
  | .sendUrgent byte now => (c.sendUrgent byte now).1
  | .output mtu nodelay cork limit now => (c.outputLimit mtu nodelay cork limit now).1
  | .localClose now => match c.localClose now with
    | .ok r => r.1
    | .error _ => c
  | .shutdownWrite now => match c.shutdownWrite now with
    | .ok r => r.1
    | .error _ => c
  | .dropClose now => (c.dropClose now).1
  | .input seg env => (c.input seg env).1

/-- **In a synchronised state the send sequence is in order**: `snd_una` is not after `snd_nxt`, and
the retransmit queue tiles what lies between them. -/
def SendSound (c : TcpConn) : Prop :=
  c.state.synchronised = true →
    Serial.before c.sndNxt c.sndUna = false ∧ Tiles c.sndUna c.sndNxt c.retxQ

/-- **`snd_una` moves only to an acknowledgement of something sent**, in a step to a synchronised
state. -/
def AckMoves (c : TcpConn) (e : Call) : Prop :=
  (c.step e).state.synchronised = true → (c.step e).sndUna = c.sndUna ∨
    ∃ seg env, e = .input seg env ∧ seg.has ACK = true ∧ (c.step e).sndUna = seg.ack ∧
      0 < (seg.ack - c.sndUna).toNat ∧ (seg.ack - c.sndUna).toNat ≤ (c.sndNxt - c.sndUna).toNat

/-- The events under which the property holds. -/
def Orderly (c : TcpConn) : Call → Prop
  | .activeOpen _ => c.state = .closed → c.sndUna = c.sndNxt
  | .send _ => True
  | .sendUrgent _ _ => c.state ≠ .listen ∧ (c.sndNxt - c.sndUna).toNat + 1 < 2 ^ 31
  | .output _ _ _ _ _ => (c.sndNxt - c.sndUna).toNat + c.sendBuf.length < 2 ^ 31
  | .localClose _ | .shutdownWrite _ | .dropClose _ =>
    c.state ≠ .established ∧ c.state ≠ .closeWait
  | .input seg _ => c.state.opened = true → c.state ≠ .synRecv → seg.has ACK = true →
    NotBeyond c.sndUna c.sndNxt seg.ack

/-! ### The invariant -/

/-- What holds in every state: the queue of a connection that is neither closed nor listening tiles
what is outstanding, a listener has queued nothing, and with nothing outstanding nothing is
queued. -/
structure Sound (c : TcpConn) : Prop where
  half : (c.sndNxt - c.sndUna).toNat < 2 ^ 31
  idle : c.sndUna = c.sndNxt → c.retxQ = []
  listening : c.state = .listen → c.retxQ = []
  queued : c.state.opened = true → Queued c.sndUna c.sndNxt c.retxQ

variable {c c' : TcpConn} {seg : TcpSegment} {env : TcpEnv}

theorem Sound.sendSound (h : c.Sound) : c.SendSound := by
  intro hsync
  refine ⟨?_, (h.queued (c.state.opened_of_synchronised hsync)).tiles⟩
  have hhalf : Serial.InHalf c.sndUna c.sndNxt := h.half
  exact (Serial.before_of_inHalf hhalf).2

/-- A queue that tiles makes a connection sound, once it is open. -/
theorem Sound.of_queued (h : Queued c.sndUna c.sndNxt c.retxQ) (hopen : c.state.opened = true) :
    c.Sound where
  half := h.half
  idle := fun heq => by
    have htiles := h.tiles
    rw [← heq] at htiles
    exact htiles.eq_nil
  listening := fun hl => by
    rw [hl] at hopen
    cases hopen
  queued := fun _ => h

/-- Two connections agree on their send sequence. -/
structure SameSend (c c' : TcpConn) : Prop where
  sndUna : c'.sndUna = c.sndUna
  sndNxt : c'.sndNxt = c.sndNxt
  retxQ : c'.retxQ = c.retxQ

variable {c'' : TcpConn}

theorem SameSend.trans (h : SameSend c c') (h' : SameSend c' c'') : SameSend c c'' :=
  ⟨h'.sndUna.trans h.sndUna, h'.sndNxt.trans h.sndNxt, h'.retxQ.trans h.retxQ⟩

/-- The queue outlives a change that does not touch it; a listener is not made. -/
theorem Sound.same (h : c.Sound) (hs : SameSend c c') (hstate : c'.state.opened = true →
    c.state.opened = true) (hlisten : c'.state ≠ .listen ∨ c.state = .listen) : c'.Sound where
  half := by
    rw [hs.sndUna, hs.sndNxt]
    exact h.half
  idle := by
    rw [hs.sndUna, hs.sndNxt, hs.retxQ]
    exact h.idle
  listening := fun hl => by
    rw [hs.retxQ]
    exact h.listening (hlisten.resolve_left fun hne => hne hl)
  queued := fun hopen => by
    rw [hs.sndUna, hs.sndNxt, hs.retxQ]
    exact h.queued (hstate hopen)

/-! ### Receiving leaves the send sequence -/

/-- The send sequence and the state are as before. -/
structure Untouched (c c' : TcpConn) : Prop extends SameSend c c' where
  state : c'.state = c.state

theorem Untouched.refl (c : TcpConn) : Untouched c c := ⟨⟨rfl, rfl, rfl⟩, rfl⟩

theorem Untouched.trans (h : Untouched c c') (h' : Untouched c' c'') : Untouched c c'' :=
  ⟨h.toSameSend.trans h'.toSameSend, h'.state.trans h.state⟩

theorem untouched_accept (c : TcpConn) (seq : SeqNo) (payload : List UInt8)
    (urgent : Option (SeqNo × UInt8)) : Untouched c (c.accept seq payload urgent) := by
  have happend : Untouched c (c.appendRecvPayload seq payload) := by
    unfold appendRecvPayload
    dsimp only
    split <;> exact ⟨⟨rfl, rfl, rfl⟩, rfl⟩
  refine happend.trans ?_
  cases urgent with
  | none => exact ⟨⟨rfl, rfl, rfl⟩, rfl⟩
  | some => exact ⟨⟨rfl, rfl, rfl⟩, rfl⟩

theorem untouched_drain (c : TcpConn) (l : List (ℕ × OutOfOrderSegment)) :
    Untouched c (c.drain l).1 := by
  induction l generalizing c with
  | nil => exact .refl c
  | cons p rest ih =>
  obtain ⟨k, t⟩ := p
  have haccept :=
    untouched_accept { c with oooBuf := c.oooBuf.erase k } c.rcvNxt t.payload t.urgent
  have herase : Untouched c { c with oooBuf := c.oooBuf.erase k } := ⟨⟨rfl, rfl, rfl⟩, rfl⟩
  rw [drain]
  split
  · exact .refl c
  · split
    · exact herase.trans haccept
    · exact (herase.trans haccept).trans (ih _)

theorem untouched_rcvAutotune (c : TcpConn) : Untouched c c.rcvAutotune := by
  obtain ⟨_, _, _, h⟩ := c.rcvAutotune_eq
  rw [h]
  exact ⟨⟨rfl, rfl, rfl⟩, rfl⟩

theorem untouched_receiveData (c : TcpConn) (seg : TcpSegment) :
    Untouched c (c.receiveData seg).1 := by
  have haccept := untouched_accept c seg.seq seg.payload (urgentByte seg)
  unfold receiveData
  split
  · exact .refl c
  split
  · refine Untouched.trans ?_ (untouched_rcvAutotune _)
    split
    · exact haccept
    · exact haccept.trans (untouched_drain _ _)
  · split
    · exact ⟨⟨rfl, rfl, rfl⟩, rfl⟩
    · exact .refl c

theorem untouched_checkTimestamp (h : c.checkTimestamp seg = some c') : Untouched c c' := by
  obtain ⟨_, rfl⟩ := checkTimestamp_eq h
  exact ⟨⟨rfl, rfl, rfl⟩, rfl⟩

/-! ### Acknowledgements -/

/-- The send sequence after an acknowledgement. -/
structure AfterAck (c c' : TcpConn) (ack : SeqNo) : Prop where
  sndUna : c'.sndUna = ackedUna c.sndUna ack
  sndNxt : c'.sndNxt = c.sndNxt
  retxQ : c'.retxQ = trimAcked ack c.retxQ

theorem advanceSndUna_eq (c : TcpConn) (ack : SeqNo) :
    c.advanceSndUna ack = { c with sndUna := ackedUna c.sndUna ack } := by
  unfold advanceSndUna ackedUna
  dsimp only
  split_ifs <;> rfl

theorem afterAck (c : TcpConn) (ack : SeqNo) :
    AfterAck c ((c.advanceSndUna ack).trimRetxAcked ack) ack ∧
      ((c.advanceSndUna ack).trimRetxAcked ack).state = c.state := by
  rw [advanceSndUna_eq]
  exact ⟨⟨rfl, rfl, rfl⟩, rfl⟩

/-- What a segment may do to the send sequence of an open connection. -/
structure SendMoves (c c' : TcpConn) (seg : TcpSegment) : Prop where
  sndNxt : c'.sndNxt = c.sndNxt
  sndUna : c'.sndUna = c.sndUna ∨ seg.has ACK = true ∧ c'.sndUna = seg.ack ∧
    0 < (seg.ack - c.sndUna).toNat ∧ (seg.ack - c.sndUna).toNat ≤ (c.sndNxt - c.sndUna).toNat

theorem SendMoves.refl (c : TcpConn) (seg : TcpSegment) : SendMoves c c seg := ⟨rfl, .inl rfl⟩

/-- **An acknowledgement keeps an open connection sound.** -/
theorem Sound.afterAck (h : c.Sound) (hopen : c.state.opened = true)
    (hack : NotBeyond c.sndUna c.sndNxt seg.ack) (hflag : seg.has ACK = true)
    (hafter : AfterAck c c' seg.ack) (hopen' : c'.state.opened = true) :
    c'.Sound ∧ SendMoves c c' seg := by
  obtain ⟨hqueued, hmoves⟩ := (h.queued hopen).acked hack
  constructor
  · refine .of_queued ?_ hopen'
    rwa [hafter.sndUna, hafter.sndNxt, hafter.retxQ]
  · refine ⟨hafter.sndNxt, ?_⟩
    rw [hafter.sndUna]
    exact hmoves.imp id fun hm => ⟨hflag, hm⟩

/-- After an acknowledgement the same acknowledgement is nothing new. -/
theorem AfterAck.notBeyond (h : AfterAck c c' ack) (hack : NotBeyond c.sndUna c.sndNxt ack) :
    NotBeyond c'.sndUna c'.sndNxt ack := by
  rw [h.sndUna, h.sndNxt]
  unfold ackedUna
  split
  · right
    rw [BitVec.sub_self]
    exact Nat.zero_le _
  · exact hack

/-- An acknowledgement that is acceptable to a half-open connection names nothing unsent. -/
theorem notBeyond_of_acceptable (hhalf : (nxt - una).toNat < 2 ^ 31)
    (h : socketAckAcceptable ack una nxt = true) : NotBeyond una nxt ack := by
  unfold socketAckAcceptable at h
  rw [Bool.and_eq_true, Bool.not_eq_true', Bool.not_eq_true'] at h
  obtain ⟨hold, hnew⟩ := h
  rcases Nat.lt_or_ge (ack - una).toNat (2 ^ 31) with hin | hout
  · -- both are in the half that starts at `snd_una`
    have hahead : Serial.InHalf una ack := hin
    have hsent : Serial.InHalf una nxt := hhalf
    rw [← Bool.not_eq_true, Serial.before_iff_of_inHalf hsent hahead] at hnew
    exact .inr (Nat.le_of_not_lt hnew)
  · left
    rw [BitVec.msb_eq_true_iff_two_mul_ge]
    omega

/-! ### Segments -/

theorem opened_recvFin : ∀ s : TcpState, s.opened = true →
    ((transition s .recvFin).getD s).opened = true := by
  intro s h
  cases s <;> first | rfl | cases h

theorem sameSend_respond (c : TcpConn) (seg : TcpSegment) (fin : Bool) (env : TcpEnv) :
    SameSend c (c.respond seg fin env).1 ∧
      (c.state.opened = true → (c.respond seg fin env).1.state.opened = true) := by
  cases fin with
  | true => exact ⟨⟨rfl, rfl, rfl⟩, opened_recvFin c.state⟩
  | false =>
  obtain ⟨_, _, h⟩ := c.respond_false_eq seg env
  rw [h]
  exact ⟨⟨rfl, rfl, rfl⟩, id⟩

/-- A segment of the data transfer phase acknowledges, or leaves the send sequence. -/
theorem inputTimely_send (c : TcpConn) (seg : TcpSegment) (env : TcpEnv)
    (hopen : c.state.opened = true) :
    (SameSend c (c.inputTimely seg env).1 ∨
      seg.has ACK = true ∧ AfterAck c (c.inputTimely seg env).1 seg.ack) ∧
    (c.inputTimely seg env).1.state.opened = true := by
  unfold inputTimely
  split
  · exact ⟨.inl ⟨rfl, rfl, rfl⟩, hopen⟩
  have hdata := untouched_receiveData c seg
  dsimp only
  generalize c.receiveData seg = r at hdata ⊢
  by_cases hack : seg.has ACK = true
  · rw [if_pos hack]
    obtain ⟨hafter, hstate⟩ := afterAck r.1 seg.ack
    obtain ⟨hresp, hopened⟩ := sameSend_respond (r.1.processAck seg env) seg r.2 env
    have hstate' : (r.1.processAck seg env).state = c.state := hstate.trans hdata.state
    refine ⟨.inr ⟨hack, ?_, ?_, ?_⟩, hopened (hstate' ▸ hopen)⟩
    · rw [hresp.sndUna, ← hdata.sndUna]
      exact hafter.sndUna
    · rw [hresp.sndNxt, ← hdata.sndNxt]
      exact hafter.sndNxt
    · rw [hresp.retxQ, ← hdata.retxQ]
      exact hafter.retxQ
  · rw [if_neg hack]
    obtain ⟨hresp, hopened⟩ := sameSend_respond r.1 seg r.2 env
    exact ⟨.inl (hdata.toSameSend.trans hresp), hopened (hdata.state ▸ hopen)⟩

theorem Sound.inputData (h : c.Sound) (env : TcpEnv) (hopen : c.state.opened = true)
    (hack : seg.has ACK = true → NotBeyond c.sndUna c.sndNxt seg.ack) :
    (c.inputData seg env).1.Sound ∧ SendMoves c (c.inputData seg env).1 seg := by
  unfold TcpConn.inputData
  split
  · exact ⟨h, .refl c seg⟩
  rename_i c0 htime
  have hwin : Untouched c (c0.updateWindow seg) :=
    (untouched_checkTimestamp htime).trans ⟨⟨rfl, rfl, rfl⟩, rfl⟩
  have hopen1 : (c0.updateWindow seg).state.opened = true := hwin.state ▸ hopen
  obtain ⟨hsend, hopened⟩ := inputTimely_send _ seg env hopen1
  rcases hsend with hsame | ⟨hflag, hafter⟩
  · have hall := hwin.toSameSend.trans hsame
    refine ⟨h.same hall (fun _ => hopen) (.inl fun hl => ?_), hall.sndNxt, .inl hall.sndUna⟩
    rw [hl] at hopened
    cases hopened
  refine h.afterAck hopen (hack hflag) hflag ⟨?_, ?_, ?_⟩ hopened
  · rw [hafter.sndUna, hwin.sndUna]
  · rw [hafter.sndNxt, hwin.sndNxt]
  · rw [hafter.retxQ, hwin.retxQ]

/-- A connection that answers or sends a SYN with nothing queued. -/
theorem Sound.opening (flags : BitVec 8) (hstate : c'.state.opened = true)
    (hnxt : c'.sndNxt = c'.sndUna + 1) (hq : c'.retxQ = [⟨c'.sndUna, flags, []⟩])
    (hfin : flags &&& FIN = 0) (hsyn : (flags &&& (SYN ||| FIN) != 0) = true) : c'.Sound := by
  have hlen : UnackedSegment.len ⟨c'.sndUna, flags, []⟩ = 1 := by
    rw [UnackedSegment.len, hsyn]
    rfl
  have hempty : Queued c'.sndUna c'.sndUna [] :=
    ⟨.empty _, by rw [BitVec.sub_self]; decide, nofun⟩
  have hone := hempty.append (s := ⟨c'.sndUna, flags, []⟩) rfl (by omega) hfin
    (by rw [BitVec.sub_self, hlen]; decide)
  refine .of_queued ?_ hstate
  rw [hnxt, hq]
  rwa [hlen] at hone

theorem Sound.inputListen (h : c.Sound) (hl : c.state = .listen) :
    (c.inputListen seg env).1.Sound := by
  refine .opening (SYN ||| ACK) rfl rfl ?_ rfl rfl
  show c.retxQ ++ [_] = [_]
  rw [h.listening hl]
  rfl

theorem Sound.inputSynSent (h : c.Sound) (env : TcpEnv) (hopen : c.state.opened = true)
    (hack : NotBeyond c.sndUna c.sndNxt seg.ack) (hflag : seg.has ACK = true) :
    (c.inputSynSent seg env).1.Sound ∧ SendMoves c (c.inputSynSent seg env).1 seg := by
  refine h.afterAck hopen hack hflag ?_ rfl
  -- the options set fields that the send sequence does not depend on
  rw [TcpConn.inputSynSent, advanceSndUna_eq]
  exact ⟨rfl, rfl, rfl⟩

/-- A half-open connection judges the acknowledgement itself. -/
theorem Sound.inputSynRecv (h : c.Sound) (seg : TcpSegment) (env : TcpEnv)
    (hrecv : c.state = .synRecv) :
    (c.inputSynRecv seg env).1.Sound ∧ SendMoves c (c.inputSynRecv seg env).1 seg ∧
      ((c.inputSynRecv seg env).1.state = .established →
        seg.has ACK = true → NotBeyond (c.inputSynRecv seg env).1.sndUna
          (c.inputSynRecv seg env).1.sndNxt seg.ack) := by
  have hopen : c.state.opened = true := by
    rw [hrecv]
    rfl
  have hstay : ¬ c.state = .established := by
    rw [hrecv]
    rintro ⟨⟩
  unfold TcpConn.inputSynRecv
  split
  · exact ⟨h, .refl c seg, fun he => absurd he hstay⟩
  split
  · exact ⟨h, .refl c seg, fun he => absurd he hstay⟩
  rename_i hflag
  have hflag : seg.has ACK = true := by simpa using hflag
  split_ifs with hacc
  · exact ⟨h, .refl c seg, fun he => absurd he hstay⟩
  have hack := notBeyond_of_acceptable h.half (by simpa using hacc)
  have hafter : AfterAck c { ((c.advanceSndUna seg.ack).trimRetxAcked seg.ack).updateWindow seg
      with state := .established } seg.ack :=
    ⟨(TcpConn.afterAck c seg.ack).1.sndUna, (TcpConn.afterAck c seg.ack).1.sndNxt,
      (TcpConn.afterAck c seg.ack).1.retxQ⟩
  obtain ⟨hsound, hmoves⟩ := h.afterAck hopen hack hflag hafter rfl
  exact ⟨hsound, hmoves, fun _ _ => hafter.notBeyond hack⟩

theorem has_ack_of_synack : ∀ f : BitVec 8, f &&& (SYN ||| ACK) = SYN ||| ACK →
    (f &&& ACK != 0) = true := by
  decide

/-- **One pass over a segment keeps a connection sound.** -/
theorem Sound.inputWithHeader (h : c.Sound) (ho : c.Orderly (.input seg env)) :
    (c.inputWithHeader seg env).1.Sound ∧ ((c.inputWithHeader seg env).1.state.synchronised = true →
        SendMoves c (c.inputWithHeader seg env).1 seg) ∧
      (c.state = .synRecv → (c.inputWithHeader seg env).1.state = .established →
        (c.inputWithHeader seg env).1.Orderly (.input seg env)) := by
  have hsame : c.Sound ∧ (c.state.synchronised = true → SendMoves c c seg) :=
    ⟨h, fun _ => .refl c seg⟩
  have hclosed : TcpConn.Sound { c with state := .closed } :=
    h.same ⟨rfl, rfl, rfl⟩ nofun (.inl nofun)
  have hopened : ∀ {st}, c.state = st → st.opened = true → c.state.opened = true := by
    intro st hst hop
    rwa [hst]
  unfold TcpConn.inputWithHeader
  split
  · split
    · exact ⟨hclosed, nofun, nofun⟩
    · exact ⟨hsame.1, hsame.2, fun hr he => by rw [hr] at he; cases he⟩
  -- one arm of the handler for each state
  cases hstate : c.state with
  | listen =>
    dsimp only
    split
    · exact ⟨h.inputListen hstate, nofun, nofun⟩
    · exact ⟨h, fun _ => .refl c seg, nofun⟩
  | synSent =>
    dsimp only
    split_ifs with hflags
    · have hflag : seg.has ACK = true := has_ack_of_synack seg.flags hflags
      have hopen := hopened hstate rfl
      have hack := ho hopen (by rw [hstate]; rintro ⟨⟩) hflag
      obtain ⟨hsound, hmoves⟩ := h.inputSynSent env hopen hack hflag
      exact ⟨hsound, fun _ => hmoves, nofun⟩
    · exact ⟨h, fun _ => .refl c seg, nofun⟩
  | synRecv =>
    obtain ⟨hsound, hmoves, hnext⟩ := h.inputSynRecv seg env hstate
    exact ⟨hsound, fun _ => hmoves, fun _ he _ _ hflag => hnext he hflag⟩
  | established | finWait1 | finWait2 =>
    have hopen := hopened hstate rfl
    have hack := ho hopen (by rw [hstate]; rintro ⟨⟩)
    obtain ⟨hsound, hmoves⟩ := h.inputData env hopen hack
    exact ⟨hsound, fun _ => hmoves, nofun⟩
  | lastAck =>
    dsimp only
    split
    · exact ⟨hclosed, nofun, nofun⟩
    · exact ⟨h, fun _ => .refl c seg, nofun⟩
  | closed | closeWait | closing | timeWait =>
    exact ⟨h, fun _ => .refl c seg, nofun⟩

/-- **A segment keeps a connection sound**, also where it is applied twice. -/
theorem Sound.input (h : c.Sound) (ho : c.Orderly (.input seg env)) :
    (c.input seg env).1.Sound ∧
      ((c.input seg env).1.state.synchronised = true → SendMoves c (c.input seg env).1 seg) := by
  obtain ⟨hsound, hmoves, hnext⟩ := h.inputWithHeader ho
  unfold TcpConn.input
  dsimp only
  split
  · exact ⟨hsound, hmoves⟩
  split_ifs with htwice
  · obtain ⟨hrecv, hest, -⟩ := htwice
    obtain ⟨hsound2, hmoves2, -⟩ := hsound.inputWithHeader (hnext hrecv hest)
    refine ⟨hsound2, fun hsync => ?_⟩
    have hfirst := hmoves (by rw [hest]; rfl)
    have hsecond := hmoves2 hsync
    refine ⟨hsecond.sndNxt.trans hfirst.sndNxt, ?_⟩
    rcases hsecond.sndUna with hsame | ⟨hflag, hack, hpos, hle⟩
    · rw [hsame]
      exact hfirst.sndUna
    -- if the first pass has acknowledged, nothing is left for the second
    rcases hfirst.sndUna with hsame | ⟨-, hack1, -⟩
    · rw [hsame] at hpos hle
      rw [hfirst.sndNxt] at hle
      exact .inr ⟨hflag, hack, hpos, hle⟩
    · rw [hack1, BitVec.sub_self] at hpos
      cases hpos
  · exact ⟨hsound, hmoves⟩

/-! ### Calls -/

theorem Queued.emit (payload : List UInt8) (flags : BitVec 8) (h : Queued c.sndUna c.sndNxt c.retxQ)
    (hne : payload ≠ []) (hflags : (flags &&& (SYN ||| FIN) != 0) = false)
    (hfin : flags &&& FIN = 0) (hhalf : (c.sndNxt - c.sndUna).toNat + payload.length < 2 ^ 31) :
    Queued (c.emit flags payload).sndUna (c.emit flags payload).sndNxt
      (c.emit flags payload).retxQ := by
  have hlen : UnackedSegment.len ⟨c.sndNxt, flags, payload⟩ = payload.length := by
    rw [UnackedSegment.len, hflags]
    rfl
  have happend := h.append rfl
    (by rw [hlen]; exact length_pos_iff.mpr hne) hfin (by rw [hlen]; exact hhalf)
  rwa [hlen] at happend

variable {now : BitVec 32}

theorem Sound.sendUrgent (h : c.Sound) {byte : UInt8}
    (ho : c.Orderly (.sendUrgent byte now)) : (c.sendUrgent byte now).1.Sound := by
  obtain ⟨hlisten, hhalf⟩ := ho
  refine ⟨?_, fun heq => ?_, fun hl => absurd hl hlisten, fun hopen => ?_⟩
  · show (c.sndNxt + BitVec.ofNat 32 1 - c.sndUna).toNat < 2 ^ 31
    simp only [BitVec.toNat_sub, BitVec.toNat_add, BitVec.toNat_ofNat] at hhalf ⊢
    omega
  · -- one more number is outstanding
    have hnat := congrArg BitVec.toNat (show c.sndUna = c.sndNxt + BitVec.ofNat 32 1 from heq)
    simp only [BitVec.toNat_sub, BitVec.toNat_add, BitVec.toNat_ofNat] at hhalf hnat
    omega
  · exact Queued.emit _ _ (h.queued hopen) (cons_ne_nil _ _) rfl rfl hhalf

/-- **The output loop queues what it sends.** -/
theorem outputLoop_queued (mss : ℕ) (cork : Bool) (now : BitVec 32) (fuel : ℕ) (c : TcpConn)
    (avail limit : ℕ) (h : Queued c.sndUna c.sndNxt c.retxQ)
    (hhalf : (c.sndNxt - c.sndUna).toNat + c.sendBuf.length < 2 ^ 31) :
    let c' := (outputLoop mss cork now fuel c avail limit).1
    Queued c'.sndUna c'.sndNxt c'.retxQ ∧ c'.sndUna = c.sndUna ∧ c'.state = c.state := by
  induction fuel generalizing c avail limit with
  | zero => exact ⟨h, rfl, rfl⟩
  | succ fuel ih =>
  rw [outputLoop]
  split_ifs with hgo
  · exact ⟨h, rfl, rfl⟩
  simp only [not_or] at hgo
  generalize htake : min (min mss avail) c.sendBuf.length = take at hgo
  have hlen : (c.sendBuf.take take).length = take := by
    rw [length_take]
    omega
  have hne : c.sendBuf.take take ≠ [] := by
    rw [← length_pos_iff, hlen]
    exact Nat.pos_of_ne_zero hgo.2.2.2.2
  -- the numbers outstanding and the bytes waiting have the same sum as before
  have hrest : (c.sndNxt + BitVec.ofNat 32 (c.sendBuf.take take).length - c.sndUna).toNat +
      (c.sendBuf.drop take).length < 2 ^ 31 := by
    rw [length_drop]
    simp only [BitVec.toNat_sub, BitVec.toNat_add, BitVec.toNat_ofNat] at hhalf ⊢
    omega
  have hqueued := Queued.emit
    (c.sendBuf.take take) (PSH ||| ACK) h hne rfl rfl (by
      omega)
  exact ih _ _ _ hqueued hrest

theorem Sound.output (h : c.Sound) {mtu limit : ℕ} {nodelay cork : Bool}
    (ho : c.Orderly (.output mtu nodelay cork limit now)) :
    (c.outputLimit mtu nodelay cork limit now).1.Sound ∧
      (c.outputLimit mtu nodelay cork limit now).1.sndUna = c.sndUna := by
  unfold outputLimit
  by_cases hstate : c.state ≠ .established ∧ c.state ≠ .closeWait
  · rw [if_pos hstate]
    exact ⟨h, rfl⟩
  rw [if_neg hstate]
  split
  · exact ⟨h, rfl⟩
  split
  · exact ⟨h, rfl⟩
  have hopen : c.state.opened = true := by
    rw [not_and_or, not_not, not_not] at hstate
    rcases hstate with hs | hs <;> rw [hs] <;> rfl
  obtain ⟨hqueued, huna, hsame⟩ := outputLoop_queued (c.outputMss mtu) cork now c.sendBuf.length c
    (min c.sndWnd c.cwnd - c.inFlight) limit (h.queued hopen) ho
  exact ⟨.of_queued hqueued (hsame ▸ hopen), huna⟩

theorem Sound.activeOpen (h : c.Sound) (ho : c.Orderly (.activeOpen now)) :
    (c.step (.activeOpen now)).Sound ∧ (c.step (.activeOpen now)).sndUna = c.sndUna := by
  unfold step TcpConn.activeOpen
  by_cases hstate : c.state = .closed
  · have hidle := ho hstate
    rw [hstate]
    refine ⟨.opening SYN rfl ?_ ?_ rfl rfl, rfl⟩
    · show c.sndNxt + 1 = c.sndUna + 1
      rw [hidle]
    · rw [h.idle hidle, hidle]
      rfl
  have hnone : transition c.state .activeOpen = none := by
    cases hs : c.state <;> first | rfl | exact absurd hs hstate
  rw [hnone]
  exact ⟨h, rfl⟩

/-- A close that sends no FIN. -/
theorem Sound.closing (h : c.Sound) (now : BitVec 32)
    (ho : c.state ≠ .established ∧ c.state ≠ .closeWait) :
    ((c.step (.localClose now)).Sound ∧ (c.step (.localClose now)).sndUna = c.sndUna) ∧
    ((c.step (.shutdownWrite now)).Sound ∧ (c.step (.shutdownWrite now)).sndUna = c.sndUna) ∧
    ((c.step (.dropClose now)).Sound ∧ (c.step (.dropClose now)).sndUna = c.sndUna) := by
  have hclosed : TcpConn.Sound { c with state := .closed } :=
    h.same ⟨rfl, rfl, rfl⟩ nofun (.inl nofun)
  have hcancelled : TcpConn.Sound { c with state := .closed, sendBuf := [], retxQ := [] } :=
    ⟨h.half, fun _ => rfl, fun _ => rfl, nofun⟩
  unfold step localClose shutdownWrite dropClose
  cases hs : c.state with
  | established => exact absurd hs ho.1
  | closeWait => exact absurd hs ho.2
  | synSent => exact ⟨⟨h, rfl⟩, ⟨hcancelled, rfl⟩, ⟨hclosed, rfl⟩⟩
  | synRecv => exact ⟨⟨h, rfl⟩, ⟨h, rfl⟩, ⟨hclosed, rfl⟩⟩
  | closed | listen | finWait1 | finWait2 | closing | lastAck | timeWait =>
    exact ⟨⟨h, rfl⟩, ⟨h, rfl⟩, ⟨h, rfl⟩⟩

/-! ### Runs -/

/-- **Every orderly event keeps a connection sound**, and moves `snd_una` as it may. -/
theorem Sound.step (h : c.Sound) {e : Call} (ho : c.Orderly e) :
    (c.step e).Sound ∧ c.AckMoves e := by
  cases e with
  | activeOpen =>
    obtain ⟨hsound, huna⟩ := h.activeOpen ho
    exact ⟨hsound, fun _ => .inl huna⟩
  | send => exact ⟨h.same ⟨rfl, rfl, rfl⟩ id (Decidable.em _).symm, fun _ => .inl rfl⟩
  | sendUrgent => exact ⟨h.sendUrgent ho, fun _ => .inl rfl⟩
  | output =>
    obtain ⟨hsound, huna⟩ := h.output ho
    exact ⟨hsound, fun _ => .inl huna⟩
  | localClose now =>
    obtain ⟨⟨hsound, huna⟩, -, -⟩ := h.closing now ho
    exact ⟨hsound, fun _ => .inl huna⟩
  | shutdownWrite now =>
    obtain ⟨-, ⟨hsound, huna⟩, -⟩ := h.closing now ho
    exact ⟨hsound, fun _ => .inl huna⟩
  | dropClose now =>
    obtain ⟨-, -, hsound, huna⟩ := h.closing now ho
    exact ⟨hsound, fun _ => .inl huna⟩
  | input seg env =>
  obtain ⟨hsound, hmoves⟩ := h.input ho
  refine ⟨hsound, fun hsync => (hmoves hsync).sndUna.imp id ?_⟩
  rintro ⟨hflag, hack, hpos, hle⟩
  exact ⟨seg, env, rfl, hflag, hack, hpos, hle⟩

theorem fresh_sound (state : TcpState) (hstate : state.opened = false) (isn : SeqNo) :
    (fresh state isn).Sound where
  half := by
    show (isn - isn).toNat < 2 ^ 31
    rw [BitVec.sub_self]
    decide
  idle := fun _ => rfl
  listening := fun _ => rfl
  queued := fun hopen => by
    rw [show (fresh state isn).state = state from rfl, hstate] at hopen
    cases hopen

/-- **The send sequence.**  For a client or a listener and every orderly run of calls and arriving
segments, the send sequence is in order in every synchronised state, and `snd_una` moves only to
acknowledgements of what was sent. -/
theorem sendSound_of_orderly (c : TcpConn) (hc : (∃ isn, c = newClient isn) ∨ c = newListener)
    (calls : List Call) (h : Run.Meets TcpConn.step Orderly c calls) :
    Run.Always TcpConn.step SendSound c calls ∧ Run.Meets TcpConn.step AckMoves c calls := by
  have hstart : c.Sound := by
    rcases hc with ⟨isn, rfl⟩ | rfl
    · exact fresh_sound .closed rfl isn
    · exact fresh_sound .listen rfl 0
  exact ⟨h.always (fun _ _ hs ho => (hs.step ho).1) hstart fun _ hs => hs.sendSound,
    h.imp (fun _ _ hs ho => hs.step ho) hstart⟩

/-! ### Runs of a client -/

/-- A segment without options. -/
def plain (flags : BitVec 8) (seq ack : SeqNo) (payload : List UInt8) : TcpSegment :=
  ⟨seq, ack, flags, 1000, 0, payload, none, none, none, false, []⟩

def quiet : TcpEnv := ⟨0, 0, 0, 14600⟩

/-- A client connects, sends three bytes and has two of them acknowledged. -/
def partlyAcked : List Call :=
  [.activeOpen 0, .input (plain (SYN ||| ACK) 500 101 []) quiet, .send [1, 2, 3],
    .output 1500 true false 10 0, .input (plain ACK 501 103 []) quiet]

theorem partlyAcked_sendSound :
    Run.Always TcpConn.step SendSound (newClient 100) partlyAcked ∧
      Run.Meets TcpConn.step AckMoves (newClient 100) partlyAcked :=
  sendSound_of_orderly _ (.inl ⟨100, rfl⟩) _
    ⟨fun _ => rfl, fun _ _ _ => by decide, trivial, (Nat.ble_eq.mp rfl : _ < _),
      fun _ _ _ => by decide, trivial⟩

/-- A client connects and closes. -/
def connectThenClose : List Call :=
  [.activeOpen 0, .input (plain (SYN ||| ACK) 500 101 []) quiet, .localClose 0]

/-- **A FIN takes up a number that the retransmit queue does not hold.** -/
theorem close_untiles : ¬ Run.Always TcpConn.step SendSound (newClient 100) connectThenClose := by
  intro h
  have hsync : (connectThenClose.foldl TcpConn.step (newClient 100)).state.synchronised = true := by
    decide
  have hwhole := (h.last hsync).2.whole
  cases hwhole

end TcpConn

end Oxide
