/-
Reassembly of a TCP stream.

The segments of a byte stream arrive in any order, with duplicates and overlaps. What has been
delivered is always a prefix of the stream that ends at `rcv_nxt`; what is retained beyond a gap is
clean only as long as the retained segments do not overlap and their raw numbers are in order.

* `Reassembled`: the bytes delivered are a prefix that ends at `rcv_nxt`, nothing retained contains
  it, begins there or lies below it, and nothing of the kind is reported by SACK;
* `Held`: the invariant of the retained segments, by their distance from `rcv_nxt`;
* `Tidy`: the arriving segment is within reach and overlaps nothing retained, and the retained
  numbers stay in sequence order;
* `reassembled_of_tidy`: **the stream is reassembled in every state of a tidy run**;
* `overlap_stays`: two overlapping segments after which a delivered byte is still retained.
-/
import Oxide.Runs
import Oxide.TcpConn

namespace Oxide

open TcpFlags List

/-! ### Distances from the next number expected -/

/-- How far ahead of `n` the raw number `k` is. -/
def ahead (n : SeqNo) (k : ℕ) : ℕ := (BitVec.ofNat 32 k - n).toNat

variable {n : SeqNo} {k δ : ℕ}

theorem ahead_eq_zero_iff (hk : k < 2 ^ 32) : ahead n k = 0 ↔ k = n.toNat := by
  rw [ahead, BitVec.toNat_sub, BitVec.toNat_ofNat]
  omega

/-- Moving on brings what is ahead nearer. -/
theorem ahead_add (h : δ ≤ ahead n k) : ahead (n + BitVec.ofNat 32 δ) k = ahead n k - δ := by
  unfold ahead at h ⊢
  simp only [BitVec.toNat_sub, BitVec.toNat_add, BitVec.toNat_ofNat] at h ⊢
  omega

/-- What is ahead comes later in sequence order. -/
theorem before_of_ahead (hpos : 0 < ahead n k) (hlt : ahead n k < 2 ^ 31) :
    Serial.before n (BitVec.ofNat 32 k) = true ∧ Serial.before (BitVec.ofNat 32 k) n = false := by
  have hhalf : Serial.InHalf n (BitVec.ofNat 32 k) := hlt
  exact (Serial.before_of_inHalf hhalf).imp (·.mpr hpos) id

/-- What comes next in a stream, and what comes after it. -/
theorem append_prefix_drop {s p q : List UInt8} {r : ℕ} (hp : p <+: s.drop r)
    (hq : q <+: s.drop (r + p.length)) : p ++ q <+: s.drop r := by
  obtain ⟨t, ht⟩ := hp
  rw [← drop_drop, ← ht, drop_left] at hq
  rw [← ht]
  exact (prefix_append_right_inj p).mpr hq

theorem ahead_toNat (n q : SeqNo) : ahead n q.toNat = (q - n).toNat := by
  rw [ahead, BitVec.ofNat_toNat, BitVec.setWidth_eq]

namespace TcpConn

/-! ### What is retained -/

/-- The retained segments hold bytes of the stream, at least `low` ahead and apart from each
other. -/
structure Held (stream : List UInt8) (r : ℕ) (n : SeqNo) (low : ℕ)
    (l : List (ℕ × OutOfOrderSegment)) : Prop where
  near : ∀ p ∈ l, low ≤ ahead n p.1 ∧ ahead n p.1 < 2 ^ 31 ∧ p.1 < 2 ^ 32
  short : ∀ p ∈ l, p.2.payload.length ≤ OOO_CAP
  slice : ∀ p ∈ l, p.2.payload ≠ [] ∧ p.2.payload <+: stream.drop (r + ahead n p.1)
  noFin : ∀ p ∈ l, p.2.fin = false
  apart : l.Pairwise fun p q => ahead n p.1 + p.2.payload.length ≤ ahead n q.1

variable {stream : List UInt8} {r low : ℕ} {l : List (ℕ × OutOfOrderSegment)}

theorem Held.nil : Held stream r n low [] :=
  ⟨nofun, nofun, nofun, nofun, List.Pairwise.nil⟩

variable {p : ℕ × OutOfOrderSegment}

theorem Held.tail (h : Held stream r n low (p :: l)) :
    Held stream r n low l where
  near := fun q hq => h.near q (mem_cons_of_mem p hq)
  short := fun q hq => h.short q (mem_cons_of_mem p hq)
  slice := fun q hq => h.slice q (mem_cons_of_mem p hq)
  noFin := fun q hq => h.noFin q (mem_cons_of_mem p hq)
  apart := (pairwise_cons.mp h.apart).2

/-- What is retained moves nearer when the stream moves on. -/
theorem Held.advance (h : Held stream r n low l) (hle : ∀ p ∈ l, δ ≤ ahead n p.1) :
    Held stream (r + δ) (n + BitVec.ofNat 32 δ) 0 l where
  near := fun p hp => by
    obtain ⟨-, hlt, hk⟩ := h.near p hp
    rw [ahead_add (hle p hp)]
    exact ⟨Nat.zero_le _, by omega, hk⟩
  short := h.short
  slice := fun p hp => by
    obtain ⟨hne, hpre⟩ := h.slice p hp
    have hpos := hle p hp
    rw [ahead_add hpos]
    have hsum : r + δ + (ahead n p.1 - δ) = r + ahead n p.1 := by omega
    rw [hsum]
    exact ⟨hne, hpre⟩
  noFin := h.noFin
  apart := by
    refine h.apart.imp_of_mem fun {p q} hp hq hpq => ?_
    rw [ahead_add (hle p hp), ahead_add (hle q hq)]
    have hp' := hle p hp
    omega

/-- If the first is not the one expected, none is. -/
theorem Held.strict (h : Held stream r n 0 (p :: l))
    (hp : p.1 ≠ n.toNat) : Held stream r n 1 (p :: l) := by
  have hpk := (h.near p mem_cons_self).2.2
  have hpos : 1 ≤ ahead n p.1 := Nat.one_le_iff_ne_zero.mpr fun h0 =>
    hp ((ahead_eq_zero_iff hpk).mp h0)
  refine { h with near := fun q hq => ⟨?_, (h.near q hq).2⟩ }
  rcases mem_cons.mp hq with rfl | hq
  · exact hpos
  · have := (pairwise_cons.mp h.apart).1 q hq
    omega

/-! ### The receive side of a connection -/

/-- Two connections agree on what their receive side holds. -/
structure SameReceive (c c' : TcpConn) : Prop where
  state : c'.state = c.state
  rcvNxt : c'.rcvNxt = c.rcvNxt
  recvBuf : c'.recvBuf = c.recvBuf
  oooBuf : c'.oooBuf = c.oooBuf
  oobConsumed : c'.oobConsumed = c.oobConsumed

variable {c c' c'' : TcpConn} {seg : TcpSegment} {env : TcpEnv}

theorem SameReceive.refl (c : TcpConn) : SameReceive c c := ⟨rfl, rfl, rfl, rfl, rfl⟩

theorem SameReceive.trans (h : SameReceive c c') (h' : SameReceive c' c'') : SameReceive c c'' :=
  ⟨h'.state.trans h.state, h'.rcvNxt.trans h.rcvNxt, h'.recvBuf.trans h.recvBuf,
    h'.oooBuf.trans h.oooBuf, h'.oobConsumed.trans h.oobConsumed⟩

theorem sameReceive_rcvAutotune (c : TcpConn) : SameReceive c c.rcvAutotune := by
  obtain ⟨_, _, _, h⟩ := c.rcvAutotune_eq
  rw [h]
  exact ⟨rfl, rfl, rfl, rfl, rfl⟩

theorem sameReceive_checkTimestamp (h : c.checkTimestamp seg = some c') : SameReceive c c' := by
  obtain ⟨_, rfl⟩ := checkTimestamp_eq h
  exact ⟨rfl, rfl, rfl, rfl, rfl⟩

theorem sameReceive_processAck (c : TcpConn) : SameReceive c (c.processAck seg env) := by
  unfold processAck advanceSndUna
  dsimp only
  split <;> exact ⟨rfl, rfl, rfl, rfl, rfl⟩

/-- Acknowledging does nothing to the state and to what is received. -/
theorem sameReceive_acked (c : TcpConn) (seg : TcpSegment) (env : TcpEnv) :
    SameReceive c (if seg.has ACK then c.processAck seg env else c) := by
  split
  · exact sameReceive_processAck c
  · exact .refl c

theorem sameReceive_respond (c : TcpConn) (seg : TcpSegment) (env : TcpEnv) :
    SameReceive c (c.respond seg false env).1 := by
  obtain ⟨_, _, h⟩ := c.respond_false_eq seg env
  rw [h]
  exact ⟨rfl, rfl, rfl, rfl, rfl⟩

/-! ### Delivering -/

theorem appendRecvPayload_of_none (h : c.oobConsumed = none) (seq : SeqNo) (payload : List UInt8) :
    c.appendRecvPayload seq payload = { c with recvBuf := c.recvBuf.pushPayload payload } := by
  have hhit : (List.range payload.length).find?
      (fun i => decide (c.oobConsumed = some (seq + BitVec.ofNat 32 i))) = none := by
    rw [h]
    simp
  rw [appendRecvPayload, hhit]

/-- What accepting a segment that is in order does to the receive side. -/
structure Accepted (c c' : TcpConn) (bytes : List UInt8) : Prop where
  state : c'.state = c.state
  rcvNxt : c'.rcvNxt = c.rcvNxt + BitVec.ofNat 32 bytes.length
  contents : c'.recvBuf.contents = c.recvBuf.contents ++ bytes
  oobConsumed : c'.oobConsumed = none

theorem accept_accepted (h : c.oobConsumed = none) (seq : SeqNo) (payload : List UInt8)
    (urgent : Option (SeqNo × UInt8)) :
    Accepted c (c.accept seq payload urgent) payload ∧
      (c.accept seq payload urgent).oooBuf = c.oooBuf := by
  rw [accept, appendRecvPayload_of_none h]
  cases urgent with
  | none => exact ⟨⟨rfl, rfl, RecvBuf.contents_pushPayload _ _, h⟩, rfl⟩
  | some => exact ⟨⟨rfl, rfl, RecvBuf.contents_pushPayload _ _, rfl⟩, rfl⟩

theorem Accepted.refl (h : c.oobConsumed = none) : Accepted c c [] where
  state := rfl
  rcvNxt := (BitVec.add_zero c.rcvNxt).symm
  contents := (append_nil _).symm
  oobConsumed := h

theorem Accepted.trans {bytes bytes' : List UInt8} (h : Accepted c c' bytes)
    (h' : Accepted c' c'' bytes') : Accepted c c'' (bytes ++ bytes') where
  state := h'.state.trans h.state
  rcvNxt := by
    rw [h'.rcvNxt, h.rcvNxt, length_append, BitVec.ofNat_add, BitVec.add_assoc]
  contents := by rw [h'.contents, h.contents, append_assoc]
  oobConsumed := h'.oobConsumed

/-- **Draining releases everything contiguous.** -/
theorem drain_held (c : TcpConn) (hl : c.oooBuf.entries = l)
    (h : Held stream r c.rcvNxt 0 l) (hoob : c.oobConsumed = none) :
    (c.drain l).2 = false ∧ ∃ bytes, bytes <+: stream.drop r ∧ Accepted c (c.drain l).1 bytes ∧
      Held stream (r + bytes.length) (c.drain l).1.rcvNxt 1 (c.drain l).1.oooBuf.entries := by
  induction l generalizing c r with
  | nil =>
    refine ⟨rfl, [], nil_prefix, .refl hoob, ?_⟩
    show Held stream r c.rcvNxt 1 c.oooBuf.entries
    rw [hl]
    exact .nil
  | cons p rest ih =>
  obtain ⟨k, s⟩ := p
  rw [drain]
  split
  case isTrue hne =>
    refine ⟨rfl, [], nil_prefix, .refl hoob, ?_⟩
    rw [hl]
    exact h.strict hne
  rename_i heq
  obtain ⟨-, -, hk⟩ := h.near _ mem_cons_self
  obtain ⟨-, hpre⟩ := h.slice _ mem_cons_self
  have hzero : ahead c.rcvNxt k = 0 := (ahead_eq_zero_iff hk).mpr (not_not.mp heq)
  have hfin : s.fin = false := h.noFin _ mem_cons_self
  -- the connection after the first segment has been taken in
  obtain ⟨hacc, hooo⟩ := accept_accepted (c := { c with oooBuf := c.oooBuf.erase k }) hoob
    c.rcvNxt s.payload s.urgent
  generalize hc1 : TcpConn.accept { c with oooBuf := c.oooBuf.erase k } c.rcvNxt s.payload
    s.urgent = c1 at hacc hooo ⊢
  have hl1 : c1.oooBuf.entries = rest := by
    rw [hooo]
    exact OrdMap.entries_erase_head hl
  have hheld : Held stream (r + s.payload.length) c1.rcvNxt 0 rest := by
    rw [hacc.rcvNxt]
    refine h.tail.advance fun q hq => ?_
    exact Nat.le_trans (Nat.le_add_left _ _) ((pairwise_cons.mp h.apart).1 q hq)
  obtain ⟨hno, bytes, hbytes, hacc', hheld'⟩ := ih c1 hl1 hheld hacc.oobConsumed
  rw [hfin]
  refine ⟨hno, s.payload ++ bytes, ?_, Accepted.trans ⟨hacc.state, hacc.rcvNxt, hacc.contents,
    hacc.oobConsumed⟩ hacc', ?_⟩
  · rw [hzero] at hpre
    exact append_prefix_drop hpre hbytes
  · rwa [length_append, ← Nat.add_assoc]

/-! ### Retaining -/

/-- **A segment is retained apart from the others**, in sequence order. -/
theorem Held.insert {m : OrdMap ℕ OutOfOrderSegment} (h : Held stream r n 1 m.entries)
    {s : OutOfOrderSegment} (hk : k < 2 ^ 32) (hpos : 0 < ahead n k) (hlt : ahead n k < 2 ^ 31)
    (hshort : s.payload.length ≤ OOO_CAP) (hne : s.payload ≠ [])
    (hslice : s.payload <+: stream.drop (r + ahead n k)) (hfin : s.fin = false)
    (hapart : ∀ p ∈ m.entries, ahead n k + s.payload.length ≤ ahead n p.1 ∨
      ahead n p.1 + p.2.payload.length ≤ ahead n k)
    (horder : ∀ p ∈ m.entries, (p.1 < k ↔ ahead n p.1 < ahead n k)) :
    Held stream r n 1 (m.insert k s).entries := by
  -- an entry of the new map is the new one or an old one
  have hmem : ∀ p ∈ (m.insert k s).entries, p = (k, s) ∨ p ∈ m.entries := by
    rintro ⟨k', s'⟩ hp
    have hget := OrdMap.get?_eq_some_iff_mem.mpr hp
    rcases OrdMap.of_get?_insert hget with ⟨rfl, rfl⟩ | ⟨-, hget⟩
    · exact .inl rfl
    · exact .inr (OrdMap.get?_eq_some_iff_mem.mp hget)
  have hall : ∀ {P : ℕ × OutOfOrderSegment → Prop}, P (k, s) → (∀ p ∈ m.entries, P p) →
      ∀ p ∈ (m.insert k s).entries, P p := by
    intro P hnew hold p hp
    rcases hmem p hp with rfl | hp
    · exact hnew
    · exact hold p hp
  refine ⟨hall ⟨hpos, hlt, hk⟩ h.near, hall hshort h.short, hall ⟨hne, hslice⟩ h.slice,
    hall hfin h.noFin, ?_⟩
  · refine pairwise_append.mpr
      ⟨h.apart.filter _, pairwise_cons.mpr ⟨?_, h.apart.filter _⟩, ?_⟩
    · rintro p hp
      obtain ⟨hin, hgt⟩ := mem_filter.mp hp
      have hnot : ¬ ahead n p.1 < ahead n k := fun hlt' =>
        absurd ((horder p hin).mpr hlt') (Nat.not_lt.mpr (Nat.le_of_lt (of_decide_eq_true hgt)))
      rcases hapart p hin with hle | hle
      · exact hle
      · have hs' := length_pos_iff.mpr (h.slice p hin).1
        omega
    intro p1 hp1 p2 hp2
    obtain ⟨hin1, hlt1⟩ := mem_filter.mp hp1
    have hlt1' : ahead n p1.1 < ahead n k := (horder p1 hin1).mp (of_decide_eq_true hlt1)
    have hle1 : ahead n p1.1 + p1.2.payload.length ≤ ahead n k := by
      rcases hapart p1 hin1 with hle | hle
      · omega
      · exact hle
    rcases mem_cons.mp hp2 with rfl | hp2
    · exact hle1
    obtain ⟨hin2, hgt2⟩ := mem_filter.mp hp2
    have hnot : ¬ ahead n p2.1 < ahead n k := fun hlt' =>
      absurd ((horder p2 hin2).mpr hlt')
        (Nat.not_lt.mpr (Nat.le_of_lt (of_decide_eq_true hgt2)))
    omega

/-! ### One segment -/

/-- The receive side of a connection that has received `r` bytes of the stream. -/
structure Receiving (stream : List UInt8) (isn : SeqNo) (r : ℕ) (c : TcpConn) : Prop where
  established : c.state = .established
  rcvNxt : c.rcvNxt = isn + BitVec.ofNat 32 r
  held : Held stream r c.rcvNxt 1 c.oooBuf.entries
  oob : c.oobConsumed = none

theorem Receiving.same {isn : SeqNo} (h : Receiving stream isn r c) (hs : SameReceive c c') :
    Receiving stream isn r c' := by
  refine ⟨hs.state.trans h.established, hs.rcvNxt.trans h.rcvNxt, ?_, hs.oobConsumed.trans h.oob⟩
  rw [hs.rcvNxt, hs.oooBuf]
  exact h.held

/-- The segment is a slice of the stream, from offset `off` on. -/
structure IsSlice (stream : List UInt8) (isn : SeqNo) (off : ℕ) (seg : TcpSegment) : Prop where
  seq : seg.seq = isn + BitVec.ofNat 32 off
  payload : seg.payload <+: stream.drop off
  noFin : seg.has FIN = false
  noRst : seg.has RST = false

/-- The arriving segment is within reach of the bytes received, and if it is taken in or retained it
overlaps nothing retained and its raw number is in sequence order with those retained. -/
structure Fits (c : TcpConn) (r off : ℕ) (seg : TcpSegment) : Prop where
  reach : off < r + 2 ^ 32 ∧ r ≤ off + 2 ^ 31
  apart : seg.seq = c.rcvNxt ∨ c.retains seg = true → ∀ p ∈ c.oooBuf.entries,
    ahead c.rcvNxt seg.seq.toNat + seg.payload.length ≤ ahead c.rcvNxt p.1 ∨
      ahead c.rcvNxt p.1 + p.2.payload.length ≤ ahead c.rcvNxt seg.seq.toNat
  order : c.retains seg = true → ∀ p ∈ c.oooBuf.entries,
    (p.1 < seg.seq.toNat ↔ ahead c.rcvNxt p.1 < ahead c.rcvNxt seg.seq.toNat)

variable {isn : SeqNo} {off : ℕ}

/-- What the receive side makes of one slice: it goes on by some bytes of the stream. -/
structure Received (stream : List UInt8) (isn : SeqNo) (r : ℕ) (c c' : TcpConn)
    (bytes : List UInt8) : Prop where
  next : bytes <+: stream.drop r
  contents : c'.recvBuf.contents = c.recvBuf.contents ++ bytes
  receiving : Receiving stream isn (r + bytes.length) c'

section

variable (h : Receiving stream isn r c)
include h

theorem Receiving.received_nil (hs : SameReceive c c') : Received stream isn r c c' [] where
  next := nil_prefix
  contents := by rw [hs.recvBuf, append_nil]
  receiving := h.same hs

variable (hslice : IsSlice stream isn off seg)
include hslice

/-- A slice in order is delivered, with everything contiguous that was retained. -/
theorem Receiving.inOrder (hfits : Fits c r off seg) (hseq : seg.seq = c.rcvNxt) :
    let c1 := c.accept seg.seq seg.payload (urgentByte seg)
    (c1.drain c1.oooBuf.entries).2 = false ∧
      ∃ bytes, Received stream isn r c (c1.drain c1.oooBuf.entries).1 bytes := by
  obtain ⟨hacc, hooo⟩ := accept_accepted h.oob seg.seq seg.payload (urgentByte seg)
  generalize c.accept seg.seq seg.payload (urgentByte seg) = c1 at hacc hooo ⊢
  -- the offset of the slice is the number of bytes received
  have hoff : off = r := by
    have heq : isn + BitVec.ofNat 32 off = isn + BitVec.ofNat 32 r := by
      rw [← hslice.seq, hseq, h.rcvNxt]
    have hnat := congrArg BitVec.toNat heq
    obtain ⟨h1, h2⟩ := hfits.reach
    simp only [BitVec.toNat_add, BitVec.toNat_ofNat] at hnat
    omega
  have hbase : ahead c.rcvNxt seg.seq.toNat = 0 := by
    rw [hseq, ahead_toNat, BitVec.sub_self]
    rfl
  have hheld : Held stream (r + seg.payload.length) c1.rcvNxt 0 c1.oooBuf.entries := by
    rw [hacc.rcvNxt, hooo]
    refine h.held.advance fun p hp => ?_
    have hpos := (h.held.near p hp).1
    rcases hfits.apart (.inl hseq) p hp with hle | hle
    · omega
    · omega
  obtain ⟨hno, bytes, hbytes, hacc', hheld'⟩ := drain_held c1 rfl hheld hacc.oobConsumed
  have hall := hacc.trans hacc'
  refine ⟨hno, seg.payload ++ bytes, ?_, hall.contents, ?_⟩
  · exact append_prefix_drop (hoff ▸ hslice.payload) hbytes
  refine ⟨hall.state.trans h.established, ?_, ?_, hall.oobConsumed⟩
  · rw [hall.rcvNxt, h.rcvNxt, BitVec.ofNat_add, BitVec.add_assoc]
  · rwa [length_append, ← Nat.add_assoc]

/-- A slice beyond a gap is retained. -/
theorem Receiving.retain (hfits : Fits c r off seg) (hne : seg.payload ≠ [])
    (hret : c.retains seg = true) (urgent : Option (SeqNo × UInt8)) :
    Receiving stream isn r { c with
      oooBuf := c.oooBuf.insert seg.seq.toNat ⟨seg.payload, urgent, seg.has FIN⟩ } := by
  have hcond := hret
  simp only [retains, Bool.and_eq_true] at hcond
  obtain ⟨⟨⟨hmsb, hdiff⟩, hroom⟩, -⟩ := hcond
  have hdist : ahead c.rcvNxt seg.seq.toNat = (seg.seq - c.rcvNxt).toNat := ahead_toNat _ _
  have hlt : (seg.seq - c.rcvNxt).toNat < 2 ^ 31 := by
    have hmsb' : (seg.seq - c.rcvNxt).msb = false := by simpa using hmsb
    rw [BitVec.msb_eq_false_iff_two_mul_lt] at hmsb'
    omega
  have hpos : 0 < (seg.seq - c.rcvNxt).toNat := by
    have hne' : seg.seq - c.rcvNxt ≠ 0 := by simpa using hdiff
    exact Nat.pos_of_ne_zero fun h0 => hne' (BitVec.eq_of_toNat_eq h0)
  -- the slice is as far ahead as its number says
  have hoff : off = r + (seg.seq - c.rcvNxt).toNat := by
    obtain ⟨h1, h2⟩ := hfits.reach
    rw [hslice.seq, h.rcvNxt] at hlt hpos ⊢
    simp only [BitVec.toNat_sub, BitVec.toNat_add, BitVec.toNat_ofNat] at hlt hpos ⊢
    omega
  refine ⟨h.established, h.rcvNxt, ?_, h.oob⟩
  have hshort : seg.payload.length ≤ OOO_CAP :=
    Nat.le_trans (Nat.le_add_left _ _) (of_decide_eq_true hroom)
  refine h.held.insert seg.seq.isLt (hdist ▸ hpos) (hdist ▸ hlt) hshort hne ?_ hslice.noFin
    (hfits.apart (.inr hret)) (hfits.order hret)
  rw [hdist, ← hoff]
  exact hslice.payload

theorem Receiving.receiveData (hfits : seg.payload ≠ [] → Fits c r off seg) :
    (c.receiveData seg).2 = false ∧
      ∃ bytes, Received stream isn r c (c.receiveData seg).1 bytes := by
  unfold TcpConn.receiveData
  dsimp only
  rw [hslice.noFin]
  by_cases hnil : seg.payload = []
  · rw [if_pos ⟨hnil, rfl⟩]
    exact ⟨rfl, [], h.received_nil (.refl c)⟩
  rw [if_neg fun hand => hnil hand.1]
  by_cases hseq : seg.seq = c.rcvNxt
  · rw [if_pos hseq, if_neg Bool.false_ne_true]
    obtain ⟨hno, bytes, hrec⟩ := h.inOrder hslice (hfits hnil) hseq
    have htune := sameReceive_rcvAutotune
      ((c.accept seg.seq seg.payload (urgentByte seg)).drain
        (c.accept seg.seq seg.payload (urgentByte seg)).oooBuf.entries).1
    refine ⟨hno, bytes, hrec.next, ?_, hrec.receiving.same htune⟩
    rw [htune.recvBuf]
    exact hrec.contents
  rw [if_neg hseq]
  by_cases hret : c.retains seg = true
  · rw [if_pos hret]
    have hrec := h.retain hslice (hfits hnil) hnil hret (urgentByte seg)
    rw [hslice.noFin] at hrec
    exact ⟨rfl, [], nil_prefix, (append_nil _).symm, hrec⟩
  · rw [if_neg hret]
    exact ⟨rfl, [], h.received_nil (.refl c)⟩

end

theorem Fits.same (h : Fits c r off seg) (hs : SameReceive c c') : Fits c' r off seg := by
  have hret : c'.retains seg = c.retains seg := by
    unfold retains oooUsed
    rw [hs.rcvNxt, hs.oooBuf]
  refine ⟨h.reach, ?_, ?_⟩
  · rw [hret, hs.rcvNxt, hs.oooBuf]
    exact h.apart
  · rw [hret, hs.rcvNxt, hs.oooBuf]
    exact h.order

theorem Receiving.inputTimely (h : Receiving stream isn r c) (hslice : IsSlice stream isn off seg)
    (hfits : seg.payload ≠ [] → Fits c r off seg) (env : TcpEnv) :
    ∃ bytes, Received stream isn r c (c.inputTimely seg env).1 bytes := by
  unfold TcpConn.inputTimely
  split
  · exact ⟨[], h.received_nil (.refl c)⟩
  obtain ⟨hno, bytes, hrec⟩ := h.receiveData hslice hfits
  dsimp only
  rw [hno]
  have hend := (sameReceive_acked (c.receiveData seg).1 seg env).trans
    (sameReceive_respond _ seg env)
  refine ⟨bytes, hrec.next, ?_, hrec.receiving.same hend⟩
  rw [hend.recvBuf, hrec.contents]

/-- **A slice that fits goes into the stream.** -/
theorem Receiving.input (h : Receiving stream isn r c) (hslice : IsSlice stream isn off seg)
    (hfits : seg.payload ≠ [] → Fits c r off seg) (env : TcpEnv) :
    ∃ bytes, Received stream isn r c (c.input seg env).1 bytes := by
  have honce : c.state ≠ .synRecv := by
    rw [h.established]
    nofun
  rw [input_of_ne_synRecv honce, inputWithHeader_established h.established hslice.noRst]
  show ∃ bytes, Received stream isn r c (c.inputData seg env).1 bytes
  unfold inputData
  split
  · exact ⟨[], h.received_nil (.refl c)⟩
  rename_i c0 htime
  -- the timestamp and the window are not the receive side's
  have hsame : SameReceive c (c0.updateWindow seg) :=
    (sameReceive_checkTimestamp htime).trans ⟨rfl, rfl, rfl, rfl, rfl⟩
  obtain ⟨bytes, hrec⟩ := (h.same hsame).inputTimely hslice
    (fun hne => (hfits hne).same hsame) env
  refine ⟨bytes, hrec.next, ?_, hrec.receiving⟩
  rw [hrec.contents, hsame.recvBuf]

/-! ### What is reported -/

variable {b : SackBlock}

/-- A block begins at a retained segment. -/
theorem collapse_left (left right : SeqNo) (l : List (ℕ × OutOfOrderSegment))
    (hb : b ∈ collapse left right l) : b.left = left ∨ ∃ p ∈ l, b.left = BitVec.ofNat 32 p.1 := by
  induction l generalizing left right with
  | nil =>
    rw [collapse, mem_singleton] at hb
    exact .inl (congrArg SackBlock.left hb)
  | cons p rest ih =>
  obtain ⟨k, s⟩ := p
  rw [collapse] at hb
  split at hb
  · rcases ih _ _ hb with h | ⟨q, hq, h⟩
    · exact .inl h
    · exact .inr ⟨q, mem_cons_of_mem _ hq, h⟩
  rcases mem_cons.mp hb with rfl | hb
  · exact .inl rfl
  · rcases ih _ _ hb with h | ⟨q, hq, h⟩
    · exact .inr ⟨(k, s), mem_cons_self, h⟩
    · exact .inr ⟨q, mem_cons_of_mem _ hq, h⟩

theorem sackBlocks_left (hb : b ∈ c.sackBlocks) :
    ∃ p ∈ c.oooBuf.entries, b.left = BitVec.ofNat 32 p.1 := by
  unfold sackBlocks at hb
  split at hb
  · cases hb
  rename_i k s rest hentries
  rw [hentries]
  rcases collapse_left _ _ _ (mem_of_mem_take hb) with h | ⟨q, hq, h⟩
  · exact ⟨(k, s), mem_cons_self, h⟩
  · exact ⟨q, mem_cons_of_mem _ hq, h⟩

end TcpConn

/-! ### Runs -/

/-- A connection that receives a stream, and the bytes its reader has taken. -/
structure TcpReceiver where
  conn : TcpConn
  taken : List UInt8

namespace TcpReceiver

/-- A segment that is the slice of the stream at an offset, or a read. -/
inductive Event
  | segment (off : ℕ) (seg : TcpSegment) (env : TcpEnv)
  | read (max : ℕ)

def step (w : TcpReceiver) : Event → TcpReceiver
  | .segment _ seg env => { w with conn := (w.conn.input seg env).1 }
  | .read max => ⟨(w.conn.recv max).1, w.taken ++ (w.conn.recv max).2⟩

/-- The bytes delivered so far, read or still unread. -/
def delivered (w : TcpReceiver) : List UInt8 := w.taken ++ w.conn.recvBuf.contents

/-- **The stream is reassembled.** -/
structure Reassembled (stream : List UInt8) (isn : SeqNo) (w : TcpReceiver) : Prop where
  /-- What is delivered is a prefix of the stream. -/
  isPrefix : w.delivered <+: stream
  /-- It ends at the next number expected. -/
  rcvNxt : w.conn.rcvNxt = isn + BitVec.ofNat 32 w.delivered.length
  /-- No retained segment begins at the next number expected or contains it. -/
  notAt : ∀ p ∈ w.conn.oooBuf.entries, BitVec.ofNat 32 p.1 ≠ w.conn.rcvNxt ∧
    ¬ (w.conn.rcvNxt - BitVec.ofNat 32 p.1).toNat < p.2.payload.length
  /-- No retained segment lies wholly below it. -/
  notBelow : ∀ p ∈ w.conn.oooBuf.entries,
    ¬ (Serial.before (BitVec.ofNat 32 p.1) w.conn.rcvNxt = true ∧ Serial.before w.conn.rcvNxt
      (BitVec.ofNat 32 p.1 + BitVec.ofNat 32 p.2.payload.length) = false)
  /-- What is reported by SACK begins above it. -/
  sacks : ∀ b ∈ w.conn.sackBlocks, Serial.before w.conn.rcvNxt b.left = true

/-- The segments of a run are slices of the stream. -/
def Slices (stream : List UInt8) (isn : SeqNo) : Event → Prop
  | .segment off seg _ => TcpConn.IsSlice stream isn off seg
  | .read _ => True

/-- An arriving segment that carries bytes fits what has been received and retained. -/
def Tidy (w : TcpReceiver) : Event → Prop
  | .segment off seg _ => seg.payload ≠ [] → TcpConn.Fits w.conn w.delivered.length off seg
  | .read _ => True

/-- A connection at the start of the stream. -/
structure AtStart (isn : SeqNo) (w : TcpReceiver) : Prop where
  established : w.conn.state = .established
  rcvNxt : w.conn.rcvNxt = isn
  noBytes : w.delivered = []
  nothingHeld : w.conn.oooBuf = .empty
  oob : w.conn.oobConsumed = none

/-- The invariant of a run. -/
structure Streaming (stream : List UInt8) (isn : SeqNo) (w : TcpReceiver) : Prop where
  isPrefix : w.delivered <+: stream
  receiving : TcpConn.Receiving stream isn w.delivered.length w.conn

variable {stream : List UInt8} {isn : SeqNo} {w : TcpReceiver}

theorem AtStart.streaming (h : AtStart isn w) : Streaming stream isn w := by
  refine ⟨h.noBytes ▸ nil_prefix, h.established, ?_, ?_, h.oob⟩
  · rw [h.rcvNxt, h.noBytes]
    exact (BitVec.add_zero isn).symm
  · rw [h.nothingHeld]
    exact .nil

theorem Streaming.step (h : Streaming stream isn w) {e : Event} (hslice : Slices stream isn e)
    (htidy : w.Tidy e) : Streaming stream isn (w.step e) := by
  cases e with
  | segment off seg env =>
    obtain ⟨bytes, hrec⟩ := h.receiving.input hslice htidy env
    have hdel : (w.step (.segment off seg env)).delivered = w.delivered ++ bytes := by
      show w.taken ++ (w.conn.input seg env).1.recvBuf.contents = _
      rw [hrec.contents, ← append_assoc]
      rfl
    constructor
    · rw [hdel]
      exact append_prefix_drop (r := 0) h.isPrefix (by simpa using hrec.next)
    · rw [hdel, length_append]
      exact hrec.receiving
  | read max =>
  -- what is read moves from the buffer to the reader
  have hdel : (w.step (.read max)).delivered = w.delivered := by
    show (w.taken ++ w.conn.recvBuf.bytes 0 _) ++
      (w.conn.recvBuf.consume (w.conn.recvBuf.bytes 0 _).length).contents = _
    rw [RecvBuf.contents_consume, RecvBuf.bytes_eq, drop_zero, append_assoc,
      length_take, RecvBuf.length_contents]
    rw [Nat.min_eq_left (Nat.min_le_right _ _), take_append_drop]
    rfl
  refine ⟨hdel ▸ h.isPrefix, ?_⟩
  rw [hdel]
  exact ⟨h.receiving.established, h.receiving.rcvNxt, h.receiving.held, h.receiving.oob⟩

theorem Streaming.reassembled (h : Streaming stream isn w) : Reassembled stream isn w where
  isPrefix := h.isPrefix
  rcvNxt := h.receiving.rcvNxt
  notAt := fun p hp => by
    obtain ⟨hpos, hlt, -⟩ := h.receiving.held.near p hp
    have hshort := h.receiving.held.short p hp
    unfold ahead at hpos hlt
    unfold OOO_CAP at hshort
    constructor
    · intro heq
      rw [heq, BitVec.sub_self] at hpos
      cases hpos
    · simp only [BitVec.toNat_sub] at hpos hlt ⊢
      omega
  notBelow := fun p hp hand => by
    obtain ⟨hpos, hlt, -⟩ := h.receiving.held.near p hp
    rw [(before_of_ahead hpos hlt).2] at hand
    cases hand.1
  sacks := fun b hb => by
    obtain ⟨p, hp, hleft⟩ := TcpConn.sackBlocks_left hb
    obtain ⟨hpos, hlt, -⟩ := h.receiving.held.near p hp
    rw [hleft]
    exact (before_of_ahead hpos hlt).1

/-- **Reassembly.**  The slices of a stream arrive in any order at a connection in the data transfer
phase, and its reader reads at any time.  If every arriving slice fits, the stream is reassembled in
every state of the run. -/
theorem reassembled_of_tidy (stream : List UInt8) (isn : SeqNo) (w : TcpReceiver)
    (events : List Event) (hstart : AtStart isn w) (hslices : ∀ e ∈ events, Slices stream isn e)
    (htidy : Run.Meets TcpReceiver.step Tidy w events) :
    Run.Always TcpReceiver.step (Reassembled stream isn) w events := by
  have hinv : Streaming stream isn w := hstart.streaming
  clear hstart
  induction events generalizing w with
  | nil => exact hinv.reassembled
  | cons e events ih =>
  refine ⟨hinv.reassembled, ih (w.step e) ?_ htidy.2 ?_⟩
  · exact fun e' he' => hslices e' (mem_cons_of_mem e he')
  · exact hinv.step (hslices e mem_cons_self) htidy.1

/-! ### Runs on a small stream -/

/-- The slice of a stream at an offset. -/
def slice (stream : List UInt8) (isn : SeqNo) (off len : ℕ) : TcpSegment :=
  ⟨isn + BitVec.ofNat 32 off, 0, ACK, 1000, 0, (stream.drop off).take len, none, none, none, false,
    []⟩

def env0 : TcpEnv := ⟨0, 0, 0, 14600⟩

/-- A connection that expects `isn`. -/
def ready (isn : SeqNo) : TcpReceiver :=
  ⟨{ TcpConn.fresh .established 0 with rcvNxt := isn, rcvReadSeq := isn }, []⟩

def abcd : List UInt8 := [97, 98, 99, 100]

/-- The stream crosses the end of the number space, and its second half comes first. -/
def halvesSwapped : List Event :=
  [.segment 2 (slice abcd 0xfffffffe 2 2) env0, .segment 0 (slice abcd 0xfffffffe 0 2) env0,
    .read 4]

theorem halvesSwapped_reassembled :
    Run.Always TcpReceiver.step (Reassembled abcd 0xfffffffe) (ready 0xfffffffe) halvesSwapped := by
  refine reassembled_of_tidy abcd 0xfffffffe _ _ ⟨rfl, rfl, rfl, rfl, rfl⟩ ?_ ?_
  · intro e he
    simp only [halvesSwapped, mem_cons, not_mem_nil, or_false] at he
    rcases he with rfl | rfl | rfl
    · exact ⟨rfl, ⟨[], rfl⟩, by decide, by decide⟩
    · exact ⟨rfl, ⟨[99, 100], rfl⟩, by decide, by decide⟩
    · trivial
  · exact ⟨fun _ => ⟨by decide, by decide, by decide⟩, fun _ => ⟨by decide, by decide, by decide⟩,
      trivial, trivial⟩

/-- The last two bytes come first, then the first three. -/
def overlapping : List Event :=
  [.segment 2 (slice abcd 0 2 2) env0, .segment 0 (slice abcd 0 0 3) env0]

/-- **A retained segment that overlaps the one that fills the gap stays**: the least number retained
is no longer the one expected. -/
theorem overlap_stays :
    (∀ e ∈ overlapping, Slices abcd 0 e) ∧ AtStart 0 (ready 0) ∧
      ¬ Run.Always TcpReceiver.step (Reassembled abcd 0) (ready 0) overlapping := by
  refine ⟨?_, ⟨rfl, rfl, rfl, rfl, rfl⟩, fun h => ?_⟩
  · intro e he
    simp only [overlapping, mem_cons, not_mem_nil, or_false] at he
    rcases he with rfl | rfl
    · exact ⟨rfl, ⟨[], rfl⟩, by decide, by decide⟩
    · exact ⟨rfl, ⟨[100], rfl⟩, by decide, by decide⟩
  have hcontains : ∃ p ∈ (overlapping.foldl TcpReceiver.step (ready 0)).conn.oooBuf.entries,
      ((overlapping.foldl TcpReceiver.step (ready 0)).conn.rcvNxt - BitVec.ofNat 32 p.1).toNat <
        p.2.payload.length := by decide
  obtain ⟨p, hp, hlt⟩ := hcontains
  exact (h.last.notAt p hp).2 hlt

end TcpReceiver

end Oxide
