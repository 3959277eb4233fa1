/-
The accounting of message queues.

* `QueueState.Accounted`: the two counters are the number of queued messages and the sum of
  their lengths;
* `Call.Sound`: a call that returned an error, other than a fault of the copy out, left its queue
  as it was;
* `sendSection_sound_iff`, `recvSection_sound_iff`: what one section has to meet to keep both;
* `sound_iff_hooksAllow`: **a run keeps the accounts, and failed calls leave queues alone, exactly
  if no hook refuses a section that has already changed the queue**;
* `refusedReceive_loses`: the refused receiver has taken the message off, and the counters still
  count it.
-/
import Oxide.MsgQueue
import Oxide.Runs

namespace Oxide

open List MsgWorld

variable {c : Call} {q : MsgQueue} {b i o task : ℕ}

/-- The counters count the queued messages. -/
def QueueState.Accounted (s : QueueState) : Prop :=
  s.qnum = s.msgs.length ∧ s.cbytes = (s.msgs.map Msg.ts).sum

/-- A call that returned an error has not changed its queue. -/
def Call.Sound (c : Call) : Prop := ∀ e, c.state = .returned (.error e) → c.changed = false

/-- What holds of a call in any run: the payload has the length the caller gave, and a call that
is still at its loop has changed nothing. -/
def Call.Ok (c : Call) : Prop :=
  match c.state with
  | .sending a | .sendParked a => a.data.length = a.msgsz ∧ c.changed = false
  | .receiving _ | .recvParked _ => c.changed = false
  | _ => True

/-- What holds of a queue in any run: the counters count at least what is queued, within the
budget of a new queue. -/
structure QueueState.Ok (s : QueueState) : Prop where
  budget : s.qbytes = MSGMNB
  qnum : s.msgs.length ≤ s.qnum ∧ s.qnum ≤ MSGMNB
  cbytes : (s.msgs.map Msg.ts).sum ≤ s.cbytes ∧ s.cbytes ≤ MSGMNB

/-! ### Sending -/

/-- What a section of `msgsnd` has to meet: where there is room, the hooks agree, or the stamp
of the refused sender is the one already there. -/
def SendAllowed (q : MsgQueue) (a : SendArgs) (v : SendVerdicts) : Prop :=
  v.permitted = true → q.removed = false → q.state.fits a.msgsz = true →
    (v.send && v.enqueue) = true ∨ (q.state.lspid = v.tgid ∧ q.state.stime = v.now)

theorem wrapAdd_eq {a : ℕ} (h : a + b < 2 ^ 64) : wrapAdd a b = a + b := Nat.mod_eq_of_lt h

theorem wrapSub_eq {a : ℕ} (hab : b ≤ a) (ha : a < 2 ^ 64) : wrapSub a b = a - b := by
  unfold wrapSub
  have hsum : a + (2 ^ 64 - b) = 2 ^ 64 + (a - b) := by omega
  rw [hsum, Nat.add_mod_left]
  exact Nat.mod_eq_of_lt (by omega)

/-- Where a message fits the budget of a new queue, the counters do not wrap. -/
theorem fits_bounds {s : QueueState} {n : ℕ} (hb : s.qbytes = MSGMNB) (h : s.fits n = true) :
    s.cbytes + n ≤ MSGMNB ∧ s.qnum + 1 ≤ MSGMNB := by
  unfold QueueState.fits satAdd U64_MAX at h
  rw [Bool.and_eq_true, decide_eq_true_iff, decide_eq_true_iff, hb] at h
  unfold MSGMNB at *
  omega

variable {s : CallState}

/-- A call that goes on, or returns anything but an error, is sound. -/
theorem Call.sound_of_ne {b : Bool} (h : ∀ e, s ≠ .returned (.error e)) :
    (⟨s, b⟩ : Call).Sound := fun e he => absurd he (h e)

/-- A section that leads from `q` to `r` keeps the accounts, and leaves the queue if the call
returns an error. -/
def SectionSound (q : MsgQueue) (r : MsgQueue × CallState) : Prop :=
  r.1.state.Accounted ∧ (⟨r.2, decide (r.1.state ≠ q.state)⟩ : Call).Sound

theorem sectionSound_self (hq : q.state.Accounted) (s : CallState) : SectionSound q (q, s) := by
  refine ⟨hq, fun _ _ => ?_⟩
  exact decide_eq_false fun h => h rfl

variable {a : SendArgs}

/-- **One section of `msgsnd`.** -/
theorem sendSection_sound_iff {v : SendVerdicts} (hq : q.state.Accounted) (hok : q.state.Ok)
    (ha : a.data.length = a.msgsz) : SendAllowed q a v ↔ SectionSound q (sendSection q a v) := by
  have hleft := sectionSound_self hq
  unfold sendSection
  by_cases hp : v.permitted = true
  swap
  · rw [if_pos (by simpa using hp)]
    exact iff_of_true (fun h => absurd h hp) (hleft _)
  rw [if_neg (by simpa using hp)]
  by_cases hr : q.removed = true
  · rw [if_pos hr]
    exact iff_of_true (fun _ h => by rw [hr] at h; cases h) (hleft _)
  rw [if_neg hr]
  by_cases hf : q.state.fits a.msgsz = true
  swap
  · rw [if_neg hf]
    refine iff_of_true (fun _ _ h => absurd h hf) ?_
    split
    · exact hleft _
    · exact hleft _
  rw [if_pos hf]
  by_cases hv : (v.send && v.enqueue) = true
  · rw [if_neg (by simpa using hv)]
    refine iff_of_true (fun _ _ _ => .inl hv) ⟨⟨?_, ?_⟩, Call.sound_of_ne nofun⟩
    · obtain ⟨-, h2⟩ := fits_bounds hok.budget hf
      show wrapAdd q.state.qnum 1 = _
      unfold MSGMNB at h2
      rw [wrapAdd_eq (by omega), length_append, hq.1]
      rfl
    obtain ⟨h1, -⟩ := fits_bounds hok.budget hf
    show wrapAdd q.state.cbytes a.msgsz = _
    unfold MSGMNB at h1
    rw [wrapAdd_eq (by omega), map_append, sum_append, hq.2, ← ha]
    rfl
  -- refused: only the stamp can differ
  rw [if_pos (by simp only [hv, Bool.not_false])]
  have hstamp : ({ q.state with lspid := v.tgid, stime := v.now } ≠ q.state) ↔
      ¬ (q.state.lspid = v.tgid ∧ q.state.stime = v.now) := by
    rw [ne_eq, not_iff_not]
    constructor
    · intro h
      exact ⟨(congrArg QueueState.lspid h).symm, (congrArg QueueState.stime h).symm⟩
    · rintro ⟨h1, h2⟩
      rw [← h1, ← h2]
  constructor
  · intro h
    have hsame := (h hp (Bool.eq_false_iff.mpr hr) hf).resolve_left hv
    refine ⟨hq, fun e _ => ?_⟩
    exact decide_eq_false fun hne => hstamp.mp hne hsame
  rintro ⟨-, hs⟩ _ _ _
  have hun := hs _ rfl
  right
  by_contra hne
  exact of_decide_eq_false hun (hstamp.mpr hne)

/-! ### Receiving -/

/-- The message a section of `msgrcv` takes off the queue, if it comes to that. -/
def takes (q : MsgQueue) (a : RecvArgs) (v : RecvVerdicts) : Option ℕ :=
  if v.permitted && !q.removed then
    match (findMsg q.state.msgs a.msgtyp a.mode).1 with
    | some i => match q.state.msgs[i]? with
      | some m =>
        if (a.bufsz < m.ts && !hasFlag a.msgflg MSG_NOERROR) || hasFlag a.msgflg MSG_COPY then none
        else some i
      | none => none
    | none => none
  else none

/-- What a section of `msgrcv` has to meet: the hook agrees to a message that is taken off. -/
def RecvAllowed (q : MsgQueue) (a : RecvArgs) (v : RecvVerdicts) : Prop :=
  (takes q a v).isSome → v.receive = true

/-- A section that takes nothing leaves the queue, and any other is `recvTake`. -/
theorem recvSection_cases (q : MsgQueue) (a : RecvArgs) (v : RecvVerdicts) :
    (takes q a v = none ∧ ∃ s, recvSection q a v = (q, s) ∧ (⟨s, false⟩ : Call).Ok) ∨
      ∃ i m, takes q a v = some i ∧ q.state.msgs[i]? = some m ∧
        recvSection q a v = recvTake q a v i := by
  unfold takes recvSection
  by_cases hp : v.permitted = true
  swap
  · left
    rw [if_neg (by simp [hp]), if_pos (by simpa using hp)]
    exact ⟨rfl, _, rfl, trivial⟩
  by_cases hr : q.removed = true
  · left
    rw [if_neg (by simp [hr]), if_neg (by simpa using hp), if_pos hr]
    exact ⟨rfl, _, rfl, trivial⟩
  rw [if_pos (by simp [hp, hr]), if_neg (by simpa using hp), if_neg hr]
  cases hfind : findMsg q.state.msgs a.msgtyp a.mode with
  | mk found =>
  cases found with
  | none =>
    left
    refine ⟨rfl, ?_⟩
    dsimp only
    split
    · exact ⟨_, rfl, trivial⟩
    · exact ⟨_, rfl, rfl⟩
  | some i =>
  dsimp only
  cases hm : q.state.msgs[i]? with
  | none => exact .inl ⟨rfl, _, rfl, trivial⟩
  | some m =>
  dsimp only
  by_cases hbig : (a.bufsz < m.ts && !hasFlag a.msgflg MSG_NOERROR) = true
  · left
    rw [if_pos (by simp [hbig]), if_pos hbig]
    exact ⟨rfl, _, rfl, trivial⟩
  rw [if_neg hbig]
  by_cases hcopy : hasFlag a.msgflg MSG_COPY = true
  · left
    rw [if_pos (by simp [hcopy]), if_pos hcopy]
    refine ⟨rfl, ?_⟩
    unfold recvCopy
    split
    · exact ⟨_, rfl, trivial⟩
    split
    · exact ⟨_, rfl, trivial⟩
    split
    · exact ⟨_, rfl, trivial⟩
    · exact ⟨_, rfl, trivial⟩
  · right
    rw [if_neg (by simp [hbig, hcopy]), if_neg hcopy]
    exact ⟨i, m, rfl, hm, rfl⟩

/-- What a message that is taken off was worth to the two counters. -/
theorem eraseIdx_counts {ms : List Msg} {m : Msg} (h : ms[i]? = some m) :
    (ms.eraseIdx i).length + 1 = ms.length ∧
      m.ts + ((ms.eraseIdx i).map Msg.ts).sum = (ms.map Msg.ts).sum := by
  obtain ⟨hi, rfl⟩ := List.getElem?_eq_some_iff.mp h
  have hperm := getElem_cons_eraseIdx_perm hi
  exact ⟨hperm.length_eq, (hperm.map Msg.ts).sum_eq⟩

variable {v : RecvVerdicts}

/-- **One section of `msgrcv`.** -/
theorem recvSection_sound_iff {a : RecvArgs} (hq : q.state.Accounted) (hok : q.state.Ok) :
    RecvAllowed q a v ↔ SectionSound q (recvSection q a v) := by
  unfold RecvAllowed
  rcases recvSection_cases q a v with ⟨hnone, s, hs, -⟩ | ⟨i, m, hi, hm, hs⟩
  · rw [hnone, hs]
    exact iff_of_true nofun (sectionSound_self hq s)
  obtain ⟨hlen, hsum⟩ := eraseIdx_counts hm
  have hnum := hok.qnum.2
  have hbytes := hok.cbytes.2
  unfold MSGMNB at hnum hbytes
  rw [hi, hs, recvTake, hm]
  dsimp only
  by_cases hv : v.receive = true
  · rw [if_neg (by simpa using hv)]
    refine iff_of_true (fun _ => hv) ⟨⟨?_, ?_⟩, Call.sound_of_ne nofun⟩
    · show wrapSub q.state.qnum 1 = _
      have := hq.1
      rw [wrapSub_eq (by omega) (by omega), hq.1, ← hlen, Nat.add_sub_cancel]
    show wrapSub q.state.cbytes m.ts = ((q.state.msgs.eraseIdx i).map Msg.ts).sum
    have := hq.2
    rw [wrapSub_eq (by omega) (by omega)]
    omega
  -- refused: the message is gone and still counted
  rw [if_pos (by simpa using hv)]
  refine iff_of_false (fun h => hv (h rfl)) fun h => ?_
  have hcount : q.state.qnum = (q.state.msgs.eraseIdx i).length := h.1.1
  have := hq.1
  omega

/-! ### What holds in any run -/

theorem sendSection_ok {v : SendVerdicts} (h : q.state.Ok) (ha : a.data.length = a.msgsz) :
    (sendSection q a v).1.state.Ok ∧
      (⟨(sendSection q a v).2, decide ((sendSection q a v).1.state ≠ q.state)⟩ : Call).Ok := by
  unfold sendSection
  split
  · exact ⟨h, trivial⟩
  split
  · exact ⟨h, trivial⟩
  split
  case isTrue hf =>
    obtain ⟨h1, h2⟩ := fits_bounds h.budget hf
    have hnum := h.qnum.1
    have hbytes := h.cbytes.1
    split
    · exact ⟨⟨h.budget, h.qnum, h.cbytes⟩, trivial⟩
    refine ⟨⟨h.budget, ?_, ?_⟩, trivial⟩
    · show (q.state.msgs ++ [_]).length ≤ wrapAdd q.state.qnum 1 ∧ wrapAdd q.state.qnum 1 ≤ MSGMNB
      rw [wrapAdd_eq (by unfold MSGMNB at h2; omega), length_append, length_singleton]
      omega
    show ((q.state.msgs ++ [_]).map Msg.ts).sum ≤ wrapAdd q.state.cbytes a.msgsz ∧
      wrapAdd q.state.cbytes a.msgsz ≤ MSGMNB
    have hts : Msg.ts ⟨a.mtype, a.data, v.msgSid⟩ = a.msgsz := ha
    rw [wrapAdd_eq (by unfold MSGMNB at h1; omega), map_append, sum_append,
      map_singleton, sum_singleton]
    omega
  · split
    · exact ⟨h, trivial⟩
    · exact ⟨h, ha, decide_eq_false fun hne => hne rfl⟩

theorem recvTake_ok {a : RecvArgs} (h : q.state.Ok) :
    (recvTake q a v i).1.state.Ok ∧ ∀ b, (⟨(recvTake q a v i).2, b⟩ : Call).Ok := by
  unfold recvTake
  cases hm : q.state.msgs[i]? with
  | none => exact ⟨h, fun _ => trivial⟩
  | some m =>
  obtain ⟨hlen, hsum⟩ := eraseIdx_counts hm
  have hnum := h.qnum
  have hbytes := h.cbytes
  dsimp only
  split
  · refine ⟨⟨h.budget, ?_, ?_⟩, fun _ => trivial⟩
    · show (q.state.msgs.eraseIdx i).length ≤ q.state.qnum ∧ q.state.qnum ≤ MSGMNB
      omega
    · show ((q.state.msgs.eraseIdx i).map Msg.ts).sum ≤ q.state.cbytes ∧ q.state.cbytes ≤ MSGMNB
      omega
  refine ⟨⟨h.budget, ?_, ?_⟩, fun _ => trivial⟩
  · show (q.state.msgs.eraseIdx i).length ≤ wrapSub q.state.qnum 1 ∧ wrapSub q.state.qnum 1 ≤ MSGMNB
    rw [wrapSub_eq (by omega) (by unfold MSGMNB at hnum; omega)]
    omega
  show ((q.state.msgs.eraseIdx i).map Msg.ts).sum ≤ wrapSub q.state.cbytes m.ts ∧
    wrapSub q.state.cbytes m.ts ≤ MSGMNB
  rw [wrapSub_eq (by omega) (by unfold MSGMNB at hbytes; omega)]
  omega

theorem recvSection_ok {a : RecvArgs} (h : q.state.Ok) :
    (recvSection q a v).1.state.Ok ∧
      (⟨(recvSection q a v).2, decide ((recvSection q a v).1.state ≠ q.state)⟩ : Call).Ok := by
  rcases recvSection_cases q a v with ⟨-, s, hs, hok⟩ | ⟨i, m, -, -, hs⟩
  · rw [hs]
    have hsame : decide (q.state ≠ q.state) = false := decide_eq_false fun hne => hne rfl
    refine ⟨h, ?_⟩
    rwa [hsame]
  · rw [hs]
    exact ⟨(recvTake_ok h).1, (recvTake_ok h).2 _⟩

namespace MsgWorld

variable {w : MsgWorld}

/-- What holds in every state of any run. -/
structure Ok (w : MsgWorld) : Prop where
  queue : Table.All (fun q => q.state.Ok) w.queue
  call : Table.All Call.Ok w.call

/-- Whenever a lock is free: the counters of every queue are right, and no call that returned an
error has changed its queue. -/
structure Sound (w : MsgWorld) : Prop where
  queue : Table.All (fun q => q.state.Accounted) w.queue
  call : Table.All Call.Sound w.call

/-! ### One event -/

/-- What every call that does not go to its queue can come to. -/
theorem Ok.goOn (h : w.Ok) (hs : ({ c with state := s } : Call).Ok) :
    (w.goOn task c s).Ok :=
  ⟨h.queue, h.call.update hs⟩

theorem Sound.goOn (h : w.Sound) (hs : ∀ e, s ≠ .returned (.error e)) : (w.goOn task c s).Sound :=
  ⟨h.queue, h.call.update (Call.sound_of_ne hs)⟩

theorem Sound.enter (h : w.Sound) (r : Except IpcErrno CallState) : (w.enter task r).Sound := by
  cases r with
  | ok => exact ⟨h.queue, h.call.update fun _ _ => rfl⟩
  | error => exact ⟨h.queue, h.call.update fun _ _ => rfl⟩

theorem Ok.enter (h : w.Ok) {r : Except IpcErrno CallState}
    (hr : ∀ s, r = .ok s → (⟨s, false⟩ : Call).Ok) : (w.enter task r).Ok := by
  cases r with
  | ok s => exact ⟨h.queue, h.call.update (hr s rfl)⟩
  | error => exact ⟨h.queue, h.call.update trivial⟩

theorem msgsnd_length {mem : SendMemory} {msqid : Int} {msgsz : ℕ} {msgflg : BitVec 32}
    (h : w.msgsnd mem msqid msgsz msgflg = .ok a) : a.data.length = a.msgsz := by
  obtain ⟨t, -, h⟩ := Except.bind_eq_ok.mp h
  obtain ⟨-, h⟩ := Except.ite_error_eq_ok.mp h
  obtain ⟨-, h⟩ := Except.ite_error_eq_ok.mp h
  obtain ⟨-, h⟩ := Except.ite_error_eq_ok.mp h
  obtain ⟨-, h⟩ := Except.ite_error_eq_ok.mp h
  cases htext : mem.text with
  | none =>
    simp [htext] at h
  | some text =>
  rw [htext] at h
  obtain ⟨q, -, h⟩ := Except.bind_eq_ok.mp h
  cases h
  rw [length_map, length_range]

variable {f : MsgQueue → MsgQueue × CallState}

/-- A section keeps what holds in any run, if it does so for its queue and its call. -/
theorem Ok.onQueue (h : w.Ok) (hc : c.changed = false)
    (hf : ∀ q, q.state.Ok →
      (f q).1.state.Ok ∧ (⟨(f q).2, decide ((f q).1.state ≠ q.state)⟩ : Call).Ok) :
    (w.onQueue task c o f).Ok := by
  unfold MsgWorld.onQueue
  cases hq : w.queue o with
  | none => exact h
  | some q =>
  obtain ⟨hqueue, hcall⟩ := hf q (h.queue o q hq)
  refine ⟨h.queue.update hqueue, h.call.update ?_⟩
  rwa [hc]

/-- A section of a call that has changed nothing yet is sound exactly if it meets the condition
`C` that makes it so for its queue. -/
theorem Sound.onQueue_iff (h : w.Sound) (hc : c.changed = false) {C : MsgQueue → Prop}
    (hf : ∀ q, w.queue o = some q → (C q ↔ SectionSound q (f q))) :
    (∀ q, w.queue o = some q → C q) ↔ (w.onQueue task c o f).Sound := by
  unfold onQueue
  cases hq : w.queue o with
  | none => exact iff_of_true nofun h
  | some q =>
  have hsection := hf q hq
  show _ ↔ (w.leaveSection task c o q (f q)).Sound
  generalize f q = r at hsection ⊢
  have hchanged : (c.changed || decide (r.1.state ≠ q.state)) = decide (r.1.state ≠ q.state) := by
    rw [hc, Bool.false_or]
  constructor
  · intro hall
    obtain ⟨hqueue, hcall⟩ := hsection.mp (hall q rfl)
    rw [← hchanged] at hcall
    exact ⟨h.queue.update hqueue, h.call.update hcall⟩
  rintro ⟨hqueue, hcall⟩ q' hq'
  cases hq'
  have hnew := h.call.update_iff.mp hcall
  rw [hchanged] at hnew
  exact hsection.mpr ⟨h.queue.update_iff.mp hqueue, hnew⟩

theorem Ok.publish (h : w.Ok) (id : ℕ) (now : Int) : (w.publish id now).Ok := by
  unfold MsgWorld.publish
  split
  · exact h
  · exact ⟨h.queue.update ⟨rfl, ⟨le_rfl, Nat.zero_le _⟩, le_rfl, Nat.zero_le _⟩, h.call⟩

theorem Sound.publish (h : w.Sound) (id : ℕ) (now : Int) : (w.publish id now).Sound := by
  unfold MsgWorld.publish
  split
  · exact h
  · exact ⟨h.queue.update ⟨rfl, rfl⟩, h.call⟩

theorem Ok.callStep (h : w.Ok) (hc : c.Ok) (act : CallAct) : (w.callStep task c act).Ok := by
  obtain ⟨state, changed⟩ := c
  unfold callStep
  split
  case h_1 a v heq =>
    cases heq
    exact h.onQueue hc.2 fun q hq => sendSection_ok hq hc.1
  case h_2 a v heq =>
    cases heq
    exact h.onQueue hc fun q hq => recvSection_ok hq
  case h_3 a signal heq =>
    cases heq
    cases signal with
    | false => exact h.goOn hc
    | true => exact h.goOn trivial
  case h_4 a signal heq =>
    cases heq
    cases signal with
    | false => exact h.goOn hc
    | true => exact h.goOn trivial
  · exact h.goOn trivial
  case h_6 o heq =>
    -- the mark of a removal is not constrained
    unfold MsgWorld.onQueue
    cases hq : w.queue o with
    | none => exact h
    | some q =>
    have hempty : (freeque q).state.Ok :=
      ⟨(h.queue o q hq).budget, ⟨le_rfl, Nat.zero_le _⟩, le_rfl, Nat.zero_le _⟩
    exact ⟨h.queue.update hempty, h.call.update trivial⟩
  · exact h

/-- Every event keeps what holds in any run. -/
theorem Ok.step (h : w.Ok) (e : MsgEvent) : (w.step e).Ok := by
  cases e
  case msgget => exact h.publish ..
  all_goals
    dsimp only [MsgWorld.step]
    split
  case msgsnd.isTrue task mem msqid msgsz msgflg _ =>
    refine h.enter fun s hs => ?_
    cases hargs : w.msgsnd mem msqid msgsz msgflg <;> rw [hargs] at hs <;> cases hs
    exact ⟨msgsnd_length hargs, rfl⟩
  case msgrcv.isTrue task mem msqid bufsz msgtyp msgflg _ =>
    refine h.enter fun s hs => ?_
    cases hargs : w.msgrcv mem msqid bufsz msgtyp msgflg <;> rw [hargs] at hs <;> cases hs
    exact rfl
  case rmid.isTrue =>
    split
    · exact ⟨h.queue, h.call.update trivial⟩
    · exact h.enter nofun
  case h_1 task a _ c hc => exact h.callStep (h.call task c hc) a
  all_goals exact h

/-- **What an event has to meet**: no security hook refuses a section of `msgsnd` or `msgrcv` that
has changed the queue by then. -/
def HooksAllow (w : MsgWorld) : MsgEvent → Prop
  | .act task (.sendLocked v) => match w.call task with
    | some ⟨.sending a, _⟩ => ∀ q, w.queue a.queue = some q → SendAllowed q a v
    | _ => True
  | .act task (.recvLocked v) => match w.call task with
    | some ⟨.receiving a, _⟩ => ∀ q, w.queue a.queue = some q → RecvAllowed q a v
    | _ => True
  | _ => True

section

variable (hok : w.Ok) (h : w.Sound) (hcall : w.call task = some c)

include hok h hcall

theorem sendLocked_sound_iff (v : SendVerdicts) :
    w.HooksAllow (.act task (.sendLocked v)) ↔ (w.callStep task c (.sendLocked v)).Sound := by
  obtain ⟨state, changed⟩ := c
  have hc : Call.Ok ⟨state, changed⟩ := hok.call task _ hcall
  dsimp only [HooksAllow]
  rw [hcall]
  cases state
  case sending =>
    exact h.onQueue_iff hc.2 fun q hq =>
      sendSection_sound_iff (h.queue _ q hq) (hok.queue _ q hq) hc.1
  all_goals exact iff_of_true trivial h

theorem recvLocked_sound_iff (v : RecvVerdicts) :
    w.HooksAllow (.act task (.recvLocked v)) ↔ (w.callStep task c (.recvLocked v)).Sound := by
  obtain ⟨state, changed⟩ := c
  have hc : Call.Ok ⟨state, changed⟩ := hok.call task _ hcall
  dsimp only [HooksAllow]
  rw [hcall]
  cases state
  case receiving =>
    exact h.onQueue_iff hc fun q hq =>
      recvSection_sound_iff (h.queue _ q hq) (hok.queue _ q hq)
  all_goals exact iff_of_true trivial h

theorem callStep_sound_iff (act : CallAct) :
    w.HooksAllow (.act task act) ↔ (w.callStep task c act).Sound := by
  cases act with
  | sendLocked v => exact sendLocked_sound_iff hok h hcall v
  | recvLocked v => exact recvLocked_sound_iff hok h hcall v
  | resume signal =>
    refine iff_of_true trivial ?_
    obtain ⟨state, changed⟩ := c
    cases state
    case sendParked => exact h.goOn fun e => by cases signal <;> exact nofun
    case recvParked => exact h.goOn fun e => by cases signal <;> exact nofun
    all_goals exact h
  | fill =>
    refine iff_of_true trivial ?_
    obtain ⟨state, changed⟩ := c
    cases state
    case filling =>
      refine h.goOn fun e he => ?_
      unfold fill at he
      split at he
      · cases he
      split at he
      · cases he
      split at he
      · cases he
      · cases he
    all_goals exact h
  | freeque =>
  refine iff_of_true trivial ?_
  obtain ⟨state, changed⟩ := c
  cases state
  case freeing o =>
    show (w.onQueue task _ o _).Sound
    unfold onQueue
    cases hq : w.queue o with
    | none => exact h
    | some =>
      exact ⟨h.queue.update ⟨rfl, rfl⟩, h.call.update (Call.sound_of_ne nofun)⟩
  all_goals exact h

end

/-- **One event**: it is admissible exactly if it keeps the accounts and the atomicity. -/
theorem step_sound_iff (hok : w.Ok) (h : w.Sound) (e : MsgEvent) :
    w.HooksAllow e ↔ (w.step e).Sound := by
  cases e
  case msgget => exact iff_of_true trivial (h.publish ..)
  case act task a =>
    dsimp only [MsgWorld.step]
    cases hcall : w.call task with
    | some c => exact callStep_sound_iff hok h hcall a
    | none =>
    refine iff_of_true ?_ h
    cases a <;> dsimp only [HooksAllow]
    case sendLocked => rw [hcall]; trivial
    case recvLocked => rw [hcall]; trivial
  -- a call that starts moves no bytes
  all_goals
    refine iff_of_true trivial ?_
    dsimp only [MsgWorld.step]
    split
    case isFalse => exact h
  case rmid =>
    split
    · exact ⟨h.queue, h.call.update fun _ _ => rfl⟩
    · exact h.enter _
  all_goals exact h.enter _

theorem boot_ok : boot.Ok where
  queue := nofun
  call := nofun

theorem boot_sound : boot.Sound where
  queue := nofun
  call := nofun

/-- **Accounting and atomicity of message queues.**  In a run from boot the counters of every queue
are right and no failed call has changed its queue, in every state, exactly if every event finds a
state in which the hooks do not refuse what is already done. -/
theorem sound_iff_hooksAllow (events : List MsgEvent) :
    Run.Always step Sound boot events ↔ Run.Meets step HooksAllow boot events :=
  Run.always_iff_meets (fun _ e h => h.step e) (fun _ e hok h => step_sound_iff hok h e)
    boot_ok boot_sound

/-- **No queue outgrows its budget**, whatever the hooks answer and wherever memory faults: in every
state reached the counters count at least what is queued and at most what a new queue may hold. -/
theorem budget_kept (events : List MsgEvent) :
    Table.All (fun q => q.state.Ok) (events.foldl step boot).queue :=
  (Run.invariant (fun _ e h => h.step e) boot_ok).queue

/-- One message is sent; its receiver is refused by the hook. -/
def refusedReceive : List MsgEvent :=
  [.msgget 0 0, .msgsnd 1 ⟨4096, some 1, true, some fun _ => 7⟩ 0 1 0,
    .act 1 (.sendLocked ⟨true, 0, true, true, 1, 0⟩),
    .msgrcv 2 ⟨4096, true⟩ 0 1 0 0,
    .act 2 (.recvLocked ⟨true, true, false, 2, 0⟩)]

/-- **The refused receiver has taken the message off.**  It returns `EACCES`, no message is queued
and the counters still count one message of one byte. -/
theorem refusedReceive_loses :
    ((refusedReceive.foldl step boot).queue 0).map
        (fun q => (q.state.msgs, q.state.qnum, q.state.cbytes)) = some ([], 1, 1) ∧
      ((refusedReceive.foldl step boot).call 2).map
        (fun c => (c.state, c.changed)) = some (.returned (.error .eacces), true) ∧
      ¬ Run.Always step Sound boot refusedReceive := by
  refine ⟨rfl, rfl, fun h => ?_⟩
  have hcall : (refusedReceive.foldl step boot).call 2 =
      some ⟨.returned (.error .eacces), true⟩ := rfl
  exact Bool.noConfusion (h.last.call 2 _ hcall .eacces rfl)

end MsgWorld

end Oxide
