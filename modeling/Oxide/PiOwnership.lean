/-
Ownership of priority-inheritance futexes: the invariant.

The user word of a mutex, the record of the tasks that wait for it, the grants these tasks look at
and what tasks were told have to agree.

* `Names`, `Contended`: what a word says, and the words the rules make;
* `PiPc.MayQueue`, `PiPc.goal`: where a task may wait at a place of its call, and for which mutex;
* `PiWorld.Records`: the waiters of a task are where its call expects them, and there is one;
* `PiWorld.Owners`: the words, the records, the grants and what tasks were told agree;
* `PiWorld.Inv.repc`, `fewer`, `enqueue`, `reword`, `reown`: **what a step may do to the
  invariant**; and `take`, `free`, `handoff`, the ways in which a mutex changes hands.
-/
import Oxide.PiFutex

namespace Oxide

open Function OrdMap List PiWaiter BitVec PiPc

/-! ### Words -/

/-- The word names the task as the owner. -/
def Names (word : BitVec 32) (t : PiTid) : Prop := ownerBits word = t.val

variable {v v' uval : BitVec 32} {t u : PiTid}

theorem PiTid.ext_val (h : t.val = u.val) : t = u := by
  cases u
  cases h
  rfl

/-- A word names one task. -/
theorem Names.unique (ht : Names v t) (hu : Names v u) : t = u := PiTid.ext_val (ht.symm.trans hu)

theorem not_names_of_free (h : ownerBits v = 0#32) : ¬ Names v t :=
  fun hn => t.visible.1 (hn.symm.trans h)

theorem ownerBits_or (a b : BitVec 32) : ownerBits (a ||| b) = ownerBits a ||| ownerBits b :=
  and_or_distrib_right

/-- The flags of a word name nobody. -/
theorem ownerBits_flag (a : BitVec 32) {flag : BitVec 32} (h : ownerBits flag = 0#32) :
    ownerBits (a &&& flag) = 0#32 := by
  unfold ownerBits at h ⊢
  rw [BitVec.and_assoc, h, BitVec.and_zero]

theorem ownerBits_val (t : PiTid) : ownerBits t.val = t.val := t.visible.2

theorem names_handoffWord (t : PiTid) : Names (handoffWord t.val) t := by
  rw [Names, handoffWord, ownerBits_or, ownerBits_val, show ownerBits FUTEX_WAITERS = 0#32 from rfl,
    zero_or]

theorem names_deadOwnerHandoffWord (uval : BitVec 32) (t : PiTid) :
    Names (deadOwnerHandoffWord uval t.val) t := by
  rw [Names, deadOwnerHandoffWord, ownerBits_or, ownerBits_or, ownerBits_or, ownerBits_val,
    ownerBits_flag uval (show ownerBits FUTEX_OWNER_DIED = 0#32 from rfl),
    show ownerBits FUTEX_WAITERS = 0#32 from rfl, show ownerBits FUTEX_OWNER_DIED = 0#32 from rfl,
    zero_or, zero_or, zero_or]

theorem ownerBits_ownerDiedWord (uval : BitVec 32) : ownerBits (ownerDiedWord uval) = 0#32 := by
  rw [ownerDiedWord, ownerBits_or,
    ownerBits_flag uval (show ownerBits FUTEX_WAITERS = 0#32 from rfl),
    show ownerBits FUTEX_OWNER_DIED = 0#32 from rfl, zero_or]

/-- Publishing that somebody waits keeps the owner. -/
theorem ownerBits_publish (uval : BitVec 32) :
    ownerBits (uval ||| FUTEX_WAITERS) = ownerBits uval := by
  rw [ownerBits_or, show ownerBits FUTEX_WAITERS = 0#32 from rfl, or_zero]

/-- The word of a mutex for which somebody waits. -/
def Contended (word : BitVec 32) : Prop := word &&& FUTEX_WAITERS = FUTEX_WAITERS

theorem contended_or_left (a b : BitVec 32) (h : Contended a) : Contended (a ||| b) := by
  unfold Contended at h ⊢
  rw [and_or_distrib_right, h]
  apply eq_of_getLsbD_eq
  intro i hi
  rw [getLsbD_or, getLsbD_and]
  cases FUTEX_WAITERS.getLsbD i <;> simp

theorem contended_or_right (a b : BitVec 32) (h : Contended b) : Contended (a ||| b) := by
  rw [BitVec.or_comm]
  exact contended_or_left b a h

theorem contended_waiters : Contended FUTEX_WAITERS := rfl

/-- The number of a task alone is not the word of a mutex for which somebody waits. -/
theorem not_contended_val (t : PiTid) : ¬ Contended t.val := by
  intro h
  have hv := t.visible.2
  unfold Contended at h
  rw [← hv, BitVec.and_assoc, show FUTEX_TID_MASK &&& FUTEX_WAITERS = 0#32 from rfl,
    BitVec.and_zero] at h
  cases h

variable {newval : BitVec 32} {have2 set : Bool}

theorem lockPiStep_take (h : lockPiStep uval t.val have2 set = .ok (.takeUncontended newval)) :
    have2 = false ∧ ownerBits uval = 0#32 ∧ Names newval t ∧ (set = true → Contended newval) := by
  unfold lockPiStep at h
  split at h
  · cases h
  split at h
  · cases h
  rename_i hno
  split at h
  case isTrue hfree =>
    have hname : ownerBits (uval &&& FUTEX_OWNER_DIED ||| t.val) = t.val := by
      rw [ownerBits_or, ownerBits_val,
        ownerBits_flag uval (show ownerBits FUTEX_OWNER_DIED = 0#32 from rfl), zero_or]
    refine ⟨Bool.eq_false_iff.mpr hno, hfree, ?_⟩
    cases h
    cases set with
    | false => exact ⟨hname, nofun⟩
    | true =>
    refine ⟨?_, fun _ => contended_or_right _ _ contended_waiters⟩
    show ownerBits (_ ||| FUTEX_WAITERS) = t.val
    rw [ownerBits_publish, hname]
  · cases h

theorem lockPiStep_publish {vpid ownerTid : BitVec 32}
    (h : lockPiStep uval vpid have2 set = .ok (.publishWaitersThenAttach newval ownerTid)) :
    have2 = false ∧ newval = uval ||| FUTEX_WAITERS ∧ ownerTid = ownerBits uval := by
  unfold lockPiStep at h
  split at h
  · cases h
  split at h
  · cases h
  rename_i hno
  split at h
  · cases h
  · cases h
    exact ⟨Bool.eq_false_iff.mpr hno, rfl, rfl⟩

/-! ### Waiters -/

variable {F : Type}

/-- What matters of a waiter: whose it is, and whether it can be served. -/
def PiWaiter.mark (x : PiWaiter F) : PiTid × Option F := (x.tid, x.requeueTarget)

def PiState.marks (st : PiState F) : List (PiTid × Option F) := st.waiters.map mark

variable {st : PiState F} {x : PiWaiter F}

theorem mem_marks (h : x ∈ st.waiters) : x.mark ∈ st.marks :=
  mem_map_of_mem h

/-- The order of the waiters is no part of their marks. -/
theorem rekey_marks (st : PiState F) (t : PiTid) (rank : ℕ) :
    PiState.marks { st with
      waiters := st.waiters.map fun x => if x.tid = t then { x with rank := rank } else x } =
      st.marks := by
  rw [PiState.marks, map_map]
  refine map_congr_left fun x _ => ?_
  show mark (if x.tid = t then _ else x) = x.mark
  split <;> rfl

variable {ws : List (PiWaiter F)}

theorem firstByRank_mem (h : firstByRank ws = some x) :
    x ∈ ws := argmin_mem h

theorem topWaiter_mem [DecidableEq F]
    (h : st.topWaiter = some x) : x ∈ st.waiters ∧ x.requeueTarget = none := by
  obtain ⟨hmem, hnone⟩ := mem_filter.mp (firstByRank_mem h)
  exact ⟨hmem, of_decide_eq_true hnone⟩

theorem withoutTid_sublist (t : PiTid) (ws : List (PiWaiter F)) :
    ((withoutTid t ws).map mark).Sublist (ws.map mark) :=
  eraseP_sublist.map _

/-- No two waiters belong to one task. -/
def Distinct (l : List (PiTid × Option F)) : Prop := (l.map Prod.fst).Nodup

/-- Taking out a task's waiter takes out just that. -/
theorem perm_withoutTid (hx : x ∈ ws) (hd : Distinct (ws.map mark)) :
    (ws.map mark).Perm (x.mark :: (withoutTid x.tid ws).map mark) := by
  obtain ⟨y, l1, l2, hbefore, hy, hws, herase⟩ :=
    exists_of_eraseP (p := fun z => decide (z.tid = x.tid)) hx (decide_eq_true rfl)
  have hyx : y.mark = x.mark := by
    have hytid : y.tid = x.tid := of_decide_eq_true hy
    -- the waiter found first is the one, as there is no other with its number
    subst hws
    rw [mem_append, mem_cons] at hx
    rcases hx with hx | rfl | hx
    · exact absurd (decide_eq_true rfl) (hbefore x hx)
    · rfl
    exfalso
    unfold Distinct at hd
    rw [map_map, map_append, nodup_append] at hd
    have hnot := (nodup_cons.mp hd.2.1).1
    refine hnot (mem_map.mpr ⟨x, hx, ?_⟩)
    exact hytid.symm
  show (ws.map mark).Perm (x.mark :: (ws.eraseP _).map mark)
  rw [herase, hws, map_append, map_append, map_cons, hyx]
  exact perm_middle

theorem withoutTid_absent (t : PiTid) (hd : Distinct (ws.map mark)) :
    ∀ y ∈ (withoutTid t ws).map mark, y.1 ≠ t := by
  intro y hy
  by_cases hmem : ∃ x ∈ ws, x.tid = t
  · obtain ⟨x, hx, rfl⟩ := hmem
    have hperm := (perm_withoutTid hx hd).map Prod.fst
    have hnodup := hperm.nodup_iff.mp hd
    intro heq
    refine (nodup_cons.mp hnodup).1 ?_
    exact mem_map.mpr ⟨y, hy, heq⟩
  · intro heq
    obtain ⟨x, hx, hxy⟩ := mem_map.mp ((withoutTid_sublist t ws).subset hy)
    exact hmem ⟨x, hx, (congrArg Prod.fst hxy).trans heq⟩

/-- The waiters taken and those left are the ones there were. -/
theorem takeFirst_perm (n : ℕ) (ws : List (PiWaiter F)) (hd : Distinct (ws.map mark)) :
    (ws.map mark).Perm
      ((takeFirst n ws).1.map mark ++ (takeFirst n ws).2.map mark) := by
  induction n generalizing ws with
  | zero => exact List.Perm.refl _
  | succ n ih =>
  unfold takeFirst
  split
  · exact List.Perm.refl _
  rename_i x hfirst
  have hperm := perm_withoutTid (firstByRank_mem hfirst) hd
  have hd' : Distinct ((withoutTid x.tid ws).map mark) :=
    hd.sublist ((withoutTid_sublist x.tid ws).map _)
  exact hperm.trans ((ih _ hd').cons x.mark)

theorem takeFirst_sublist (n : ℕ) (ws : List (PiWaiter F)) :
    ((takeFirst n ws).2.map mark).Sublist (ws.map mark) := by
  induction n generalizing ws with
  | zero => exact List.Sublist.refl _
  | succ n ih =>
  unfold takeFirst
  split
  · exact List.Sublist.refl _
  case h_2 x _ => exact (ih _).trans (withoutTid_sublist x.tid ws)

/-! ### Where a task may wait -/

/-- A task at this place of a call may have a waiter at this futex, with this target. -/
def PiPc.MayQueue : PiPc F → F → Option F → Prop
  | .trylockLeave m0, m, tgt => m = m0 ∧ tgt = none
  | .parked m0 target _, m, tgt | .giveUp m0 target _, m, tgt =>
    m = m0 ∧ tgt = target ∨ target = some m ∧ tgt = none
  | .recheck _ target _, m, tgt => target = some m ∧ tgt = none
  | .leaveTarget m0 _, m, tgt => m = m0 ∧ tgt = none
  | _, _, _ => False

/-- The mutex a waiting task is to get. -/
def PiPc.goal : PiPc F → Option F
  | .trylockLeave m | .leaveTarget m _ => some m
  | .parked m target _ | .giveUp m target _ | .recheck m target _ => some (target.getD m)
  | _ => none

/-- The task is neither waiting nor on its way out. -/
def PiPc.calm : PiPc F → Bool
  | .trylockLeave .. | .leaveTarget .. | .parked .. | .giveUp .. | .recheck .. => false
  | p => !p.dead

/-- A pinned owner is the task the word names, and one that is alive is there. -/
def Pins (uval : BitVec 32) (pin : OwnerPin) : Prop :=
  ∀ l o, pin = some (l, o) → (∀ x, o = some x → Names uval x) ∧ (o = none → l ≠ .alive)

/-- What a call has read before it enters the table. -/
def PiPc.Checked (t : PiTid) : PiPc F → Prop
  | .lockTable _ _ _ _ uval ownerPin => Pins uval ownerPin
  | .unlockTable _ uval => Names uval t
  | .requeueTable _ _ _ _ _ _ _ uval2 owner2 =>
    Pins uval2 owner2 ∧ (owner2 = none → ownerBits uval2 = 0#32)
  | _ => True

variable {p p' : PiPc F} {m : F} {tgt : Option F}

theorem PiPc.MayQueue.goal (h : p.MayQueue m tgt) : p.goal = some (tgt.getD m) := by
  cases p with
  | trylockLeave | leaveTarget =>
    obtain ⟨rfl, rfl⟩ := h
    rfl
  | parked | giveUp =>
    rcases h with ⟨rfl, rfl⟩ | ⟨rfl, rfl⟩ <;> rfl
  | recheck =>
    obtain ⟨rfl, rfl⟩ := h
    rfl
  | _ => cases h

/-- A waiter of a condition variable may be moved to its mutex. -/
theorem PiPc.MayQueue.move {m' : F} (h : p.MayQueue m (some m')) : p.MayQueue m' none := by
  cases p with
  | trylockLeave | leaveTarget | recheck => cases h.2
  | parked | giveUp =>
    rcases h with ⟨-, rfl⟩ | ⟨-, h⟩
    · exact .inr ⟨rfl, rfl⟩
    · cases h
  | _ => cases h

theorem PiPc.calm_mayQueue (h : p.calm = true) : ¬ p.MayQueue m tgt := by
  intro hq
  cases p <;> first | exact False.elim hq | cases h

theorem PiPc.calm_goal (h : p.calm = true) : p.goal = none := by
  cases p <;> first | rfl | cases h

theorem PiPc.calm_dead (h : p.calm = true) : p.dead = false := by
  cases p <;> first | rfl | cases h

theorem PiPc.goal_not_dead (h : p.goal = some m) : p.dead = false := by
  cases p <;> first | rfl | cases h

theorem PiPc.dead_mayQueue (h : p.dead = true) : ¬ p.MayQueue m tgt := by
  intro hq
  cases p <;> first | exact False.elim hq | cases h

theorem PiPc.dead_goal (h : p.dead = true) : p.goal = none := by
  cases p <;> first | rfl | cases h

/-- A record with an owner has the one the word names; in a record without one nobody is served. -/
def PiState.OwnerOk (st : PiState F) (v : BitVec 32) : Prop :=
  (st.owner = none → st.ownerTid = 0#32 ∧ ∀ x ∈ st.marks, x.2 ≠ none) ∧
    ∀ o, st.owner = some o → st.ownerTid = o.val ∧ Names v o ∧ Contended v

variable {st' : PiState F}

theorem PiState.OwnerOk.fewer (h : st.OwnerOk v) (ho : st'.owner = st.owner)
    (ht : st'.ownerTid = st.ownerTid) (hsub : ∀ x ∈ st'.marks, x ∈ st.marks) : st'.OwnerOk v := by
  rw [PiState.OwnerOk, ho, ht]
  exact ⟨fun hn => ⟨(h.1 hn).1, fun x hx => (h.1 hn).2 x (hsub x hx)⟩, h.2⟩

/-- A record without an owner does not depend on the word. -/
theorem PiState.OwnerOk.reword (h : st.OwnerOk v)
    (hfree : ∀ o, ¬ (Names v o ∧ Contended v)) : st.OwnerOk v' :=
  ⟨h.1, fun o ho => absurd (h.2 o ho).2 (hfree o)⟩

/-- A waiter that can only be moved joins any record. -/
theorem PiState.OwnerOk.addTarget (h : st.OwnerOk v) (hx : x.requeueTarget ≠ none) :
    PiState.OwnerOk { st with waiters := st.waiters ++ [x] } v := by
  refine ⟨fun ho => ⟨(h.1 ho).1, ?_⟩, h.2⟩
  intro y hy
  rw [show PiState.marks { st with waiters := st.waiters ++ [x] } = st.marks ++ [x.mark] from
    map_append .., mem_append] at hy
  rcases hy with hy | hy
  · exact (h.1 ho).2 y hy
  · rwa [mem_singleton.mp hy]

namespace PiWorld

variable [LinearOrder F] {w w' : PiWorld F} {tbl tbl' : OrdMap F (PiState F)}
  {pc : PiTid → PiPc F} {grant grant' : PiTid → PiGrant}

/-! ### The waiters in the table -/

/-- There is such a waiter at the futex. -/
def Has (tbl : OrdMap F (PiState F)) (k : F) (x : PiTid × Option F) : Prop :=
  ∃ st, tbl.get? k = some st ∧ x ∈ st.marks

/-- The task has no waiter. -/
def Absent (tbl : OrdMap F (PiState F)) (t : PiTid) : Prop := ∀ k x, Has tbl k x → x.1 ≠ t

/-- **The waiters of a task are where its call expects them**, with their grants pending, and there
is at most one. -/
structure Records (tbl : OrdMap F (PiState F)) (pc : PiTid → PiPc F) (grant : PiTid → PiGrant) :
    Prop where
  known : ∀ k x, Has tbl k x → (pc x.1).MayQueue k x.2 ∧ grant x.1 = .pending
  distinct : ∀ k st, tbl.get? k = some st → Distinct st.marks
  single : ∀ k k' x y, Has tbl k x → Has tbl k' y → x.1 = y.1 → k = k'

section

variable (h : Records tbl pc grant)
include h

theorem Records.absent (hq : ∀ k tgt, ¬ (pc t).MayQueue k tgt) : Absent tbl t := by
  rintro k x hx rfl
  exact hq k x.2 (h.known k x hx).1

theorem Records.absent_of_grant (hg : grant t ≠ .pending) : Absent tbl t := by
  rintro k x hx rfl
  exact hg (h.known k x hx).2

theorem Records.repc (hp : ∀ k x, Has tbl k x → x.1 = t → p.MayQueue k x.2) :
    Records tbl (update pc t p) grant where
  known k x hx := by
    refine ⟨?_, (h.known k x hx).2⟩
    rw [update_apply]
    split_ifs with ht
    · exact hp k x hx ht
    · exact (h.known k x hx).1
  distinct := h.distinct
  single := h.single

theorem Records.regrant (hg : ∀ u, Absent tbl u ∨ grant' u = grant u) : Records tbl pc grant' where
  known k x hx := by
    refine ⟨(h.known k x hx).1, ?_⟩
    rcases hg x.1 with habsent | heq
    · exact absurd rfl (habsent k x hx)
    · rw [heq]
      exact (h.known k x hx).2
  distinct := h.distinct
  single := h.single

end

/-- Every record that is left has lost waiters only. -/
def Fewer (tbl tbl' : OrdMap F (PiState F)) : Prop :=
  ∀ k st', tbl'.get? k = some st' → ∃ st, tbl.get? k = some st ∧ st'.marks.Sublist st.marks

variable {k : F}

theorem Fewer.has (h : Fewer tbl tbl') {x : PiTid × Option F} (hx : Has tbl' k x) :
    Has tbl k x := by
  obtain ⟨st', hst', hmem⟩ := hx
  obtain ⟨st, hst, hsub⟩ := h k st' hst'
  exact ⟨st, hst, hsub.subset hmem⟩

theorem Fewer.erase (tbl : OrdMap F (PiState F)) (m : F) : Fewer tbl (tbl.erase m) := by
  intro k st' hst'
  exact ⟨st', (of_get?_erase hst').2, List.Sublist.refl _⟩

theorem Fewer.insert (hst : tbl.get? m = some st)
    (hsub : st'.marks.Sublist st.marks) : Fewer tbl (tbl.insert m st') := by
  intro k st'' hst''
  rcases of_get?_insert hst'' with ⟨rfl, rfl⟩ | ⟨-, hst''⟩
  · exact ⟨st, hst, hsub⟩
  · exact ⟨st'', hst'', List.Sublist.refl _⟩

theorem Records.fewer (h : Records tbl pc grant) (hf : Fewer tbl tbl') :
    Records tbl' pc grant where
  known k x hx := h.known k x (hf.has hx)
  distinct k st' hst' := by
    obtain ⟨st, hst, hsub⟩ := hf k st' hst'
    exact (h.distinct k st hst).sublist (hsub.map _)
  single k k' x y hx hy := h.single k k' x y (hf.has hx) (hf.has hy)

/-- A record that is there, or a new one without waiters. -/
structure Base (tbl : OrdMap F (PiState F)) (m : F) (st : PiState F) : Prop where
  has : ∀ x ∈ st.marks, Has tbl m x
  distinct : Distinct st.marks

theorem Records.base (h : Records tbl pc grant) (hst : tbl.get? m = some st) : Base tbl m st :=
  ⟨fun _ hx => ⟨_, hst, hx⟩, h.distinct m _ hst⟩

theorem Records.add (h : Records tbl pc grant) {l : List (PiTid × Option F)} (hd : Distinct l)
    (hl : ∀ x ∈ l, (pc x.1).MayQueue m x.2 ∧ grant x.1 = .pending ∧ Absent tbl x.1)
    (hb : Base tbl m st) (hmarks : st'.marks = st.marks ++ l) :
    Records (tbl.insert m st') pc grant := by
  have hhas : ∀ k x, Has (tbl.insert m st') k x → Has tbl k x ∨ k = m ∧ x ∈ l := by
    rintro k x ⟨st'', hst'', hx⟩
    rcases of_get?_insert hst'' with ⟨rfl, rfl⟩ | ⟨-, hst''⟩
    · rw [hmarks, mem_append] at hx
      exact hx.imp (hb.has x) fun hx => ⟨rfl, hx⟩
    · exact .inl ⟨st'', hst'', hx⟩
  constructor
  · intro k x hx
    rcases hhas k x hx with hold | ⟨rfl, hnew⟩
    · exact h.known k x hold
    · exact ⟨(hl x hnew).1, (hl x hnew).2.1⟩
  · intro k st'' hst''
    rcases of_get?_insert hst'' with ⟨rfl, rfl⟩ | ⟨-, hst''⟩
    · rw [Distinct, hmarks, map_append, nodup_append]
      refine ⟨hb.distinct, hd, ?_⟩
      intro a ha b hb' hab
      obtain ⟨x, hx, rfl⟩ := mem_map.mp ha
      obtain ⟨y, hy, rfl⟩ := mem_map.mp hb'
      exact (hl y hy).2.2 _ x (hb.has x hx) hab
    · exact h.distinct k st'' hst''
  intro k k' x y hx hy hxy
  rcases hhas k x hx with hold | ⟨rfl, hnew⟩
  · rcases hhas k' y hy with hold' | ⟨rfl, hnew'⟩
    · exact h.single k k' x y hold hold' hxy
    · exact absurd hxy ((hl y hnew').2.2 k x hold)
  · rcases hhas k' y hy with hold' | ⟨rfl, hnew'⟩
    · exact absurd hxy.symm ((hl x hnew).2.2 k' y hold')
    · rfl

/-! ### Whom the words name -/

/-- **The words, the records and the grants agree** with each other and with what tasks were told.
-/
structure Owners (w : PiWorld F) : Prop where
  state : ∀ k st, w.table.get? k = some st → st.OwnerOk (w.word k)
  granted : ∀ u k, (w.pc u).goal = some k → (w.grant u).isOwner = true → Names (w.word k) u
  told : ∀ u k, w.holds u k = true → Names (w.word k) u ∧ (w.pc u).dead = false
  named : ∀ u k, Names (w.word k) u → w.holds u k = true ∨
    ((w.pc u).goal = some k ∧ (w.grant u).isOwner = true) ∨ (w.pc u).dead = true

structure Inv (w : PiWorld F) : Prop where
  records : Records w.table w.pc w.grant
  owners : Owners w
  checked : ∀ u, (w.pc u).Checked u

/-- What the invariant says of one task. -/
structure TaskOk (word : F → BitVec 32) (u : PiTid) (p : PiPc F) (g : PiGrant) (holds : F → Bool) :
    Prop where
  checked : p.Checked u
  granted : ∀ k, p.goal = some k → g.isOwner = true → Names (word k) u
  told : ∀ k, holds k = true → Names (word k) u ∧ p.dead = false
  named : ∀ k, Names (word k) u → holds k = true ∨ (p.goal = some k ∧ g.isOwner = true) ∨
    p.dead = true

section

variable (h : Inv w)
include h

theorem Inv.task (u : PiTid) : TaskOk w.word u (w.pc u) (w.grant u) (w.holds u) :=
  ⟨h.checked u, h.owners.granted u, h.owners.told u, h.owners.named u⟩

theorem Inv.retask (t : PiTid) (hword : w'.word = w.word) (hrec : Records w'.table w'.pc w'.grant)
    (hstate : ∀ k st, w'.table.get? k = some st → st.OwnerOk (w'.word k))
    (hrest : ∀ u, u ≠ t → w'.pc u = w.pc u ∧ w'.grant u = w.grant u ∧ w'.holds u = w.holds u)
    (ht : TaskOk w'.word t (w'.pc t) (w'.grant t) (w'.holds t)) : Inv w' := by
  have htasks : ∀ u, TaskOk w'.word u (w'.pc u) (w'.grant u) (w'.holds u) := by
    intro u
    by_cases hu : u = t
    · rwa [hu]
    · obtain ⟨hpc, hgrant, hholds⟩ := hrest u hu
      rw [hword, hpc, hgrant, hholds]
      exact h.task u
  exact ⟨hrec, ⟨hstate, fun u => (htasks u).granted, fun u => (htasks u).told,
    fun u => (htasks u).named⟩, fun u => (htasks u).checked⟩

/-- The call of one task goes on. -/
theorem Inv.repc (hrec : ∀ k x, Has w.table k x → x.1 = t → p.MayQueue k x.2)
    (hgoal : ∀ k, p.goal = some k → (w.grant t).isOwner = true → Names (w.word k) t)
    (hdead : p.dead = true → ∀ k, w.holds t k = false)
    (hnamed : ∀ k, Names (w.word k) t → w.holds t k = true ∨
      (p.goal = some k ∧ (w.grant t).isOwner = true) ∨ p.dead = true) (hch : p.Checked t) :
    Inv (w.goto t p) := by
  refine h.retask t rfl (h.records.repc hrec) h.owners.state
    (fun u hu => ⟨update_of_ne hu .., rfl, rfl⟩) ?_
  show TaskOk w.word t (update w.pc t p t) (w.grant t) (w.holds t)
  rw [update_self]
  refine ⟨hch, hgoal, fun k hk => ⟨(h.owners.told t k hk).1, ?_⟩, hnamed⟩
  exact Bool.eq_false_iff.mpr fun hd => Bool.eq_false_iff.mp (hdead hd k) hk

/-- A task that neither waits nor exits is named only by what it was told. -/
theorem Inv.told_of_calm (hp : (w.pc t).calm = true) (hk : Names (w.word k) t) :
    w.holds t k = true := by
  rcases h.owners.named t k hk with hh | ⟨hg, -⟩ | hd
  · exact hh
  · rw [calm_goal hp] at hg
    cases hg
  · rw [calm_dead hp] at hd
    cases hd

/-- A call that neither waits nor exits goes on. -/
theorem Inv.calm (hp : (w.pc t).calm = true) (hp' : p.calm = true) (hch : p.Checked t) :
    Inv (w.goto t p) := by
  refine h.repc ?_ ?_ ?_ (fun k hk => .inl (h.told_of_calm hp hk)) hch
  · rintro k x hx rfl
    exact absurd (h.records.known k x hx).1 (calm_mayQueue hp)
  · intro k hk
    rw [calm_goal hp'] at hk
    cases hk
  · intro hd
    rw [calm_dead hp'] at hd
    cases hd

/-- What a call returns does not matter to the invariant. -/
theorem Inv.returns (ret : PiTid → Option (Except FutexErrno ℕ)) : Inv { w with ret := ret } :=
  ⟨h.records, ⟨h.owners.state, h.owners.granted, h.owners.told, h.owners.named⟩, h.checked⟩

theorem Inv.nextId (n : ℕ) : Inv { w with nextId := n } :=
  ⟨h.records, ⟨h.owners.state, h.owners.granted, h.owners.told, h.owners.named⟩, h.checked⟩

theorem Inv.fail (hp : (w.pc t).calm = true) (e : FutexErrno) : Inv (w.fail t e) :=
  (h.calm (p := .user) hp rfl trivial).returns _

/-- Waiters leave. -/
theorem Inv.fewer (hf : Fewer w.table tbl')
    (hs : ∀ k st', tbl'.get? k = some st' → st'.OwnerOk (w.word k)) :
    Inv { w with table := tbl' } :=
  ⟨h.records.fewer hf, ⟨hs, h.owners.granted, h.owners.told, h.owners.named⟩, h.checked⟩

theorem Inv.drop (m : F) : Inv (w.dropState m) := by
  refine h.fewer (Fewer.erase _ m) ?_
  intro k st' hst'
  exact h.owners.state k st' (of_get?_erase hst').2

theorem Inv.put (hst : w.table.get? m = some st) (ho : st'.owner = st.owner)
    (ht : st'.ownerTid = st.ownerTid) (hsub : st'.marks.Sublist st.marks) :
    Inv (w.putState m st') := by
  refine h.fewer (Fewer.insert hst hsub) ?_
  intro k st'' hst''
  rcases of_get?_insert hst'' with ⟨rfl, rfl⟩ | ⟨-, hst''⟩
  · exact (h.owners.state _ st hst).fewer ho ht fun _ hx => hsub.subset hx
  · exact h.owners.state k st'' hst''

theorem Inv.unqueue (m : F) (t : PiTid) : Inv (w.unqueue m t) := by
  unfold PiWorld.unqueue
  split
  · exact h
  rename_i st hst
  dsimp only
  split
  · exact h.drop m
  · exact h.put hst rfl rfl (withoutTid_sublist t st.waiters)

theorem Inv.unqueue_absent (m : F) (t : PiTid) :
    ∀ k x, Has (w.unqueue m t).table k x → x.1 = t → Has w.table k x ∧ k ≠ m := by
  intro k x hx hxt
  unfold PiWorld.unqueue at hx
  split at hx
  case h_1 hnone =>
    refine ⟨hx, ?_⟩
    rintro rfl
    obtain ⟨st, hst, -⟩ := hx
    cases hnone.symm.trans hst
  rename_i st hst
  dsimp only at hx
  split at hx
  · obtain ⟨st', hst', hmem⟩ := hx
    obtain ⟨hk, hget⟩ := of_get?_erase hst'
    exact ⟨⟨st', hget, hmem⟩, hk⟩
  obtain ⟨st', hst', hmem⟩ := hx
  rcases of_get?_insert hst' with ⟨-, rfl⟩ | ⟨hk, hget⟩
  · exact absurd hxt (withoutTid_absent t (h.records.distinct m st hst) x hmem)
  · exact ⟨⟨st', hget, hmem⟩, hk⟩

/-- The grant of a task that does not wait says nothing. -/
theorem Inv.regrant (hp : (w.pc t).calm = true) (g : PiGrant) :
    Inv { w with grant := update w.grant t g } := by
  have habsent : Absent w.table t := h.records.absent fun k tgt => calm_mayQueue hp
  have hrest : ∀ u, u ≠ t → update w.grant t g u = w.grant u := fun u hu => update_of_ne hu ..
  refine h.retask t rfl (h.records.regrant fun u => ?_) h.owners.state
    (fun u hu => ⟨rfl, hrest u hu, rfl⟩) ⟨h.checked t, fun k hk => ?_, h.owners.told t,
      fun k hk => .inl (h.told_of_calm hp hk)⟩
  · by_cases hu : u = t
    · exact .inl (hu ▸ habsent)
    · exact .inr (hrest u hu)
  · cases (calm_goal hp).symm.trans hk

/-- Waiters that are nowhere join a record. -/
theorem Inv.join {dst : PiState F} {moved : List (PiWaiter F)} (hb : Base w.table m dst)
    (hok : PiState.OwnerOk { dst with waiters := dst.waiters ++ moved } (w.word m))
    (hd : Distinct (moved.map mark))
    (hl : ∀ x ∈ moved.map mark,
      (w.pc x.1).MayQueue m x.2 ∧ w.grant x.1 = .pending ∧ Absent w.table x.1) :
    Inv (w.putState m { dst with waiters := dst.waiters ++ moved }) := by
  refine ⟨h.records.add hd hl hb (map_append ..), ⟨?_, h.owners.granted, h.owners.told,
    h.owners.named⟩, h.checked⟩
  intro k st' hst'
  rcases of_get?_insert hst' with ⟨rfl, rfl⟩ | ⟨-, hget⟩
  · exact hok
  · exact h.owners.state k st' hget

theorem Inv.enqueue (hp : (w.pc x.tid).calm = true)
    (hq : p.MayQueue m x.requeueTarget) (hp' : p.dead = false) (hch : p.Checked x.tid)
    (hb : Base w.table m st)
    (hok : PiState.OwnerOk { st with waiters := st.waiters ++ [x] } (w.word m)) :
    Inv ((w.enqueue m st x).goto x.tid p) := by
  have habsent : Absent w.table x.tid := h.records.absent fun k tgt => calm_mayQueue hp
  have hslot : update w.grant x.tid .pending x.tid = .pending := update_self ..
  have hnew := h.regrant hp .pending
  -- the grant is reset, the call goes on, and then the waiter joins
  have hgo : Inv ({ w with grant := update w.grant x.tid .pending }.goto x.tid p) := by
    refine hnew.repc (fun k y hy hyx => absurd hyx (habsent k y hy)) (fun k _ hg => ?_)
      (fun hd => ?_) (fun k hk => .inl (h.told_of_calm hp hk)) hch
    · cases (congrArg PiGrant.isOwner hslot).symm.trans hg
    · cases hp'.symm.trans hd
  refine (hgo.join hb hok (nodup_singleton _) fun y hy => ?_).nextId _
  rw [mem_singleton.mp hy]
  refine ⟨?_, hslot, habsent⟩
  show (update w.pc x.tid p x.tid).MayQueue m x.requeueTarget
  rwa [update_self]

/-- Flags of a word change. -/
theorem Inv.reword (hb : ownerBits v = ownerBits (w.word m))
    (hc : Contended (w.word m) → Contended v) : Inv (w.setWord m v) := by
  have hword : ∀ k, (w.setWord m v).word k = if k = m then v else w.word k :=
    fun k => update_apply ..
  have hnames : ∀ k u, Names ((w.setWord m v).word k) u ↔ Names (w.word k) u := by
    intro k u
    rw [hword]
    split_ifs with hk
    · subst hk
      unfold Names
      rw [hb]
    · exact Iff.rfl
  refine ⟨h.records, ⟨?_, ?_, ?_, fun u k hk => h.owners.named u k ((hnames k u).mp hk)⟩, h.checked⟩
  · intro k st hst
    obtain ⟨hnone, hsome⟩ := h.owners.state k st hst
    refine ⟨hnone, fun o ho => ?_⟩
    obtain ⟨htid, hname, hcont⟩ := hsome o ho
    refine ⟨htid, (hnames k o).mpr hname, ?_⟩
    rw [hword]
    split_ifs with hk
    · subst hk
      exact hc hcont
    · exact hcont
  · exact fun u k hk hg => (hnames k u).mpr (h.owners.granted u k hk hg)
  · exact fun u k hk => ⟨(hnames k u).mpr (h.owners.told u k hk).1, (h.owners.told u k hk).2⟩

end

/-- The word of a mutex becomes `v`, with another owner or none. -/
structure Reowned (w w' : PiWorld F) (m : F) (v : BitVec 32) : Prop where
  pc : w'.pc = w.pc
  now : w'.word m = v
  word : ∀ k, k ≠ m → w'.word k = w.word k
  -- whoever is named before is not waiting for the mutex
  before : ∀ u, Names (w.word m) u → (w.pc u).goal ≠ some m
  state : ∀ k st', w'.table.get? k = some st' →
    k = m ∧ st'.OwnerOk v ∨ k ≠ m ∧ st'.OwnerOk (w.word k)
  grant : ∀ u, w'.grant u = w.grant u ∨
    (w.pc u).goal = some m ∧ Names v u ∧ (w'.grant u).isOwner = true
  holds : ∀ u k, k ≠ m → w'.holds u k = w.holds u k
  told : ∀ u, w'.holds u m = true → Names v u ∧ (w.pc u).dead = false
  named : ∀ u, Names v u → w'.holds u m = true ∨
    ((w.pc u).goal = some m ∧ (w'.grant u).isOwner = true) ∨ (w.pc u).dead = true

theorem Inv.reown (h : Inv w) (hr : Reowned w w' m v)
    (hrec : Records w'.table w'.pc w'.grant) : Inv w' where
  records := hrec
  checked u := by
    rw [hr.pc]
    exact h.checked u
  owners := by
    constructor
    · intro k st' hst'
      rcases hr.state k st' hst' with ⟨rfl, hok⟩ | ⟨hk, hok⟩
      · rwa [hr.now]
      · rwa [hr.word k hk]
    · intro u k hk hg
      rw [hr.pc] at hk
      rcases hr.grant u with hsame | ⟨hgoal, hname, -⟩
      · have hold := h.owners.granted u k hk (hsame ▸ hg)
        by_cases hkm : k = m
        · subst hkm
          exact absurd hk (hr.before u hold)
        · rwa [hr.word k hkm]
      cases hk.symm.trans hgoal
      rwa [hr.now]
    · intro u k hk
      by_cases hkm : k = m
      · subst hkm
        rw [hr.pc, hr.now]
        exact hr.told u hk
      · rw [hr.holds u k hkm] at hk
        rw [hr.word k hkm, hr.pc]
        exact h.owners.told u k hk
    intro u k hk
    rw [hr.pc]
    by_cases hkm : k = m
    · subst hkm
      rw [hr.now] at hk
      exact hr.named u hk
    rw [hr.word k hkm] at hk
    rw [hr.holds u k hkm]
    refine (h.owners.named u k hk).imp id (Or.imp ?_ id)
    rintro ⟨hgoal, hg⟩
    refine ⟨hgoal, ?_⟩
    rcases hr.grant u with hsame | ⟨-, -, hnew⟩
    · rwa [hsame]
    · exact hnew

theorem setHolds_apply (w : PiWorld F) (t : PiTid) (m : F) (b : Bool) (u : PiTid) (k : F) :
    (w.setHolds t m b).holds u k = if u = t ∧ k = m then b else w.holds u k := by
  unfold setHolds
  by_cases hu : u = t
  · simp [hu, update_apply]
  · simp [hu]

/-- A task that is neither waiting nor exiting takes a free mutex. -/
theorem Inv.take (h : Inv w) (hp : (w.pc t).calm = true) (hfree : ownerBits (w.word m) = 0#32)
    (hv : Names v t) : Inv ((w.setWord m v).setHolds t m true) := by
  refine h.reown ⟨rfl, update_self .., fun k hk =>
    update_of_ne hk .., fun u hu => absurd hu (not_names_of_free hfree), ?_,
    fun u => .inl rfl, ?_, ?_, ?_⟩ h.records
  · intro k st hst
    by_cases hk : k = m
    · subst hk
      exact .inl ⟨rfl, (h.owners.state k st hst).reword fun o ho => not_names_of_free hfree ho.1⟩
    · exact .inr ⟨hk, h.owners.state k st hst⟩
  · exact fun u k hk => (setHolds_apply ..).trans (if_neg fun h => hk h.2)
  · intro u hu
    rw [setHolds_apply] at hu
    split_ifs at hu with hut
    · rw [hut.1]
      exact ⟨hv, calm_dead hp⟩
    · exact absurd (h.owners.told u m hu).1 (not_names_of_free hfree)
  · intro u hu
    left
    rw [setHolds_apply, if_pos ⟨Names.unique hu hv, rfl⟩]

/-- Nobody owns the mutex any more. -/
theorem Inv.free (h : Inv w) (hn : Names (w.word m) t) (hgoal : (w.pc t).goal = none)
    (hv : ownerBits v = 0#32) (hpc : w'.pc = w.pc) (hgrant : w'.grant = w.grant)
    (hnow : w'.word m = v) (hword : ∀ k, k ≠ m → w'.word k = w.word k)
    (hother : ∀ u k, k ≠ m → w'.holds u k = w.holds u k) (hnone : ∀ u, w'.holds u m = false)
    (hstate : ∀ k st, w'.table.get? k = some st →
      w.table.get? k = some st ∧ (k = m → st.owner = none)) : Inv w' := by
  have hfewer : Fewer w.table w'.table :=
    fun k st hst => ⟨st, (hstate k st hst).1, List.Sublist.refl _⟩
  refine h.reown ⟨hpc, hnow, hword, ?_, ?_, fun u => .inl (congrFun hgrant u), hother, ?_, ?_⟩ ?_
  · intro u hu
    rw [Names.unique hu hn, hgoal]
    rintro ⟨⟩
  · intro k st hst
    obtain ⟨hold, hunowned⟩ := hstate k st hst
    by_cases hk : k = m
    · refine .inl ⟨hk, (h.owners.state k st hold).1, fun o ho => ?_⟩
      rw [hunowned hk] at ho
      cases ho
    · exact .inr ⟨hk, h.owners.state k st hold⟩
  · intro u hu
    rw [hnone u] at hu
    cases hu
  · exact fun u hu => absurd hu (not_names_of_free hv)
  · rw [hpc, hgrant]
    exact h.records.fewer hfewer

variable {g : PiGrant}

/-- What a handoff leaves in the table. -/
theorem handoff_table (h : (w.handoff m st x g).table.get? k = some st') :
    k = m ∧ st' = { st with
        owner := some x.tid
        ownerTid := x.tid.val
        waiters := withoutTid x.tid st.waiters } ∨
      k ≠ m ∧ w.table.get? k = some st' := by
  unfold PiWorld.handoff at h
  dsimp only at h
  split at h
  · exact .inr (of_get?_erase h)
  · exact of_get?_insert h

/-- A handoff leaves the rest of the world. -/
theorem handoff_rest (w : PiWorld F) (m : F) (st : PiState F) (x : PiWaiter F) (g : PiGrant) :
    (w.handoff m st x g).pc = w.pc ∧ (w.handoff m st x g).word = w.word ∧
      (w.handoff m st x g).holds = w.holds ∧
      (w.handoff m st x g).grant = update w.grant x.tid g := by
  unfold PiWorld.handoff
  dsimp only
  split <;> exact ⟨rfl, rfl, rfl, rfl⟩

/-- A waiter that leaves the queues gets the mutex. -/
theorem Inv.grantTo (h : Inv w) {x : PiTid} (hwait : (w.pc x).goal = some m)
    (hbefore : ∀ u, Names (w.word m) u → (w.pc u).goal ≠ some m) (hv : Names v x)
    (hg : g.isOwner = true) (hpc : w'.pc = w.pc) (hword : w'.word = update w.word m v)
    (hgrant : w'.grant = update w.grant x g) (hfewer : Fewer w.table w'.table)
    (habsent : Absent w'.table x)
    (hstate : ∀ k st', w'.table.get? k = some st' →
      k = m ∧ st'.OwnerOk v ∨ k ≠ m ∧ st'.OwnerOk (w.word k))
    (hother : ∀ u k, k ≠ m → w'.holds u k = w.holds u k) (hnone : ∀ u, w'.holds u m = false) :
    Inv w' := by
  have hslot : (w'.grant x).isOwner = true := by
    rwa [hgrant, update_self]
  have hrest : ∀ u, u ≠ x → w'.grant u = w.grant u := by
    intro u hu
    rw [hgrant, update_of_ne hu]
  refine h.reown ⟨hpc, ?_, fun k hk => ?_, hbefore, hstate, fun u => ?_, hother,
    fun u hu => ?_, fun u hu => ?_⟩ ?_
  · rw [hword, update_self]
  · rw [hword, update_of_ne hk]
  · by_cases hu : u = x
    · subst hu
      exact .inr ⟨hwait, hv, hslot⟩
    · exact .inl (hrest u hu)
  · rw [hnone u] at hu
    cases hu
  · obtain rfl : u = x := Names.unique hu hv
    exact .inr (.inl ⟨hwait, hslot⟩)
  rw [hpc]
  refine (h.records.fewer hfewer).regrant fun u => ?_
  by_cases hu : u = x
  · exact .inl (hu ▸ habsent)
  · exact .inr (hrest u hu)

/-- The mutex goes from its owner to a waiter. -/
theorem Inv.handoff (h : Inv w) (hst : w.table.get? m = some st) (htop : st.topWaiter = some x)
    (hn : Names (w.word m) t) (hgoal : (w.pc t).goal = none) (hv : Names v x.tid) (hc : Contended v)
    (hg : g.isOwner = true) (hpc : w'.pc = w.pc) (hword : w'.word = update w.word m v)
    (hgrant : w'.grant = update w.grant x.tid g) (htable : w'.table = (w.handoff m st x g).table)
    (hother : ∀ u k, k ≠ m → w'.holds u k = w.holds u k) (hnone : ∀ u, w'.holds u m = false) :
    Inv w' := by
  obtain ⟨hx, hserved⟩ := topWaiter_mem htop
  have hmark : Has w.table m x.mark := ⟨st, hst, mem_marks hx⟩
  have hwait : (w.pc x.tid).goal = some m := by
    have hq := (h.records.known m _ hmark).1.goal
    rwa [show x.mark.2 = none from hserved] at hq
  refine h.grantTo hwait ?_ hv hg hpc hword hgrant ?_ ?_ ?_ hother hnone
  · intro u hu
    rw [Names.unique hu hn, hgoal]
    rintro ⟨⟩
  · intro k st' hst'
    rw [htable] at hst'
    rcases handoff_table hst' with ⟨rfl, rfl⟩ | ⟨-, hold⟩
    · exact ⟨st, hst, withoutTid_sublist x.tid st.waiters⟩
    · exact ⟨st', hold, List.Sublist.refl _⟩
  · -- the waiter had no other record
    rintro k y ⟨st', hst', hy⟩ hyx
    rw [htable] at hst'
    rcases handoff_table hst' with ⟨rfl, rfl⟩ | ⟨hk, hold⟩
    · exact withoutTid_absent x.tid (h.records.distinct k st hst) y hy hyx
    · exact hk (h.records.single k m y _ ⟨st', hold, hy⟩ hmark hyx)
  intro k st' hst'
  rw [htable] at hst'
  rcases handoff_table hst' with ⟨rfl, rfl⟩ | ⟨hk, hold⟩
  · refine .inl ⟨rfl, nofun, fun o ho => ?_⟩
    cases ho
    exact ⟨rfl, hv, hc⟩
  · exact .inr ⟨hk, h.owners.state k st' hold⟩

end PiWorld

end Oxide
