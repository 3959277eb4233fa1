/-
The steps of the calls on priority-inheritance futexes keep the invariant.

Each call is a chain of atomic steps, and between two of them the other tasks run. What a step may
assume is what the invariant says of the place its call has reached.

* `PiWorld.Inv.lockTable`, `PiWorld.Inv.unlockTable`, `PiWorld.Inv.waitTable`,
  `PiWorld.Inv.requeueTable`: the sections under the lock of the table;
* `PiWorld.Inv.wakeUp`, `PiWorld.Inv.giveUp`, `PiWorld.Inv.lookAgain`: the end of a wait;
* `PiWorld.Inv.exitTable`, `PiWorld.Inv.exitFault`: a dying owner hands its mutexes over;
* `PiWorld.Inv.run`: **every step of a call keeps the invariant**, where the code checks enough;
* `PiWorld.Inv.fastLock`, `PiWorld.Inv.fastUnlock`: so do the changes user space makes.
-/
import Oxide.PiOwnership

namespace Oxide

open Function OrdMap List PiWaiter PiPc

variable {ownerPin : OwnerPin} {nrRequeue uaddr : ℕ}

namespace PiWorld

variable {F : Type} [LinearOrder F] {w w' : PiWorld F} {tbl tbl' : OrdMap F (PiState F)}
  {v v' uval : BitVec 32} {t u : PiTid} {p p' : PiPc F} {m : F}
variable {k m1 m2 : F} {dst src st : PiState F}

/-! ### The end of a wait -/

/-- A waiting task that was granted its mutex has it. -/
theorem Inv.acquired (h : Inv w) (hgoal : (w.pc t).goal = some m)
    (hg : (w.grant t).isOwner = true) : Inv (w.acquired t m) := by
  have hname := h.owners.granted t m hgoal hg
  have habsent : Absent w.table t := h.records.absent_of_grant fun hp => by
    rw [hp] at hg
    cases hg
  refine h.retask t rfl (h.records.repc fun k x hx hxt => absurd hxt (habsent k x hx))
    h.owners.state (fun u hu => ⟨update_of_ne hu .., rfl, update_of_ne hu ..⟩) ?_
  show TaskOk w.word t (update w.pc t .user t) (w.grant t)
    (update w.holds t (update (w.holds t) m true) t)
  rw [update_self, update_self]
  refine ⟨trivial, nofun, fun k hk => ⟨?_, rfl⟩, fun k hk => .inl ?_⟩
  · rw [update_apply] at hk
    split_ifs at hk with hkm
    · exact hkm ▸ hname
    · exact (h.owners.told t k hk).1
  rw [update_apply]
  split_ifs with hkm
  · rfl
  rcases h.owners.named t k hk with hh | ⟨hgk, -⟩ | hd
  · exact hh
  · exact absurd (Option.some.inj (hgk.symm.trans hgoal)) hkm
  · cases (goal_not_dead hgoal).symm.trans hd

/-- A task that is not named by a grant is named only by what it was told before. -/
theorem Inv.told_of_named (h : Inv w) (hdead : (w.pc t).dead = false)
    (hg : (w.grant t).isOwner = false) (hk : Names (w.word k) t) : w.holds t k = true := by
  rcases h.owners.named t k hk with hh | ⟨-, hgr⟩ | hd
  · exact hh
  · cases hg.symm.trans hgr
  · cases hdead.symm.trans hd

/-- A waiting task that has left the queues and was granted nothing fails. -/
theorem Inv.leave (h : Inv w) (hdead : (w.pc t).dead = false) (habsent : Absent w.table t)
    (hg : (w.grant t).isOwner = false) (e : FutexErrno) : Inv (w.fail t e) := by
  refine (h.repc (p := .user) (fun k x hx hxt => absurd hxt (habsent k x hx)) ?_ ?_ ?_
    trivial).returns _
  · rintro k ⟨⟩
  · rintro ⟨⟩
  · exact fun k hk => .inl (h.told_of_named hdead hg hk)

/-- A waiting task goes on waiting, at another place of its call. -/
theorem Inv.wait (h : Inv w) (hgoal : (w.pc t).goal = some m) (hgoal' : p.goal = some m)
    (hrec : ∀ k x, Has w.table k x → x.1 = t → p.MayQueue k x.2) (hch : p.Checked t) :
    Inv (w.goto t p) := by
  refine h.repc hrec ?_ ?_ ?_ hch
  · intro k hk
    rw [hgoal', ← hgoal] at hk
    exact h.owners.granted t k hk
  · intro hd
    rw [goal_not_dead hgoal'] at hd
    cases hd
  intro k hk
  rw [hgoal', ← hgoal]
  exact (h.owners.named t k hk).imp id (Or.imp id fun hd => by
    rw [goal_not_dead hgoal] at hd
    cases hd)

theorem unqueue_rest (w : PiWorld F) (m : F) (t : PiTid) :
    (w.unqueue m t).pc = w.pc ∧ (w.unqueue m t).grant = w.grant := by
  unfold PiWorld.unqueue
  split
  · exact ⟨rfl, rfl⟩
  · dsimp only
    split <;> exact ⟨rfl, rfl⟩

/-- The last queue of a call is left, with an error. -/
theorem Inv.giveUpLast (h : Inv w) (hq : ∀ k tgt, (w.pc t).MayQueue k tgt → k = m)
    (hdead : (w.pc t).dead = false) (hg : (w.grant t).isOwner = false) (e : FutexErrno) :
    Inv ((w.unqueue m t).fail t e) := by
  obtain ⟨hpc, hgrant⟩ := unqueue_rest w m t
  refine (h.unqueue m t).leave ?_ ?_ ?_ e
  · rwa [hpc]
  · intro k x hx hxt
    obtain ⟨hold, hk⟩ := h.unqueue_absent m t k x hx hxt
    exact hk (hq k x.2 (hxt ▸ (h.records.known k x hold).1))
  · rwa [hgrant]

/-- The wait in `park_for_grant` has ended without a grant. -/
theorem Inv.parkFails (h : Inv w) {target : Option F} (hgoal : (w.pc t).goal = some (target.getD m))
    (hrec : ∀ k x, Has w.table k x → x.1 = t → target = some k ∧ x.2 = none)
    (hg : target = none → (w.grant t).isOwner = false) (e : FutexErrno) :
    Inv (w.parkFails t target e) := by
  cases target with
  | none =>
    refine h.leave (goal_not_dead hgoal) ?_ (hg rfl) e
    intro k x hx hxt
    cases (hrec k x hx hxt).1
  | some =>
  refine h.wait hgoal rfl ?_ trivial
  intro k x hx hxt
  obtain ⟨hk, hnone⟩ := hrec k x hx hxt
  exact ⟨(Option.some.inj hk).symm, hnone⟩

theorem Inv.wakeUp (h : Inv w) {target : Option F} {timed : Bool}
    (hpc : w.pc t = .parked m target timed) (i : PiInput) : Inv (w.wakeUp t m target timed i) := by
  have hgoal : (w.pc t).goal = some (target.getD m) := by
    rw [hpc]
    rfl
  -- giving up changes neither the queue nor the mutex
  have hgive : ∀ e, Inv (w.goto t (.giveUp m target e)) := by
    intro e
    refine h.wait hgoal rfl ?_ trivial
    rintro k x hx rfl
    have hq := (h.records.known k x hx).1
    rwa [hpc] at hq
  unfold PiWorld.wakeUp
  split
  case h_1 hg => exact h.acquired hgoal (by rw [hg]; rfl)
  case h_2 hg => exact h.acquired hgoal (by rw [hg]; rfl)
  case h_3 hg =>
    have habsent : Absent w.table t := h.records.absent_of_grant fun hp => by
      cases hp.symm.trans hg
    refine h.parkFails hgoal (fun k x hx hxt => absurd hxt (habsent k x hx)) ?_ _
    intro _
    rw [hg]
    rfl
  split
  · split
    · exact hgive _
    · exact h
  · exact hgive _
  · exact h

variable {e : FutexErrno}

theorem Inv.giveUp (h : Inv w) {target : Option F} (hpc : w.pc t = .giveUp m target e) :
    Inv ((w.unqueue m t).goto t (.recheck m target e)) := by
  obtain ⟨hpc', -⟩ := unqueue_rest w m t
  refine (h.unqueue m t).wait ?_ rfl ?_ trivial
  · rw [hpc', hpc]
    rfl
  intro k x hx hxt
  obtain ⟨hold, hk⟩ := h.unqueue_absent m t k x hx hxt
  have hq := (h.records.known k x hold).1
  rw [hxt, hpc] at hq
  rcases hq with ⟨hkm, -⟩ | hq
  · exact absurd hkm hk
  · exact hq

theorem Inv.lookAgain (h : Inv w) {target : Option F} (hpc : w.pc t = .recheck m target e)
    (hc : w.grant t ≠ .ownerFault) : Inv (w.lookAgain t m target e) := by
  have hgoal : (w.pc t).goal = some (target.getD m) := by
    rw [hpc]
    rfl
  unfold PiWorld.lookAgain
  split_ifs with hg
  · refine h.acquired hgoal ?_
    cases hgt : w.grant t with
    | pending => exact absurd hgt hg
    | owner => rfl
    | ownerDied => rfl
    | ownerFault => exact absurd hgt hc
  refine h.parkFails hgoal ?_ ?_ e
  · intro k x hx hxt
    have hq := (h.records.known k x hx).1
    rwa [hxt, hpc] at hq
  · intro _
    rw [Decidable.not_not.mp hg]
    rfl

/-! ### `lock_pi` -/

variable {new old : BitVec 32} {access : Option FutexErrno}

theorem cmpxchg_ok {seen : BitVec 32} (h : w.cmpxchg m old new access = .ok (seen, w')) :
    seen = w.word m ∧ (seen ≠ old → w' = w) ∧ (seen = old → w' = w.setWord m new) := by
  unfold cmpxchg at h
  split at h
  · cases h
  · cases h
    exact ⟨rfl, fun hne => if_neg hne, fun heq => if_pos heq⟩

theorem names_ofWord (h : PiTid.ofWord v = some t) : Names v t := by
  unfold PiTid.ofWord at h
  split at h
  · cases h
    rfl
  · cases h

theorem free_ofWord (h : PiTid.ofWord v = none) : ownerBits v = 0#32 := by
  unfold PiTid.ofWord at h
  split at h
  · cases h
  case isFalse hz => exact Decidable.not_not.mp hz

theorem pins_classify (env : PiEnv F) (w : PiWorld F) (hn : Names uval t) :
    Pins uval (some (w.classifyOwner env t)) := by
  have hsome : ∀ l, Pins uval (some (l, some t)) := by
    rintro l _ _ ⟨⟩
    exact ⟨fun x hx => Option.some.inj hx ▸ hn, nofun⟩
  have hnone : ∀ l, l ≠ .alive → Pins uval (some (l, none)) := by
    rintro l hl _ _ ⟨⟩
    exact ⟨nofun, fun _ => hl⟩
  unfold classifyOwner
  split
  · exact hnone _ nofun
  split
  · exact hsome _
  · split
    · exact hnone _ nofun
    · exact hsome _

/-- An owner to which a waiter attaches is alive. -/
theorem alive_of_attach {l : OwnerLookup} {o : Option PiTid}
    (h : attachOwnerResult (w.ownerLookupNow l o) false = .ok ()) : l = .alive := by
  have hnow : w.ownerLookupNow l o = .alive := by
    cases hl : w.ownerLookupNow l o <;> rw [hl] at h <;> first | rfl | cases h
  unfold ownerLookupNow at hnow
  split at hnow
  · exact hnow
  split at hnow
  · cases hnow
  · split at hnow
    · cases hnow
    · exact hnow

theorem Inv.lockRead (h : Inv w) (env : PiEnv F) (hp : (w.pc t).calm = true) (uaddr : ℕ) (m : F)
    (timed trylock : Bool) (i : PiInput) : Inv (w.lockRead env t uaddr m timed trylock i) := by
  unfold PiWorld.lockRead
  split
  · exact h.fail hp _
  refine h.calm hp rfl ?_
  split
  · rintro _ _ ⟨⟩
  rename_i o ho
  split
  · rintro _ _ ⟨⟩
  · exact pins_classify env w (names_ofWord ho)

theorem Inv.queued (h : Inv w) (hp : (w.pc t).calm = true) {rank : ℕ} (hb : Base w.table m st)
    {o : PiTid} (ho : st.owner = some o) (htid : st.ownerTid = o.val) (hname : Names (w.word m) o)
    (hc : Contended (w.word m)) (timed trylock : Bool) :
    Inv ((w.enqueue m st ⟨t, rank, none⟩).queued t m timed trylock) := by
  refine h.enqueue hp ?_ ?_ ?_ hb ⟨fun hnone => ?_, fun o' ho' => ?_⟩
  · cases trylock with
    | true => exact ⟨rfl, rfl⟩
    | false => exact .inl ⟨rfl, rfl⟩
  · cases trylock <;> rfl
  · cases trylock <;> trivial
  · rw [show st.owner = none from hnone] at ho
    cases ho
  · cases ho.symm.trans ho'
    exact ⟨htid, hname, hc⟩

theorem base_empty (tbl : OrdMap F (PiState F)) (m : F) (id uaddr : ℕ) (owner : Option PiTid)
    (ownerTid : BitVec 32) : Base tbl m ⟨id, uaddr, owner, ownerTid, []⟩ :=
  ⟨nofun, nodup_nil⟩

variable {x : PiWaiter F}

section

variable (h : Inv w)
include h

section

variable (hp : (w.pc t).calm = true)
include hp

/-- The call goes on after a compare-and-exchange, or starts again, or fails. -/
theorem Inv.exchange {f : PiWorld F → PiWorld F}
    {miss : BitVec 32 → PiWorld F → PiWorld F} (hretry : Inv (w.goto t p))
    (hmiss : ∀ seen, Inv (miss seen w)) (hf : w.word m = old → Inv (f (w.setWord m new))) :
    Inv (match w.cmpxchg m old new access with
      | .error e => if e.transient then w.goto t p else w.fail t e
      | .ok (seen, w') => if seen ≠ old then miss seen w' else f w') := by
  split
  · split
    · exact hretry
    · exact h.fail hp _
  rename_i seen w' hx
  obtain ⟨rfl, hno, hhit⟩ := cmpxchg_ok hx
  split_ifs with hne
  · rw [hno hne]
    exact hmiss _
  rw [Decidable.not_not] at hne
  rw [hhit hne]
  exact hf hne

theorem Inv.attachFirst {ownerTid : BitVec 32} (hpin : Pins uval ownerPin)
    (hword : w.word m = uval ||| FUTEX_WAITERS) (htid : ownerTid = ownerBits uval) (uaddr : ℕ)
    (timed trylock : Bool) (i : PiInput) :
    Inv (w.attachFirst t uaddr m timed trylock ownerTid ownerPin i) := by
  unfold PiWorld.attachFirst
  split
  · exact h.fail hp _
  rename_i l owner
  split
  · exact h.calm hp rfl trivial
  · exact h.fail hp _
  · exact h.fail hp _
  case h_4 o _ =>
    split
    · exact h.fail hp _
    have hname : Names uval o := (hpin l _ rfl).1 o rfl
    refine h.queued hp (base_empty ..) rfl (htid.trans hname) ?_ ?_ timed trylock
    · rw [hword]
      exact (ownerBits_publish uval).trans hname
    · rw [hword]
      exact contended_or_right _ _ contended_waiters

theorem Inv.attachExisting (hst : w.table.get? m = some st) (uval : BitVec 32)
    (ownerPin : OwnerPin) (uaddr : ℕ) (timed trylock : Bool)
    (i : PiInput) : Inv (w.attachExisting t uaddr m timed trylock uval ownerPin st i) := by
  unfold PiWorld.attachExisting
  split
  · exact h.fail hp _
  · exact h.fail hp _
  rename_i _ o l pinned ho
  split
  · exact h.calm hp rfl trivial
  · exact h.fail hp _
  split
  · exact h.fail hp _
  split
  · exact h.fail hp _
  · obtain ⟨htid, hname, hc⟩ := (h.owners.state m st hst).2 o ho
    exact h.queued hp (h.records.base hst) ho htid hname hc timed trylock

theorem Inv.lockTable {timed trylock : Bool} (hpin : Pins uval ownerPin) (i : PiInput) :
    Inv (w.lockTable t uaddr m timed trylock uval ownerPin i) := by
  have hretry : Inv (w.goto t (.lockRead uaddr m timed trylock)) := h.calm hp rfl trivial
  unfold PiWorld.lockTable
  split
  · exact h.fail hp _
  split
  · exact h.fail hp _
  case h_2 newval hstep =>
    obtain ⟨-, hfree, hnew, -⟩ := lockPiStep_take hstep
    refine h.exchange hp hretry (fun _ => hretry) fun heq => ?_
    have htake := h.take hp (heq.symm ▸ hfree) hnew
    exact (htake.calm (p := .user) hp rfl trivial).returns _
  case h_3 newval ownerTid hstep =>
    obtain ⟨-, rfl, htid⟩ := lockPiStep_publish hstep
    refine h.exchange hp hretry (fun _ => hretry) fun heq => ?_
    have hpub : Inv (w.setWord m (uval ||| FUTEX_WAITERS)) := by
      refine h.reword ?_ fun _ => contended_or_right _ _ contended_waiters
      rw [ownerBits_publish, heq]
    exact hpub.attachFirst hp hpin (update_self ..) htid uaddr timed trylock i
  · split
    · exact h.fail hp _
    case h_2 st hst => exact h.attachExisting hp hst uval ownerPin uaddr timed trylock i

/-! ### `unlock_pi` -/

theorem Inv.unlockRead (m : F) (i : PiInput) : Inv (w.unlockRead t m i) := by
  unfold PiWorld.unlockRead
  split
  · exact h.fail hp _
  split
  · exact h.fail hp _
  rename_i hmay
  refine h.calm hp rfl ?_
  unfold mayUnlock at hmay
  split at hmay
  case isTrue hn => exact hn
  · cases hmay

end

/-- Nobody but the owner was told that it has the mutex. -/
theorem Inv.holds_of_names (hn : Names (w.word m) t) (hu : u ≠ t) : w.holds u m = false := by
  cases hh : w.holds u m with
  | false => rfl
  | true => exact absurd (Names.unique (h.owners.told u m hh).1 hn) hu

/-- What giving a mutex back does to what tasks were told. -/
theorem Inv.released_holds (hn : Names (w.word m) t) (hw' : w'.holds = w.holds) :
    (∀ u k, k ≠ m → (w'.setHolds t m false).holds u k = w.holds u k) ∧
      ∀ u, (w'.setHolds t m false).holds u m = false := by
  constructor
  · intro u k hk
    rw [setHolds_apply, if_neg fun h => hk h.2, hw']
  intro u
  rw [setHolds_apply, hw']
  split_ifs with hu
  · rfl
  · exact h.holds_of_names hn fun hut => hu ⟨hut, rfl⟩

/-- A record under the caller's number is the caller's. -/
theorem Inv.owner_of_tid (hst : w.table.get? m = some st) (htid : st.ownerTid = t.val) :
    st.owner = some t := by
  obtain ⟨hnone, hsome⟩ := h.owners.state m st hst
  cases ho : st.owner with
  | none => exact absurd ((hnone ho).1.symm.trans htid).symm t.visible.1
  | some o => rw [PiTid.ext_val ((hsome o ho).1.symm.trans htid)]

section

variable (hp : (w.pc t).calm = true)
include hp

theorem Inv.unlockHandoff (hst : w.table.get? m = some st) (htop : st.topWaiter = some x)
    (uval : BitVec 32) (i : PiInput) : Inv (w.unlockHandoff t m uval st x i) := by
  have hretry : Inv (w.goto t (.unlockRead m)) := h.calm hp rfl trivial
  unfold PiWorld.unlockHandoff
  split_ifs with htid
  · exact h.fail hp _
  rw [Decidable.not_not] at htid
  refine h.exchange hp hretry (fun seen => ?_) fun heq => ?_
  · split
    · exact hretry
    · exact h.fail hp _
  have hn := ((h.owners.state m st hst).2 t (h.owner_of_tid hst htid)).2.1
  obtain ⟨hpc, hword, hholds, hgrant⟩ :=
    handoff_rest (w.setWord m (handoffWord x.tid.val)) m st x .owner
  obtain ⟨hother, hnone⟩ := h.released_holds hn hholds
  have hinv : Inv (((w.setWord m (handoffWord x.tid.val)).handoff m st x .owner).setHolds
      t m false) := by
    refine h.handoff hst htop hn (calm_goal hp)
      (names_handoffWord x.tid) (contended_or_left _ _ contended_waiters) rfl hpc hword
      hgrant ?_ hother hnone
    unfold PiWorld.handoff
    dsimp only
    split <;> rfl
  refine (hinv.calm (p := .user) ?_ rfl trivial).returns _
  show (((w.setWord m (handoffWord x.tid.val)).handoff m st x .owner).pc t).calm = true
  rwa [hpc]

theorem Inv.unlockClear (hn : Names uval t) (i : PiInput) : Inv (w.unlockClear t m uval i) := by
  have hretry : Inv (w.goto t (.unlockRead m)) := h.calm hp rfl trivial
  unfold PiWorld.unlockClear
  split
  · exact h.fail hp _
  refine h.exchange hp hretry (fun _ => hretry) fun heq => ?_
  obtain ⟨hother, hnone⟩ :=
    h.released_holds (heq.symm ▸ hn)
      (show ((w.setWord m 0).dropState m).holds = w.holds from rfl)
  have hinv : Inv (((w.setWord m 0).dropState m).setHolds t m false) := by
    refine h.free (heq.symm ▸ hn) (calm_goal hp) rfl rfl rfl
      (update_self ..) (fun k hk => update_of_ne hk ..) hother hnone ?_
    intro k st hst
    obtain ⟨hk, hget⟩ := of_get?_erase hst
    exact ⟨hget, fun hkm => absurd hkm hk⟩
  exact (hinv.calm (p := .user) hp rfl trivial).returns _

theorem Inv.unlockTable (hn : Names uval t) (i : PiInput) : Inv (w.unlockTable t m uval i) := by
  unfold PiWorld.unlockTable
  split
  · exact h.unlockClear hp hn i
  rename_i st hst
  split
  · exact h.unlockClear hp hn i
  case h_2 x htop => exact h.unlockHandoff hp hst htop uval i

/-! ### `wait_requeue_pi` -/

theorem Inv.waitRead (uaddr : ℕ) (m : F) (val : BitVec 32) (target : F)
    (timed : Bool) (i : PiInput) : Inv (w.waitRead t uaddr m val target timed i) := by
  unfold PiWorld.waitRead
  split
  · exact h.fail hp _
  · split
    · exact h.fail hp _
    · exact h.calm hp rfl trivial

theorem Inv.waitTable (uaddr : ℕ) (m : F) (val : BitVec 32) (target : F) (timed : Bool)
    (i : PiInput) : Inv (w.waitTable t uaddr m val target timed i) := by
  unfold PiWorld.waitTable
  split
  · exact h.fail hp _
  split
  · exact h.calm hp rfl trivial
  · exact h.fail hp _
  split
  · exact h.fail hp _
  -- the record there is, or a new one without an owner
  have hbase : Base w.table m
        ((w.table.get? m).getD ⟨w.nextId, uaddr, none, 0, []⟩) ∧
      PiState.OwnerOk ((w.table.get? m).getD ⟨w.nextId, uaddr, none, 0, []⟩) (w.word m) := by
    cases hst : w.table.get? m with
    | none =>
      refine ⟨base_empty .., fun _ => ⟨rfl, nofun⟩, nofun⟩
    | some st => exact ⟨h.records.base hst, h.owners.state m st hst⟩
  refine h.enqueue
    (p := .parked m (some target) timed) hp (.inl ⟨rfl, rfl⟩) rfl trivial hbase.1 ?_
  exact PiState.OwnerOk.addTarget hbase.2 nofun

end

/-! ### `exit_pi_state_list` -/

theorem Inv.dying (hp : (w.pc t).dead = true) (hp' : p.dead = true) (hch : p.Checked t) :
    Inv (w.goto t p) := by
  refine h.repc ?_ ?_ ?_ (fun k hk => .inr (.inr hp')) hch
  · rintro k x hx rfl
    exact absurd (h.records.known k x hx).1 (dead_mayQueue hp)
  · intro k hk
    rw [dead_goal hp'] at hk
    cases hk
  intro _ k
  cases hh : w.holds t k with
  | false => rfl
  | true =>
    rw [(h.owners.told t k hh).2] at hp
    cases hp

end

variable {id : ℕ}

theorem findOwned_spec (h : w.findOwned t id uaddr = some (m, st)) :
    w.table.get? m = some st ∧ st.owner = some t := by
  have hmem := mem_of_find?_eq_some h
  have hprop := List.find?_some h
  rw [decide_eq_true_eq] at hprop
  exact ⟨get?_eq_some_iff_mem.mpr hmem, hprop.2.1⟩

variable {env : PiEnv F}

theorem exitExchange_some {newval : BitVec 32} {i : PiInput}
    (h : w.exitExchange env t uaddr uval newval i = some w') :
    w' = w.setWord (env.resolve t uaddr) newval := by
  unfold exitExchange at h
  split at h
  · cases h
  split at h
  · cases h
  rename_i seen w1 hx
  obtain ⟨-, -, hhit⟩ := cmpxchg_ok hx
  split at h
  · cases h
  case isFalse heq =>
    cases h
    exact hhit (Decidable.not_not.mp heq)

/-- Nobody was told that it has the mutex of a task on its way out. -/
theorem Inv.holds_of_dead (h : Inv w) (hn : Names (w.word m) t) (hp : (w.pc t).dead = true)
    (u : PiTid) : w.holds u m = false := by
  cases hh : w.holds u m with
  | false => rfl
  | true =>
  obtain ⟨hname, hdead⟩ := h.owners.told u m hh
  rw [Names.unique hname hn, hp] at hdead
  cases hdead

theorem Inv.exitTable (h : Inv w) (env : PiEnv F) (hp : (w.pc t).dead = true)
    (hc : ∀ m st, w.findOwned t id uaddr = some (m, st) → env.resolve t uaddr = m) (i : PiInput) :
    Inv (w.exitTable env t id uaddr uval i) := by
  have hgo : Inv (w.goto t .exiting) := h.dying hp rfl trivial
  unfold PiWorld.exitTable
  split
  · exact hgo
  rename_i m st hfind
  obtain ⟨hst, howner⟩ := findOwned_spec hfind
  have hn := ((h.owners.state m st hst).2 t howner).2.1
  have hgoal := dead_goal hp
  split
  case h_1 x htop =>
    split
    · exact hgo
    case h_2 w1 hx =>
      rw [exitExchange_some hx, hc m st hfind]
      obtain ⟨hpc, hword, hholds, hgrant⟩ :=
        handoff_rest (w.setWord m (deadOwnerHandoffWord uval x.tid.val)) m st x .ownerDied
      have hinv : Inv ((w.setWord m (deadOwnerHandoffWord uval x.tid.val)).handoff m st x
          .ownerDied) := by
        refine h.handoff hst htop hn hgoal
          (names_deadOwnerHandoffWord uval x.tid) ?_ rfl hpc hword hgrant ?_ ?_ ?_
        · exact contended_or_left _ _ (contended_or_left _ _
            (contended_or_right _ _ contended_waiters))
        · unfold PiWorld.handoff
          dsimp only
          split <;> rfl
        · intro u k _
          rw [hholds]
          rfl
        · intro u
          rw [hholds]
          exact h.holds_of_dead hn hp u
      refine hinv.dying ?_ rfl trivial
      rwa [hpc]
  split
  · exact hgo
  · case h_2 w1 hx =>
    rw [exitExchange_some hx, hc m st hfind]
    have hinv : Inv ((w.setWord m (ownerDiedWord uval)).dropState m) := by
      refine h.free hn hgoal (ownerBits_ownerDiedWord uval) rfl rfl (update_self ..)
        (fun k hk => update_of_ne hk ..) (fun u k _ => rfl) (h.holds_of_dead hn hp) ?_
      intro k st' hst'
      obtain ⟨hk, hget⟩ := of_get?_erase hst'
      exact ⟨hget, fun hkm => absurd hkm hk⟩
    exact hinv.dying hp rfl trivial

/-- The waiters of a record that goes are told that it cannot be reached. -/
theorem Inv.exitFault (h : Inv w) (hp : (w.pc t).dead = true) (id uaddr : ℕ) :
    Inv (w.exitFault t id uaddr) := by
  unfold PiWorld.exitFault
  split
  · exact h.dying hp rfl trivial
  rename_i m st hfind
  obtain ⟨hst, -⟩ := findOwned_spec hfind
  have hdrop := h.drop m
  -- whoever waits in the record waits nowhere else, and was granted nothing
  have hwaits : ∀ u, (st.waiters.any fun x => x.tid = u) = true → ∃ x ∈ st.marks, x.1 = u := by
    intro u hu
    obtain ⟨x, hx, hxu⟩ := any_eq_true.mp hu
    exact ⟨x.mark, mem_marks hx, of_decide_eq_true hxu⟩
  have hinv : Inv { w.dropState m with grant := w.faulted st } := by
    have howner : ∀ u, (w.faulted st u).isOwner = (w.grant u).isOwner := by
      intro u
      unfold faulted
      split_ifs with hu
      · obtain ⟨x, hx, rfl⟩ := hwaits u hu
        rw [(h.records.known m x ⟨st, hst, hx⟩).2]
        rfl
      · rfl
    refine ⟨hdrop.records.regrant fun u => ?_, ⟨hdrop.owners.state, ?_, hdrop.owners.told, ?_⟩,
      hdrop.checked⟩
    · by_cases hu : (st.waiters.any fun x => x.tid = u) = true
      · left
        obtain ⟨x, hx, rfl⟩ := hwaits u hu
        rintro k y ⟨st', hst', hy⟩ hyx
        obtain ⟨hk, hget⟩ := of_get?_erase hst'
        exact hk (h.records.single k m y x ⟨st', hget, hy⟩ ⟨st, hst, hx⟩ hyx)
      · exact .inr (if_neg hu)
    · intro u k hk hg
      exact h.owners.granted u k hk ((howner u).symm.trans hg)
    · intro u k hk
      refine Or.imp_right (Or.imp_left ?_) (h.owners.named u k hk)
      exact fun hg => ⟨hg.1, (howner u).trans hg.2⟩
  exact hinv.dying hp rfl trivial

/-! ### `cmp_requeue_pi` -/

theorem Inv.requeueRead (h : Inv w) (env : PiEnv F) (hp : (w.pc t).calm = true) (uaddr2 : ℕ)
    (hne : m1 ≠ m2) (nrRequeue : ℕ) (cmpval : BitVec 32) (i : PiInput) :
    Inv (w.requeueRead env t m1 uaddr2 m2 hne nrRequeue cmpval i) := by
  unfold PiWorld.requeueRead
  split
  · exact h.fail hp _
  split
  · exact h.fail hp _
  refine h.calm hp rfl ⟨?_, ?_⟩
  · cases ho : PiTid.ofWord (w.word m2) with
    | none => rintro _ _ ⟨⟩
    | some => exact pins_classify env w (names_ofWord ho)
  intro hnone
  cases ho : PiTid.ofWord (w.word m2) with
  | none => exact free_ofWord ho
  | some =>
    simp [ho] at hnone

/-- A source from which waiters can be moved to a mutex, and the owner of that. -/
structure Movable (w : PiWorld F) (m2 : F) (uval₂ : BitVec 32) (src : PiState F)
    (owner : Option PiTid) : Prop where
  unowned : src.owner = none
  targets : ∀ x ∈ src.waiters, x.requeueTarget = some m2
  joined : ∀ dst, w.table.get? m2 = some dst → dst.owner ≠ none
  names : ∀ o, owner = some o → Names uval₂ o
  free : owner = none → ownerBits uval₂ = 0#32

variable {uval2 : BitVec 32} {owner : Option PiTid}

theorem requeueOwner_ok {owner2 : OwnerPin} (hpin : Pins uval2 owner2)
    (hfree : owner2 = none → ownerBits uval2 = 0#32)
    (h : w.requeueOwner m2 uval2 owner2 src = .ok owner) : Movable w m2 uval2 src owner := by
  unfold requeueOwner at h
  split at h
  · cases h
  rename_i hsrc
  rw [not_or, not_or] at hsrc
  obtain ⟨howner, -, htargets⟩ := hsrc
  dsimp only at h
  split at h
  · cases h
  case h_2 o ho =>
    -- the owner that was pinned, if it is alive
    have hpinned : (∀ x, o = some x → Names uval2 x) ∧ (o = none → ownerBits uval2 = 0#32) := by
      split at ho
      · cases ho
        exact ⟨nofun, fun _ => hfree rfl⟩
      case h_2 l o' =>
        obtain ⟨hname, halive⟩ := hpin l o' rfl
        split at ho
        · cases ho
        · cases ho
        case h_3 hattach =>
          cases ho
          exact ⟨hname, fun hnone => absurd (alive_of_attach hattach) (halive hnone)⟩
    have hkeep : o = owner ∧ ∀ dst, w.table.get? m2 = some dst → dst.owner ≠ none := by
      split at h
      case h_1 hnone =>
        cases h
        refine ⟨rfl, fun dst hdst => ?_⟩
        cases hnone.symm.trans hdst
      case h_2 dst hdst =>
        split at h
        · cases h
        case isFalse hok =>
          cases h
          refine ⟨rfl, fun dst' hdst' hnone => hok (.inl ?_)⟩
          cases hdst.symm.trans hdst'
          exact hnone
    obtain ⟨rfl, hjoined⟩ := hkeep
    refine ⟨Option.not_isSome_iff_eq_none.mp howner, ?_, hjoined, hpinned.1, hpinned.2⟩
    intro x hx
    by_contra hno
    exact htargets (any_eq_true.mpr ⟨x, hx, decide_eq_true hno⟩)

/-- What the attempt to acquire the mutex for the first waiter leaves. -/
structure ProxyOk (w : PiWorld F) (m1 m2 : F) (nrRequeue : ℕ) (src : PiState F) (q : Proxy F) :
    Prop where
  inv : Inv q.world
  pc : q.world.pc = w.pc
  source : q.world.table.get? m1 = some { src with waiters := q.waiters }
  targets : ∀ x ∈ q.waiters, x.requeueTarget = some m2
  joined : ∀ dst, q.world.table.get? m2 = some dst → dst.owner ≠ none
  -- a new record of the mutex has an owner, and the word says that somebody waits
  fresh : q.world.table.get? m2 = none → q.waiters ≠ [] → q.limit nrRequeue ≠ 0 → ∃ o,
    q.owner = some o ∧ q.ownerTid = o.val ∧ Names (q.world.word m2) o ∧ Contended (q.world.word m2)

/-- The first waiter gets the free mutex. -/
theorem Inv.proxyTake (h : Inv w) (hne : m1 ≠ m2) (hsrc : w.table.get? m1 = some src)
    (hx : x ∈ src.waiters) (hxt : x.requeueTarget = some m2)
    (hnone : w.table.get? m2 = none) (hfree : ownerBits (w.word m2) = 0#32) (hv : Names v x.tid) :
    Inv (((w.setWord m2 v).putState m1
      { src with waiters := withoutTid x.tid src.waiters }).setGrant x.tid .owner) := by
  have hmark : Has w.table m1 x.mark := ⟨src, hsrc, mem_marks hx⟩
  have hwait : (w.pc x.tid).goal = some m2 := by
    have hq := (h.records.known m1 _ hmark).1.goal
    rwa [show x.mark.2 = some m2 from hxt] at hq
  have hsub : (PiState.marks { src with waiters := withoutTid x.tid src.waiters }).Sublist
      src.marks := withoutTid_sublist x.tid src.waiters
  refine h.grantTo hwait (fun u hu => absurd hu (not_names_of_free hfree)) hv rfl rfl rfl rfl
    (Fewer.insert hsrc hsub) ?_ ?_ (fun u k _ => rfl) ?_
  · rintro k y ⟨st', hst', hy⟩ hyx
    rcases of_get?_insert hst' with ⟨rfl, rfl⟩ | ⟨hk, hold⟩
    · exact withoutTid_absent x.tid (h.records.distinct k src hsrc) y hy hyx
    · exact hk (h.records.single k m1 y _ ⟨st', hold, hy⟩ hmark hyx)
  · intro k st' hst'
    rcases of_get?_insert hst' with ⟨rfl, rfl⟩ | ⟨hk, hold⟩
    · exact .inr ⟨hne, (h.owners.state k src hsrc).fewer rfl rfl fun _ hy => hsub.subset hy⟩
    · refine .inr ⟨?_, h.owners.state k st' hold⟩
      rintro rfl
      cases hnone.symm.trans hold
  · intro u
    refine Bool.eq_false_iff.mpr fun hu => ?_
    exact not_names_of_free hfree (h.owners.told u m2 hu).1

variable {q : Proxy F}

theorem Inv.proxyAcquire (h : Inv w) (hne : m1 ≠ m2) (hsrc : w.table.get? m1 = some src)
    (hmov : Movable w m2 uval2 src owner) (hword : w.word m2 = uval2)
    (hq : w.proxyAcquire m1 m2 nrRequeue uval2 owner src access = .ok q) :
    ProxyOk w m1 m2 nrRequeue src q := by
  unfold PiWorld.proxyAcquire at hq
  split at hq
  case h_1 hempty =>
    cases hq
    have hnil : src.waiters = [] := argmin_eq_none.mp hempty
    exact ⟨h, rfl, hsrc, hmov.targets, hmov.joined, fun _ hw => absurd hnil hw⟩
  rename_i x hfirst
  have hx := firstByRank_mem hfirst
  split at hq
  · cases hq
  case h_2 newval hstep =>
    obtain ⟨hhave, hfree, hnew, hcont⟩ := lockPiStep_take hstep
    have hnone : w.table.get? m2 = none := by
      rwa [← Option.not_isSome_iff_eq_none, Bool.not_eq_true]
    split at hq
    · cases hq
    case h_2 seen w1 hxchg =>
      obtain ⟨rfl, -, hhit⟩ := cmpxchg_ok hxchg
      split at hq
      · cases hq
      cases hq
      rw [hhit hword]
      have hother : (w.table.insert m1
          { src with waiters := withoutTid x.tid src.waiters }).get? m2 = none := by
        rwa [get?_insert, if_neg hne.symm]
      refine ⟨h.proxyTake hne hsrc hx (hmov.targets x hx) hnone (hword.symm ▸ hfree) hnew, rfl,
        ?_, ?_, ?_, ?_⟩
      · exact (get?_insert ..).trans (if_pos rfl)
      · exact fun y hy => hmov.targets y (mem_of_mem_eraseP hy)
      · intro dst hdst
        cases hother.symm.trans hdst
      intro _ _ hlimit
      have hnr : (nrRequeue != 0) = true := bne_iff_ne.mpr hlimit
      refine ⟨x.tid, rfl, rfl, ?_, ?_⟩
      · show Names (update w.word m2 newval m2) x.tid
        rwa [update_self]
      · show Contended (update w.word m2 newval m2)
        rw [update_self]
        exact hcont hnr
  case h_3 newval ownerTid hstep =>
    obtain ⟨-, rfl, -⟩ := lockPiStep_publish hstep
    split at hq
    · cases hq
    case h_2 seen w1 hxchg =>
      obtain ⟨rfl, -, hhit⟩ := cmpxchg_ok hxchg
      split at hq
      · cases hq
      cases hq
      rw [hhit hword]
      have hpub : Inv (w.setWord m2 (uval2 ||| FUTEX_WAITERS)) := by
        refine h.reword ?_ fun _ => contended_or_right _ _ contended_waiters
        rw [ownerBits_publish, hword]
      refine ⟨hpub, rfl, hsrc, hmov.targets, hmov.joined, fun _ _ _ => ?_⟩
      have hnow : (w.setWord m2 (uval2 ||| FUTEX_WAITERS)).word m2 = uval2 ||| FUTEX_WAITERS :=
        update_self ..
      cases ho : owner with
      | none =>
        -- the rule for a word without an owner is another
        exfalso
        have hfree : uval2 &&& FUTEX_TID_MASK = 0 := hmov.free ho
        unfold lockPiStep at hstep
        split at hstep
        · cases hstep
        · split at hstep
          · cases hstep
          · cases hstep
      | some o =>
      have hname := hmov.names o ho
      refine ⟨o, rfl, hname, ?_, ?_⟩
      · rw [hnow]
        exact (ownerBits_publish uval2).trans hname
      · rw [hnow]
        exact contended_or_right _ _ contended_waiters
  case h_4 hstep =>
    cases hq
    refine ⟨h, rfl, hsrc, hmov.targets, hmov.joined, fun hnone => ?_⟩
    -- there is a record of the mutex
    unfold lockPiStep at hstep
    rw [show w.table.get? m2 = none from hnone] at hstep
    split at hstep
    · cases hstep
    · split at hstep
      case isTrue hsome => cases hsome
      · split at hstep <;> cases hstep

theorem kept_get? (w : PiWorld F) (hne : m1 ≠ m2) (src : PiState F) (rest : List (PiWaiter F)) :
    (w.kept m1 src rest).table.get? m2 = w.table.get? m2 := by
  unfold kept
  split
  · exact (get?_erase ..).trans (if_neg hne.symm)
  · exact (get?_insert ..).trans (if_neg hne.symm)

theorem kept_rest (w : PiWorld F) (m1 : F) (src : PiState F) (rest : List (PiWaiter F)) :
    (w.kept m1 src rest).pc = w.pc ∧ (w.kept m1 src rest).word = w.word ∧
      (w.kept m1 src rest).grant = w.grant := by
  unfold kept
  split <;> exact ⟨rfl, rfl, rfl⟩

/-- A waiter there afterwards was there before, and is one of those left if it is at the source. -/
theorem kept_has {rest : List (PiWaiter F)} {x : PiTid × Option F}
    (hx : Has (w.kept m1 src rest).table k x) :
    k ≠ m1 ∧ Has w.table k x ∨ k = m1 ∧ x ∈ rest.map mark := by
  obtain ⟨st', hst', hmem⟩ := hx
  unfold kept at hst'
  split at hst'
  · obtain ⟨hk, hget⟩ := of_get?_erase hst'
    exact .inl ⟨hk, st', hget, hmem⟩
  · rcases of_get?_insert hst' with ⟨hk, rfl⟩ | ⟨hk, hget⟩
    · exact .inr ⟨hk, hmem⟩
    · exact .inl ⟨hk, st', hget, hmem⟩

theorem Inv.kept (h : Inv w) {ws rest : List (PiWaiter F)}
    (hsrc : w.table.get? m1 = some { src with waiters := ws })
    (hsub : (rest.map mark).Sublist (ws.map mark)) :
    Inv (w.kept m1 src rest) := by
  unfold PiWorld.kept
  split
  · exact h.drop m1
  · exact h.put hsrc rfl rfl hsub

/-- The record of the mutex that waiters join has an owner. -/
theorem ProxyOk.target (hok : ProxyOk w m1 m2 nrRequeue src q)
    (hq : q.waiters ≠ [] ∧ q.limit nrRequeue ≠ 0) (h' : Inv w')
    (hget : w'.table.get? m2 = q.world.table.get? m2) (hword : w'.word = q.world.word) {n : ℕ}
    (hdst : dst = (q.world.table.get? m2).getD ⟨n, uaddr, q.owner, q.ownerTid, []⟩) :
    Base w'.table m2 dst ∧ dst.owner ≠ none ∧ dst.OwnerOk (w'.word m2) := by
  cases hm : q.world.table.get? m2 with
  | none =>
    rw [hm] at hdst
    cases hdst
    obtain ⟨o, howner, htid, hname, hcont⟩ := hok.fresh hm hq.1 hq.2
    refine ⟨base_empty .., ?_, ?_, ?_⟩
    · rw [howner]
      exact Option.some_ne_none o
    · intro hnone
      cases howner.symm.trans hnone
    intro o' ho'
    cases howner.symm.trans ho'
    rw [hword]
    exact ⟨htid, hname, hcont⟩
  | some st =>
  rw [hm] at hdst
  cases hdst
  have hst := hget.trans hm
  exact ⟨h'.records.base hst, hok.joined st hm, h'.owners.state m2 st hst⟩

theorem Inv.carry (hok : ProxyOk w m1 m2 nrRequeue src q) (hne : m1 ≠ m2)
    (hp : (w.pc t).calm = true) (uaddr2 : ℕ) (i : PiInput) :
    Inv (PiWorld.carry q t m1 uaddr2 m2 nrRequeue src i) := by
  have h := hok.inv
  have hcalm : (q.world.pc t).calm = true := by rwa [hok.pc]
  have hsub := takeFirst_sublist (q.limit nrRequeue) q.waiters
  have hd : Distinct (q.waiters.map mark) := h.records.distinct m1 _ hok.source
  have hperm := takeFirst_perm (q.limit nrRequeue) q.waiters hd
  have hnil : (takeFirst (q.limit nrRequeue) q.waiters).1 ≠ [] →
      q.waiters ≠ [] ∧ q.limit nrRequeue ≠ 0 := by
    intro hmoved
    constructor
    · intro hempty
      rw [hempty] at hperm hmoved
      have hnone := append_eq_nil_iff.mp (nil_perm.mp hperm)
      exact hmoved (map_eq_nil_iff.mp hnone.1)
    · intro hzero
      rw [hzero] at hmoved
      exact hmoved rfl
  unfold PiWorld.carry
  dsimp only
  generalize takeFirst (q.limit nrRequeue) q.waiters = r at hsub hperm hnil ⊢
  split
  · exact h.fail hcalm _
  have hkept : Inv (q.world.kept m1 src r.2) := h.kept hok.source hsub
  obtain ⟨hpc, hword, hgrant⟩ := kept_rest q.world m1 src r.2
  have hcalm' : ((q.world.kept m1 src r.2).pc t).calm = true := by rwa [hpc]
  rw [kept_get? q.world hne]
  unfold joined
  split_ifs with hmoved
  · exact (hkept.calm (p := .user) hcalm' rfl trivial).returns _
  have hmoved : r.1 ≠ [] := by
    intro hempty
    rw [hempty] at hmoved
    exact hmoved rfl
  -- the waiters that move are in the source, and nowhere once they have left it
  have hdm : Distinct (r.1.map mark ++ r.2.map mark) :=
    (hperm.map Prod.fst).nodup_iff.mp hd
  have hin : ∀ x ∈ r.1, Has q.world.table m1 x.mark := fun x hx =>
    ⟨_, hok.source, hperm.mem_iff.mpr (mem_append_left _ (mem_map_of_mem hx))⟩
  have hgone : ∀ x ∈ r.1, Absent (q.world.kept m1 src r.2).table x.tid := by
    intro x hx k y hy hyx
    rcases kept_has hy with ⟨hk, hold⟩ | ⟨-, hleft⟩
    · exact hk (h.records.single k m1 y x.mark hold (hin x hx) hyx)
    unfold Distinct at hdm
    rw [map_append, nodup_append] at hdm
    refine hdm.2.2 x.tid ?_ y.1 (mem_map_of_mem hleft) hyx.symm
    exact mem_map_of_mem (mem_map_of_mem hx)
  have htarget : ∀ x ∈ r.1, x.requeueTarget = some m2 := by
    intro x hx
    obtain ⟨y, hy, hyx⟩ := mem_map.mp (hperm.mem_iff.mpr (mem_append_left _ (mem_map_of_mem hx)))
    exact (Prod.mk.inj hyx).2.symm.trans (hok.targets y hy)
  have hl : ∀ x ∈ (transferred i.rank r.1).map mark,
      ((q.world.kept m1 src r.2).pc x.1).MayQueue m2 x.2 ∧
        (q.world.kept m1 src r.2).grant x.1 = .pending ∧
        Absent (q.world.kept m1 src r.2).table x.1 := by
    rw [transferred, map_map]
    intro z hz
    obtain ⟨x, hx, rfl⟩ := mem_map.mp hz
    have hknown := h.records.known m1 _ (hin x hx)
    rw [show x.mark.2 = some m2 from htarget x hx] at hknown
    rw [hpc, hgrant]
    exact ⟨hknown.1.move, hknown.2, hgone x hx⟩
  have hdt : Distinct ((transferred i.rank r.1).map mark) := by
    rw [Distinct, transferred, map_map, map_map]
    unfold Distinct at hdm
    rw [map_append, nodup_append, map_map] at hdm
    exact hdm.1
  obtain ⟨hbase, howner, hdst⟩ := hok.target (hnil hmoved) hkept (kept_get? _ hne _ _) hword rfl
  have hjoin := hkept.join hbase ⟨fun hnone => absurd hnone howner, hdst.2⟩ hdt hl
  exact ((hjoin.nextId _).calm (p := .user) hcalm' rfl trivial).returns _

theorem Inv.requeueTable (h : Inv w) (hp : (w.pc t).calm = true) (uaddr2 : ℕ) (hne : m1 ≠ m2)
    (nrRequeue : ℕ) (cmpval uval1 uval2 : BitVec 32) (owner2 : OwnerPin)
    (hpin : Pins uval2 owner2) (hfree : owner2 = none → ownerBits uval2 = 0#32) (i : PiInput) :
    Inv (w.requeueTable t m1 uaddr2 m2 hne nrRequeue cmpval uval1 uval2 owner2 i) := by
  unfold PiWorld.requeueTable
  split
  · exact h.fail hp _
  split
  · exact h.calm hp rfl trivial
  split_ifs with hseen
  · exact h.fail hp _
  have hword : w.word m2 = uval2 := by
    by_contra hno
    exact hseen (.inr (.inr hno))
  split
  · exact (h.calm (p := .user) hp rfl trivial).returns _
  rename_i src hsrc
  dsimp only
  split
  · split
    · exact h.calm hp rfl trivial
    · exact h.fail hp _
  rename_i owner howner
  split
  · split
    · exact h.calm hp rfl trivial
    · exact h.fail hp _
  rename_i q hq
  have hmov := requeueOwner_ok hpin hfree howner
  exact Inv.carry (h.proxyAcquire hne hsrc hmov hword hq) hne hp uaddr2 i

/-! ### Every step -/

theorem Inv.exitPick (h : Inv w) (hp : (w.pc t).dead = true) : Inv (w.exitPick t) := by
  unfold PiWorld.exitPick
  split <;> exact h.dying hp rfl trivial

theorem Inv.exitRead (h : Inv w) (env : PiEnv F) (hp : (w.pc t).dead = true) (id uaddr : ℕ)
    (i : PiInput) : Inv (w.exitRead env t id uaddr i) := by
  unfold PiWorld.exitRead
  split <;> exact h.dying hp rfl trivial

/-- A task that exits holds nothing any more. -/
theorem Inv.exit (h : Inv w) (hp : (w.pc t).calm = true) :
    Inv { w.goto t .exiting with holds := update w.holds t fun _ => false } := by
  refine h.retask t rfl (h.records.repc ?_) h.owners.state
    (fun u hu => ⟨update_of_ne hu .., rfl, update_of_ne hu ..⟩) ?_
  · rintro k x hx rfl
    exact absurd (h.records.known k x hx).1 (calm_mayQueue hp)
  · show TaskOk w.word t (update w.pc t .exiting t) (w.grant t)
      (update w.holds t (fun _ => false) t)
    rw [update_self, update_self]
    exact ⟨trivial, nofun, nofun, fun _ _ => .inr (.inr rfl)⟩

theorem Inv.call (h : Inv w) (env : PiEnv F) (hp : (w.pc t).calm = true) (c : PiCall) :
    Inv (w.call env t c) := by
  unfold PiWorld.call
  split
  · split
    · exact h.fail hp _
    · exact h.calm hp rfl trivial
  · split
    · exact h.fail hp _
    · exact h.calm hp rfl trivial
  · split
    · exact h.fail hp _
    split
    · exact h.fail hp _
    · exact h.fail hp _
    · exact h.calm hp rfl trivial
  · split
    · exact h.fail hp _
    split
    · exact h.fail hp _
    · exact h.fail hp _
    dsimp only
    split
    · exact h.calm hp rfl trivial
    · exact h.fail hp _
  · exact h.exit hp

/-- The steps of a call that keep the words honest: a task that leaves a queue for good was given
nothing, a task that looks again at its grant was not told of a fault, and a dying owner finds the
mutex under the address in the record. -/
def CarefulAt (env : PiEnv F) (w : PiWorld F) (t : PiTid) : PiPc F → Prop
  | .trylockLeave _ | .leaveTarget _ _ => (w.grant t).isOwner = false
  | .recheck _ _ _ => w.grant t ≠ .ownerFault
  | .exitTable id uaddr _ => ∀ m st, w.findOwned t id uaddr = some (m, st) → env.resolve t uaddr = m
  | _ => True

theorem Inv.run (h : Inv w) (env : PiEnv F) (t : PiTid) (i : PiInput)
    (hc : CarefulAt env w t (w.pc t)) : Inv (w.run env t i) := by
  have hch := h.checked t
  unfold PiWorld.run
  split
  · exact h
  · exact h
  case h_3 hpc => exact h.lockRead env (by rw [hpc]; rfl) ..
  case h_4 hpc =>
    rw [hpc] at hch
    exact h.lockTable (by rw [hpc]; rfl) hch i
  case h_5 m hpc =>
    rw [hpc] at hc
    refine h.giveUpLast ?_ (by rw [hpc]; rfl) hc _
    rw [hpc]
    exact fun k tgt hq => hq.1
  case h_6 hpc => exact h.wakeUp hpc i
  case h_7 hpc => exact h.giveUp hpc
  case h_8 hpc =>
    rw [hpc] at hc
    exact h.lookAgain hpc hc
  case h_9 hpc => exact h.waitRead (by rw [hpc]; rfl) ..
  case h_10 hpc => exact h.waitTable (by rw [hpc]; rfl) ..
  case h_11 m e hpc =>
    rw [hpc] at hc
    refine h.giveUpLast ?_ (by rw [hpc]; rfl) hc _
    rw [hpc]
    exact fun k tgt hq => hq.1
  case h_12 hpc => exact h.unlockRead (by rw [hpc]; rfl) ..
  case h_13 hpc =>
    rw [hpc] at hch
    exact h.unlockTable (by rw [hpc]; rfl) hch i
  case h_14 hpc => exact h.requeueRead env (by rw [hpc]; rfl) ..
  case h_15 hpc =>
    rw [hpc] at hch
    exact h.requeueTable (by rw [hpc]; rfl) _ _ _ _ _ _ _ hch.1 hch.2 i
  case h_16 hpc => exact h.exitPick (by rw [hpc]; rfl)
  case h_17 hpc => exact h.exitRead env (by rw [hpc]; rfl) ..
  case h_18 hpc =>
    rw [hpc] at hc
    exact h.exitTable env (by rw [hpc]; rfl) hc i
  case h_19 hpc => exact h.exitFault (by rw [hpc]; rfl) ..

theorem atUser_pc (h : w.atUser env t = true) : w.pc t = .user := by
  unfold atUser at h
  split at h
  · assumption
  · cases h

/-- A task takes a free mutex without a call. -/
theorem Inv.fastLock (h : Inv w) (hp : (w.pc t).calm = true) (hfree : w.word m = 0) :
    Inv ((w.setWord m t.val).setHolds t m true) := by
  refine h.take hp ?_ (ownerBits_val t)
  rw [hfree]
  rfl

/-- A task gives up a mutex nobody waits for without a call. -/
theorem Inv.fastUnlock (h : Inv w) (hp : (w.pc t).calm = true) (hword : w.word m = t.val) :
    Inv ((w.setWord m 0).setHolds t m false) := by
  have hn : Names (w.word m) t := by
    rw [hword]
    exact ownerBits_val t
  obtain ⟨hother, hnone⟩ := h.released_holds hn (show (w.setWord m 0).holds = w.holds from rfl)
  refine h.free hn (calm_goal hp) rfl rfl rfl (update_self ..)
    (fun k hk => update_of_ne hk ..) hother hnone ?_
  intro k st hst
  refine ⟨hst, ?_⟩
  rintro rfl
  cases ho : st.owner with
  | none => rfl
  | some o =>
  have hcont := ((h.owners.state k st hst).2 o ho).2.2
  rw [hword] at hcont
  exact absurd hcont (not_contended_val t)

end PiWorld

end Oxide
