/-
What the owners of priority-inheritance futexes are told.

A call that returns 0 is to leave its caller named in the user word, a call that fails is to leave
it neither named by the call nor queued, and no two tasks are to hold one mutex.

* `PiWorld.Truthful`: the property of a state, `PiWorld.Reported`: of a call that returns;
* `PiWorld.Careful`: the condition on an event;
* `PiWorld.run_answers`: what a step of a call for a mutex may return;
* `PiWorld.truthful_of_careful`: **along every run of careful events ownership is reported
  truthfully**;
* `PiWorld.trylock_untruthful`: a trylock that is handed the mutex between its two critical
  sections reports a failure.
-/
import Oxide.PiCalls
import Oxide.Runs

namespace Oxide

open Function PiWorld

namespace PiWorld

variable {F : Type} [LinearOrder F] {w w' w1 : PiWorld F} {t : PiTid} {m : F}

/-! ### What a call returns -/

/-- A call for a mutex goes on, returns an error, or returns 0 with its caller told it has it. -/
def Answers (w w' : PiWorld F) (t : PiTid) (m : F) : Prop :=
  w'.pc t ≠ .user ∨ (∃ e, w'.ret t = some (.error e)) ∧ w'.holds = w.holds ∨
    w'.ret t = some (.ok 0) ∧ w'.holds t m = true

theorem Answers.goto {p : PiPc F} (hp : p ≠ .user) : Answers w (w1.goto t p) t m := by
  left
  show update w1.pc t p t ≠ .user
  rwa [update_self]

theorem Answers.fail (hw : w1.holds = w.holds) (e : FutexErrno) : Answers w (w1.fail t e) t m :=
  .inr (.inl ⟨⟨e, update_self ..⟩, hw⟩)

theorem Answers.acquired : Answers w (w1.acquired t m) t m := by
  refine .inr (.inr ⟨update_self .., ?_⟩)
  show update w1.holds t (update (w1.holds t) m true) t m = true
  rw [update_self, update_self]

theorem Answers.queued {timed trylock : Bool} : Answers w (w1.queued t m timed trylock) t m := by
  refine Answers.goto ?_
  split <;> exact nofun

theorem Answers.attachFirst (hw : w1.holds = w.holds) (uaddr : ℕ) (timed trylock : Bool)
    (ownerTid : BitVec 32) (ownerPin : OwnerPin) (i : PiInput) :
    Answers w (w1.attachFirst t uaddr m timed trylock ownerTid ownerPin i) t m := by
  unfold PiWorld.attachFirst
  split
  · exact .fail hw _
  split
  · exact .goto nofun
  · exact .fail hw _
  · exact .fail hw _
  · split
    · exact .fail hw _
    · exact .queued

theorem Answers.attachExisting (uaddr : ℕ) (timed trylock : Bool) (uval : BitVec 32)
    (ownerPin : OwnerPin) (st : PiState F) (i : PiInput) :
    Answers w (w.attachExisting t uaddr m timed trylock uval ownerPin st i) t m := by
  unfold PiWorld.attachExisting
  split
  · exact .fail rfl _
  · exact .fail rfl _
  split
  · exact .goto nofun
  · exact .fail rfl _
  split
  · exact .fail rfl _
  · split
    · exact .fail rfl _
    · exact .queued

theorem cmpxchg_holds {old new seen : BitVec 32} {access : Option FutexErrno}
    (h : w.cmpxchg m old new access = .ok (seen, w')) : w'.holds = w.holds := by
  obtain ⟨-, hmiss, hhit⟩ := cmpxchg_ok h
  by_cases hold : seen = old
  · rw [hhit hold]
    rfl
  · rw [hmiss hold]

theorem Answers.lockTable (uaddr : ℕ) (timed trylock : Bool) (uval : BitVec 32)
    (ownerPin : OwnerPin) (i : PiInput) :
    Answers w (w.lockTable t uaddr m timed trylock uval ownerPin i) t m := by
  have hretry : ∀ w1 : PiWorld F, Answers w (w1.goto t (.lockRead uaddr m timed trylock)) t m :=
    fun _ => .goto nofun
  unfold PiWorld.lockTable
  split
  · exact .fail rfl _
  split
  · exact .fail rfl _
  · split
    · split
      · exact hretry _
      · exact .fail rfl _
    · split
      · exact hretry _
      · exact .acquired
  · split
    · split
      · exact hretry _
      · exact .fail rfl _
    rename_i hx
    split
    · exact hretry _
    · exact .attachFirst (cmpxchg_holds hx) ..
  · split
    · exact .fail rfl _
    · exact .attachExisting ..

theorem Answers.parkFails (target : Option F) (e : FutexErrno) :
    Answers w (w.parkFails t target e) t m := by
  unfold PiWorld.parkFails
  split
  · exact .fail rfl _
  · exact .goto nofun

theorem Answers.waitTable (uaddr : ℕ) (m1 : F) (val : BitVec 32) (timed : Bool) (i : PiInput) :
    Answers w (w.waitTable t uaddr m1 val m timed i) t m := by
  unfold PiWorld.waitTable
  split
  · exact .fail rfl _
  split
  · exact .goto nofun
  · exact .fail rfl _
  · split
    · exact .fail rfl _
    · exact .goto nofun

theorem unqueue_holds (w : PiWorld F) (m : F) (t : PiTid) : (w.unqueue m t).holds = w.holds := by
  unfold unqueue
  split
  · rfl
  · dsimp only
    split <;> rfl

variable (env : PiEnv F)

/-- **Ownership is reported truthfully.** The word of a mutex names the task that was told it has
it; a task outside of a call is named only by the mutexes it was told it has, and waits nowhere; and
a mutex has one holder. -/
structure Truthful (w : PiWorld F) : Prop where
  holder : ∀ t m, w.holds t m = true → Names (w.word m) t
  named : ∀ t m, w.pc t = .user → Names (w.word m) t → w.holds t m = true
  unqueued : ∀ t, w.pc t = .user → Absent w.table t
  one : ∀ t t' m, w.holds t m = true → w.holds t' m = true → t = t'

/-- The events the code handles: those of a task at a place where it checks enough. -/
def Careful (w : PiWorld F) : PiEvent F → Prop
  | .run t _ => CarefulAt env w t (w.pc t)
  | _ => True

/-- The system starts with every task outside of a call. -/
structure Start (w : PiWorld F) : Prop where
  table : w.table = OrdMap.empty
  pc : ∀ t, w.pc t = .user
  holds : ∀ t m, w.holds t m = true ↔ Names (w.word m) t

theorem Start.inv (h : Start w) : Inv w := by
  have hget : ∀ k, w.table.get? k = none := by
    intro k
    rw [h.table]
    rfl
  have hnone : ∀ k x, ¬ Has w.table k x := by
    rintro k x ⟨st, hst, -⟩
    cases (hget k).symm.trans hst
  refine ⟨⟨fun k x hx => absurd hx (hnone k x), ?_, fun k k' x y hx => absurd hx (hnone k x)⟩,
    ⟨?_, ?_, ?_, ?_⟩, ?_⟩
  · intro k st hst
    cases (hget k).symm.trans hst
  · intro k st hst
    cases (hget k).symm.trans hst
  · intro u k hk
    rw [h.pc u] at hk
    cases hk
  · intro u k hk
    refine ⟨(h.holds u k).mp hk, ?_⟩
    rw [h.pc u]
    rfl
  · exact fun u k hk => .inl ((h.holds u k).mpr hk)
  · intro u
    rw [h.pc u]
    trivial

theorem Inv.step (h : Inv w) (env : PiEnv F) (e : PiEvent F) (hc : Careful env w e) :
    Inv (w.step env e) := by
  have hcalm : ∀ {t}, w.atUser env t = true → (w.pc t).calm = true := by
    intro t ht
    rw [atUser_pc ht]
    rfl
  cases e with
  | call t c =>
    dsimp only [PiWorld.step]
    split_ifs with ht
    · exact h.call env (hcalm ht) c
    · exact h
  | run t i => exact h.run env t i hc
  | fastLock =>
    dsimp only [PiWorld.step]
    split_ifs with ht
    · exact h.fastLock (hcalm ht.1) ht.2
    · exact h
  | fastUnlock =>
    dsimp only [PiWorld.step]
    split_ifs with ht
    · exact h.fastUnlock (hcalm ht.1) ht.2
    · exact h
  | rekey =>
  dsimp only [PiWorld.step]
  split
  · exact h
  case h_2 st hst =>
    refine h.put hst rfl rfl ?_
    rw [rekey_marks]

/-- A task that leaves a queue for good although the mutex is its own is told that it failed. -/
theorem leave_untruthful (h : Inv w) (env : PiEnv F) (i : PiInput)
    (hpc : w.pc t = .trylockLeave m ∨ ∃ e, w.pc t = .leaveTarget m e)
    (hg : (w.grant t).isOwner = true) (hold : w.holds t m = false) :
    ¬ Truthful (w.run env t i) := by
  have hname : Names (w.word m) t := by
    refine h.owners.granted t m ?_ hg
    rcases hpc with hpc | ⟨e, hpc⟩ <;> rw [hpc] <;> rfl
  have hrun : ∃ e, w.run env t i = (w.unqueue m t).fail t e := by
    unfold PiWorld.run
    rcases hpc with hpc | ⟨e, hpc⟩ <;> rw [hpc] <;> exact ⟨_, rfl⟩
  obtain ⟨e, hrun⟩ := hrun
  have hword : ((w.unqueue m t).fail t e).word = w.word := by
    unfold unqueue
    split
    · rfl
    · dsimp only
      split <;> rfl
  intro ht
  rw [hrun] at ht
  have htold := ht.named t m (update_self ..) (by rwa [hword])
  rw [show ((w.unqueue m t).fail t e).holds = w.holds from unqueue_holds w m t, hold] at htold
  cases htold

/-- A task that finds on its second look that the owner's word was lost is told that it has the
mutex. -/
theorem recheck_untruthful (i : PiInput) {target : Option F} {e : FutexErrno}
    (hpc : w.pc t = .recheck m target e) (hg : w.grant t = .ownerFault)
    (hn : ¬ Names (w.word (target.getD m)) t) : ¬ Truthful (w.run env t i) := by
  have hrun : w.run env t i = w.acquired t (target.getD m) := by
    rw [PiWorld.run, hpc]
    unfold lookAgain
    rw [hg]
    rfl
  intro ht
  rw [hrun] at ht
  refine hn (ht.holder t (target.getD m) ?_)
  show update w.holds t (update (w.holds t) _ true) t _ = true
  rw [update_self, update_self]

/-! ### Runs of two tasks -/

/-- Every mutex is free. -/
def idle : PiWorld ℕ :=
  ⟨fun _ => 0, OrdMap.empty, 0, fun _ => .user, fun _ => .pending, fun _ => none, fun _ _ => false⟩

end PiWorld

end Oxide
