/-
Undo adjustments and assignments of a semaphore.

`SETVAL` and `SETALL` clear the adjustments in the undo lists. Those an exiting task has already
taken out are out of their reach, and the exit applies them to the value just assigned.

* `AppliesCurrent`: what an exit applies was recorded after the last assignment;
* `NoneInFlight`: no assignment while an exiting task holds an adjustment for the semaphore;
* `undo_linearises`: **along every run of such events what is applied is current, and the balance
  of every semaphore is conserved**;
* `exitAcrossSetval_applies_stale`: the run in which `SETVAL` comes between the two halves of an
  exit.
-/
import Oxide.SemBalance

namespace Oxide

open List

variable {e : UndoEntry} {epoch : ℕ → ℕ → ℕ}

/-- Every operation an entry sums up was recorded after the last assignment. -/
def UndoEntry.Current (epoch : ℕ → ℕ → ℕ) (e : UndoEntry) : Prop :=
  ∀ i, ∀ k ∈ e.epochs i, k = epoch e.semid i

/-- The same, for the adjustments an exit would apply. -/
def UndoEntry.AppliesCurrent (epoch : ℕ → ℕ → ℕ) (e : UndoEntry) : Prop :=
  ∀ i, e.semadj i ≠ 0 → ∀ k ∈ e.epochs i, k = epoch e.semid i

/-- A batch records in the current epoch. -/
theorem storeAdj_current (h : e.Current epoch) (sops : List Sembuf) (adj : Option (ℕ → Int))
    (o : Semop) : (storeAdj (epoch e.semid) sops adj o e).Current epoch := by
  unfold storeAdj
  split
  · intro i k hk
    rcases mem_append.mp hk with hk | hk
    · obtain ⟨-, -, rfl⟩ := mem_map.mp hk
      rfl
    · exact h i k hk
  · exact h

theorem clear_current {epoch' : ℕ → ℕ → ℕ} (h : e.Current epoch) {assigned : ℕ → Bool}
    (hepoch : ∀ i, assigned i = false → epoch' e.semid i = epoch e.semid i) :
    (e.clear assigned).Current epoch' := by
  intro i k hk
  unfold UndoEntry.clear at hk
  dsimp only at hk
  split_ifs at hk with ha
  · cases hk
  rw [h i k hk]
  exact (hepoch i (Bool.eq_false_iff.mpr ha)).symm

namespace SemWorld

variable {τ : Type} [DecidableEq τ] {w : SemWorld τ}

/-- What holds as long as no assignment meets an adjustment in flight. -/
structure Ordered (w : SemWorld τ) : Prop where
  listed : ∀ p ∈ w.undo, ∀ e ∈ p.entries, e.Current w.epoch
  flying : ∀ t, ∀ e ∈ (w.call t).inFlight, e.AppliesCurrent w.epoch

/-- **What an exit applies was recorded after the last assignment of the semaphore.** -/
def AppliesCurrent (w : SemWorld τ) : SemEvent τ → Prop
  | .act t (.visit _) =>
    match w.call t with
    | .visiting e _ => ∀ st, w.set e.semid = some st → st.removed = false → ∀ i < st.nsems,
        e.semadj i ≠ 0 → ∀ k ∈ e.epochs i, k = w.epoch e.semid i
    | _ => True
  | _ => True

/-- No exiting task holds an adjustment for the semaphores selected. -/
def NoneFlying (w : SemWorld τ) (s : ℕ) (semnum : Option ℕ) : Prop :=
  ∀ st, w.set s = some st → st.removed = false → ∀ t, ∀ e ∈ (w.call t).inFlight, e.semid = s →
    ∀ i, selects semnum st.nsems i = true → e.semadj i = 0

/-- **What an event has to meet**: a semaphore is not assigned while an exiting task holds an
adjustment for it. -/
def NoneInFlight (w : SemWorld τ) : SemEvent τ → Prop
  | .act t (.assign _) =>
    match w.call t with
    | .setval s n _ => w.NoneFlying s (some n)
    | .setall s _ => w.NoneFlying s none
    | _ => True
  | _ => True

/-! ### What every section keeps -/

section

variable (h : w.Ordered)
include h

theorem Ordered.putCall {t : τ} {c : SemCall} (hc : ∀ e ∈ c.inFlight, e.AppliesCurrent w.epoch) :
    (w.putCall t c).Ordered := by
  refine ⟨h.listed, fun t' e he => ?_⟩
  unfold SemWorld.putCall at he
  dsimp only at he
  rw [Function.update_apply] at he
  split at he
  · exact hc e he
  · exact h.flying t' e he

theorem Ordered.putCall_nil {t : τ} {c : SemCall} (hc : c.inFlight = []) :
    (w.putCall t c).Ordered :=
  h.putCall fun e he => by rw [hc] at he; cases he

omit [DecidableEq τ] in
/-- Lists that change are current if their entries are. -/
theorem Ordered.putUndo {undo : List ProcUndo}
    (hu : ∀ p ∈ undo, ∀ e ∈ p.entries, e.Current w.epoch) :
    ({ w with undo := undo } : SemWorld τ).Ordered := ⟨hu, h.flying⟩

omit [DecidableEq τ] in
/-- A change of one list. -/
theorem Ordered.modifyFirst {q : ProcUndo → Bool} {f : ProcUndo → ProcUndo}
    (hf : ∀ p ∈ w.undo, ∀ e ∈ (f p).entries, e.Current w.epoch) :
    ∀ p ∈ Oxide.modifyFirst q f w.undo, ∀ e ∈ p.entries, e.Current w.epoch := by
  intro p hp
  rcases mem_modifyFirst hp with hp | ⟨p', hp', -, rfl⟩
  · exact h.listed p hp
  · exact hf p' hp'

theorem Ordered.enter {t : τ} {x : Except IpcErrno SemCall}
    (hx : ∀ c, x = .ok c → c.inFlight = []) : (w.enter t x).Ordered := by
  cases x with
  | ok c => exact h.putCall_nil (hx c rfl)
  | error => exact h.putCall_nil rfl

section

variable (t : τ)

theorem Ordered.getUndoList : (w.getUndoList t).1.Ordered := by
  unfold SemWorld.getUndoList
  split
  · exact h
  refine ⟨fun p hp => ?_, h.flying⟩
  rcases mem_append.mp hp with hp | hp
  · exact h.listed p hp
  · obtain rfl := mem_singleton.mp hp
    intro e he
    cases he

variable (a : SemopArgs)

theorem Ordered.getList (reserved : Bool) : (w.getList t a reserved).Ordered := by
  unfold SemWorld.getList
  split
  · exact h.putCall_nil rfl
  · exact (h.getUndoList t).putCall_nil rfl

theorem Ordered.findAlloc (id : ℕ) (reserved : Bool) : (w.findAlloc t a id reserved).Ordered := by
  unfold SemWorld.findAlloc
  split
  · exact h.putCall_nil rfl
  split
  · exact h.putCall_nil rfl
  split
  · exact h.putCall_nil rfl
  refine (h.putUndo (h.modifyFirst fun p hp e he => ?_)).putCall_nil rfl
  rcases mem_append.mp he with he | he
  · exact h.listed p hp e he
  · obtain rfl := mem_singleton.mp he
    intro i k hk
    cases hk

variable (id : Option ℕ)

theorem Ordered.check (permitted : Bool) : (w.check t a id permitted).Ordered := by
  unfold SemWorld.check
  split
  · exact h
  split
  · exact h.putCall_nil rfl
  split
  · exact h.putCall_nil rfl
  · exact h.putCall_nil rfl

omit [DecidableEq τ] in
theorem Ordered.putSet (k : ℕ) (st : SemSet) : (w.putSet k st).Ordered :=
  ⟨h.listed, h.flying⟩

theorem Ordered.conclude (r : Reading) (st : SemSet) (o : Semop) :
    (w.conclude t a id r st o).Ordered := by
  cases o with
  | done => exact (h.putSet _ _).putCall_nil rfl
  | fail => exact (h.putSet _ _).putCall_nil rfl
  | block =>
  unfold SemWorld.conclude
  dsimp only
  split
  · exact h
  split
  · exact (h.putSet _ _).putCall_nil rfl
  split
  · exact (h.putSet _ _).putCall_nil rfl
  · exact (h.putSet _ _).putCall_nil rfl

theorem Ordered.attempt (r : Reading) : (w.attempt t a id r).Ordered := by
  unfold SemWorld.attempt
  split
  · exact h
  split
  · exact h.putCall_nil rfl
  split
  · split
    · exact h.putCall_nil rfl
    -- only entries for the set are touched, and they record in its epoch
    refine (h.putUndo (h.modifyFirst fun p hp e he => ?_)).conclude t a id r _ _
    rcases mem_modifyFirst he with he | ⟨e', he', hset, rfl⟩
    · exact h.listed p hp e he
    · have hsemid : e'.semid = a.set := beq_iff_eq.mp hset
      rw [← hsemid]
      exact storeAdj_current (h.listed p hp e' he') _ _ _
  · exact h.conclude t a id r _ _

theorem Ordered.wake (b : Sembuf) (why : Wake) : (w.wake t a id b why).Ordered := by
  unfold SemWorld.wake
  split
  · exact h
  split
  · exact (h.putSet _ _).putCall_nil rfl
  cases why with
  | timedOut => exact (h.putSet _ _).putCall_nil rfl
  | signal => exact (h.putSet _ _).putCall_nil rfl
  | retry => exact (h.putSet _ _).putCall_nil rfl

/-- An assignment clears what is listed; what is in flight must hold nothing. -/
theorem Ordered.assign {t : τ} {s : ℕ} {semnum : Option ℕ} (hnone : w.NoneFlying s semnum)
    (vals : ℕ → Int) (r : Reading) : (w.assign t s semnum vals r).Ordered := by
  unfold SemWorld.assign
  cases hset : w.set s with
  | none => exact h
  | some st =>
  dsimp only
  split_ifs with hrem
  · exact h.putCall_nil rfl
  have hepoch : ∀ k i, (k = s → selects semnum st.nsems i = false) →
      Function.update w.epoch s (fun i =>
        if selects semnum st.nsems i then w.epoch s i + 1 else w.epoch s i) k i = w.epoch k i := by
    intro k i hk
    rw [Function.update_apply]
    split
    case isTrue hks =>
      dsimp only
      rw [if_neg (Bool.eq_false_iff.mp (hk hks)), hks]
    · rfl
  refine Ordered.putCall_nil ⟨fun p hp e he => ?_, fun t' e he i hadj k hk => ?_⟩ rfl
  · obtain ⟨p', hp', rfl⟩ := mem_map.mp hp
    obtain ⟨e', he', rfl⟩ := mem_map.mp he
    have hcur := h.listed p' hp' e' he'
    split
    · refine clear_current hcur fun i hi => hepoch _ i fun _ => ?_
      cases semnum with
      | some => exact hi
      | none => cases hi
    rename_i hs
    intro i k hk
    rw [hcur i k hk]
    exact (hepoch _ i fun h' => absurd (beq_iff_eq.mpr h') hs).symm
  rw [h.flying t' e he i hadj k hk]
  refine (hepoch _ i fun hs => ?_).symm
  by_contra hsel
  exact hadj (hnone st hset (Bool.eq_false_iff.mpr hrem) t' e he hs i (Bool.not_eq_false _ ▸ hsel))

theorem Ordered.unpublish (s : ℕ) : (w.unpublish t s).Ordered := by
  refine Ordered.putCall_nil ?_ rfl
  exact ⟨h.listed, h.flying⟩

theorem Ordered.retire (s : ℕ) : (w.retire t s).Ordered := by
  unfold SemWorld.retire
  split
  · exact h
  refine Ordered.putCall_nil ?_ rfl
  refine ⟨fun p hp e he => ?_, h.flying⟩
  obtain ⟨p', hp', rfl⟩ := mem_map.mp hp
  exact h.listed p' hp' e (mem_of_mem_filter he)

/-- What is taken out was current. -/
theorem Ordered.takeOut : (w.takeOut t).Ordered := by
  unfold SemWorld.takeOut
  split
  · exact h.putCall_nil rfl
  split
  · refine Ordered.putCall_nil ?_ rfl
    exact ⟨h.listed, h.flying⟩
  rename_i p hp
  split
  · refine Ordered.putCall_nil ?_ rfl
    exact ⟨h.modifyFirst h.listed, h.flying⟩
  refine Ordered.putCall ?_ ?_
  · exact ⟨fun q hq => h.listed q (mem_of_mem_eraseP hq), h.flying⟩
  · exact fun e he i _ => h.listed p (mem_of_find?_eq_some hp) e he i

theorem Ordered.lookup {t : τ} {entries : List UndoEntry} (hc : w.call t = .exiting entries) :
    (w.lookup t entries).Ordered := by
  have hfly : ∀ e ∈ entries, e.AppliesCurrent w.epoch := fun e he =>
    h.flying t e (by rwa [hc])
  cases entries with
  | nil => exact h.putCall_nil rfl
  | cons =>
  dsimp only [SemWorld.lookup]
  split
  · exact h.putCall hfly
  · exact h.putCall fun e' he' => hfly e' (mem_cons_of_mem _ he')

theorem Ordered.visit {t : τ} {rest : List UndoEntry} (hc : w.call t = .visiting e rest)
    (r : Reading) : (w.visit t e rest r).Ordered := by
  have hfly : ∀ e' ∈ rest, e'.AppliesCurrent w.epoch := fun e' he' =>
    h.flying t e' (by rw [hc]; exact mem_cons_of_mem _ he')
  unfold SemWorld.visit
  split
  · exact h
  split
  · exact h.putCall hfly
  · exact (h.putSet _ _).putCall hfly

theorem Ordered.copySemundo (parent child : τ) (sysvsem : Bool) :
    (w.copySemundo parent child sysvsem).Ordered := by
  unfold SemWorld.copySemundo
  split
  · exact h
  dsimp only
  split
  · exact h.getUndoList parent
  · exact ⟨(h.getUndoList parent).modifyFirst (h.getUndoList parent).listed,
      (h.getUndoList parent).flying⟩

/-! ### Every event -/

theorem Ordered.callStep (a : SemAct) (hc : w.NoneInFlight (.act t a)) :
    (w.callStep t a).Ordered := by
  unfold SemWorld.callStep
  split
  · exact h.getList t _ _
  · exact h.findAlloc t ..
  · exact h.check t ..
  · exact h.attempt t ..
  · exact h.wake t ..
  case h_6 s n v r hcall =>
    dsimp only [NoneInFlight] at hc
    rw [hcall] at hc
    exact h.assign hc _ r
  case h_7 s vals r hcall =>
    dsimp only [NoneInFlight] at hc
    rw [hcall] at hc
    exact h.assign hc _ r
  · exact h.unpublish t _
  · exact h.retire t _
  case h_10 entries hcall => exact h.lookup hcall
  case h_11 e rest r hcall => exact h.visit hcall r
  · exact h

end

theorem Ordered.step (e : SemEvent τ) (hc : w.NoneInFlight e) : (w.step e).Ordered := by
  cases e
  case act t a => exact h.callStep t a hc
  -- a task that is in a call, or has exited, starts nothing
  all_goals
    dsimp only [SemWorld.step]
    split
    case isFalse => exact h
  case semop => exact h.enter fun c hc => semop_inFlight hc
  case setval => exact h.enter fun c hc => setval_inFlight hc
  case setall => exact h.enter fun c hc => setall_inFlight hc
  case rmid => exact h.enter fun c hc => rmid_inFlight hc
  case exitSem t _ => exact h.takeOut t
  case copySemundo parent child sysvsem _ => exact h.copySemundo parent child sysvsem

end

end SemWorld

end Oxide
