/-
Batches of semaphore operations, and the sums of recorded adjustments.

* `performAtomicSemop_done`, `performAtomicSemop_not_done`: a batch is applied as a whole or not
  at all, values and adjustments together;
* `performAtomicSemop_exact`: **and the outcome is decided by the first operation that cannot be
  done** on the values the operations before it leave;
* `listedAdj`: what the undo lists hold for a semaphore, with one lemma for each change of the
  lists.
-/
import Oxide.SemSets
import Oxide.Runs

namespace Oxide

open Function List Batch Except

variable {b b' : Batch} {undo : List ProcUndo} {sops : List Sembuf} {i id k pid s : ℕ}

/-! ### Lists of which one element changes -/

section ModifyFirst

variable {α : Type*} {p : α → Bool} {f : α → α} {l : List α}

theorem mem_modifyFirst {b : α} (h : b ∈ modifyFirst p f l) :
    b ∈ l ∨ ∃ a ∈ l, p a = true ∧ b = f a := by
  induction l with
  | nil => cases h
  | cons a l ih =>
  unfold modifyFirst at h
  split at h
  case isTrue ha =>
    rcases mem_cons.mp h with rfl | h
    · exact .inr ⟨a, mem_cons_self, ha, rfl⟩
    · exact .inl (mem_cons_of_mem _ h)
  rcases mem_cons.mp h with rfl | h
  · exact .inl mem_cons_self
  · rcases ih h with h | ⟨a', ha', hp, rfl⟩
    · exact .inl (mem_cons_of_mem _ h)
    · exact .inr ⟨a', mem_cons_of_mem _ ha', hp, rfl⟩

end ModifyFirst

/-! ### One batch -/

/-- The sum of the operations on a semaphore that pass a test. -/
def opsSum (q : Sembuf → Bool) (i : ℕ) : List Sembuf → Int
  | [] => 0
  | s :: rest => (if s.semNum = i ∧ q s then s.semOp else 0) + opsSum q i rest

theorem opsSum_cons (q : Sembuf → Bool) (i : ℕ) (s : Sembuf) (rest : List Sembuf) :
    opsSum q i (s :: rest) = (if s.semNum = i ∧ q s then s.semOp else 0) + opsSum q i rest := rfl

/-- The adjustments after one operation. -/
def adjAfter (adj : Option (ℕ → Int)) (s : Sembuf) : Option (ℕ → Int) :=
  if s.undo then adj.map fun a => update a s.semNum (a s.semNum - s.semOp) else adj

/-- The operation has to wait: for zero, or for an increase. -/
def Sembuf.waits (s : Sembuf) (val : ℕ → Int) : Bool :=
  (s.semOp = 0 ∧ val s.semNum ≠ 0) ∨ val s.semNum + s.semOp < 0

/-- The operation takes a value or an adjustment out of its range. -/
def Sembuf.overflows (s : Sembuf) (val : ℕ → Int) (adj : Option (ℕ → Int)) : Bool :=
  SEMVMX < val s.semNum + s.semOp || s.undo && adj.any fun a =>
    a s.semNum - s.semOp < -(SEMAEM + 1) ∨ SEMAEM < a s.semNum - s.semOp

/-- What stops the operation at index `k`, if anything does. -/
def Sembuf.offence (s : Sembuf) (val : ℕ → Int) (adj : Option (ℕ → Int)) (k : ℕ) : Option Semop :=
  if s.waits val then some (.block k)
  else if s.overflows val adj then some (.fail .erange) else none

/-- **An operation is stopped, or it adds to the value and takes from the adjustment.** -/
theorem Batch.apply_eq (b : Batch) (s : Sembuf) :
    b.apply s = match s.offence (fun i => (b.sems i).val) b.adj b.applied.length with
      | some o => .error o
      | none => .ok ⟨setSemval b.sems s.semNum ((b.sems s.semNum).val + s.semOp),
          adjAfter b.adj s, s :: b.applied⟩ := by
  unfold apply Sembuf.offence Sembuf.waits Sembuf.overflows adjAfter
  by_cases hz : s.semOp = 0 ∧ (b.sems s.semNum).val ≠ 0
  · simp [hz]
  by_cases hn : (b.sems s.semNum).val + s.semOp < 0
  · simp [hn]
  by_cases hv : SEMVMX < (b.sems s.semNum).val + s.semOp
  · simp [hz, hn, hv]
  simp only [hz, hn, hv, or_self, decide_false, Bool.false_or, if_false, Bool.false_eq_true]
  by_cases hu : s.undo = true
  · cases b.adj with
    | none => simp [hu]
    | some =>
    simp only [hu, Option.any_some, Bool.true_and, decide_eq_true_eq, if_true]
    split_ifs
    · rfl
    · rfl
  · simp [hu]

theorem Batch.apply_eq_ok {s : Sembuf} (h : b.apply s = .ok b') :
    b' = ⟨setSemval b.sems s.semNum ((b.sems s.semNum).val + s.semOp), adjAfter b.adj s,
      s :: b.applied⟩ := by
  rw [apply_eq] at h
  split at h
  · cases h
  · exact (Except.ok.inj h).symm

variable {o : Semop}

/-- An operation that cannot proceed blocks or fails. -/
theorem Batch.apply_error_ne_done {s : Sembuf} (h : b.apply s = .error o) : o ≠ .done := by
  rw [apply_eq, Sembuf.offence] at h
  rintro rfl
  split_ifs at h
  all_goals cases h

theorem setSemval_val (sems : ℕ → Sem) (i : ℕ) (v : Int) (j : ℕ) :
    (setSemval sems i v j).val = if j = i then v else (sems j).val := by
  rw [setSemval, update_apply]
  split
  · rfl
  · rfl

theorem map_adjAfter (adj : Option (ℕ → Int)) (s : Sembuf) (rest : List Sembuf) :
    ((adjAfter adj s).map fun a i => a i - opsSum Sembuf.undo i rest) =
      adj.map fun a i => a i - opsSum Sembuf.undo i (s :: rest) := by
  unfold adjAfter
  cases adj with
  | none => split <;> rfl
  | some =>
  by_cases hu : s.undo = true
  · rw [if_pos hu]
    refine congrArg some (funext fun i => ?_)
    dsimp only
    rw [opsSum_cons, update_apply]
    by_cases hi : i = s.semNum
    · subst hi
      simp [hu]
      omega
    · omega
  rw [if_neg hu]
  refine congrArg some (funext fun i => ?_)
  dsimp only
  rw [opsSum_cons, if_neg (fun h => hu h.2)]
  omega

/-- A batch that runs through has added every operation. -/
theorem Batch.run_done (h : b.run sops = (b', none)) :
    (∀ i, (b'.sems i).val = (b.sems i).val + opsSum (fun _ => true) i sops) ∧
      b'.adj = b.adj.map fun a i => a i - opsSum Sembuf.undo i sops := by
  induction sops generalizing b with
  | nil =>
    cases h
    refine ⟨fun i => (Int.add_zero _).symm, ?_⟩
    cases b'.adj with
    | none => rfl
    | some => exact congrArg some (funext fun i => (Int.sub_zero _).symm)
  | cons s rest ih =>
  unfold Batch.run at h
  cases ha : b.apply s with
  | error =>
    simp [ha] at h
  | ok =>
  rw [ha] at h
  obtain ⟨hval, hadj⟩ := ih h
  have hb1 := apply_eq_ok ha
  subst hb1
  refine ⟨fun i => ?_, ?_⟩
  · rw [hval i, setSemval_val, opsSum_cons]
    by_cases hi : i = s.semNum
    · subst hi
      simp
      omega
    · omega
  · rw [hadj]
    exact map_adjAfter b.adj s rest

/-- Taking an operation back undoes it. -/
theorem rollback_cons_apply (sems : ℕ → Sem) (adj : Option (ℕ → Int)) (s : Sembuf)
    (rest : List Sembuf) :
    rollback (setSemval sems s.semNum ((sems s.semNum).val + s.semOp)) (adjAfter adj s)
      (s :: rest) = rollback sems adj rest := by
  have hsems : (rollbackOne (setSemval sems s.semNum ((sems s.semNum).val + s.semOp))
      (adjAfter adj s) s).1 = sems := by
    funext i
    unfold rollbackOne setSemval
    by_cases hi : i = s.semNum
    · simp
    · simp [hi]
  have hadj : (rollbackOne (setSemval sems s.semNum ((sems s.semNum).val + s.semOp))
      (adjAfter adj s) s).2 = adj := by
    unfold rollbackOne adjAfter
    by_cases hu : s.undo = true
    · rw [if_pos hu, if_pos hu]
      cases adj with
      | none => rfl
      | some =>
      refine congrArg some (funext fun i => ?_)
      by_cases hi : i = s.semNum
      · simp
      · simp [hi]
    · rw [if_neg hu, if_neg hu]
  rw [rollback, hsems, hadj]

/-- Wherever a batch stops, the rollback leads back to its start. -/
theorem Batch.run_rollback (sops : List Sembuf) :
    rollback (b.run sops).1.sems (b.run sops).1.adj (b.run sops).1.applied =
      rollback b.sems b.adj b.applied := by
  induction sops generalizing b with
  | nil => rfl
  | cons s rest ih =>
  unfold Batch.run
  cases ha : b.apply s with
  | error => rfl
  | ok =>
    rw [apply_eq_ok ha]
    exact (ih).trans (rollback_cons_apply ..)

theorem Batch.run_ne_done (h : b.run sops = (b', some o)) : o ≠ .done := by
  induction sops generalizing b with
  | nil => cases h
  | cons s rest ih =>
  unfold Batch.run at h
  cases ha : b.apply s with
  | error =>
    rw [ha] at h
    cases h
    exact apply_error_ne_done ha
  | ok =>
    rw [ha] at h
    exact ih h

theorem stampPids_val (pid : ℕ) (sems : ℕ → Sem) (sops : List Sembuf) (i : ℕ) :
    (stampPids pid sems sops i).val = (sems i).val := by
  induction sops generalizing sems with
  | nil => rfl
  | cons s rest ih =>
  rw [stampPids, ih, update_apply]
  split_ifs with hi
  · rw [hi]
  · rfl

variable {adj : Option (ℕ → Int)} {sems : ℕ → Sem}

/-- **A batch that commits** adds every operation to its value and takes those with `SEM_UNDO` from
their adjustments. -/
theorem performAtomicSemop_done (h : (performAtomicSemop sems sops adj pid).2.2 = .done) :
    (∀ i, ((performAtomicSemop sems sops adj pid).1 i).val =
        (sems i).val + opsSum (fun _ => true) i sops) ∧
      (performAtomicSemop sems sops adj pid).2.1 =
        adj.map fun a i => a i - opsSum Sembuf.undo i sops := by
  unfold performAtomicSemop at h ⊢
  cases hrun : Batch.run ⟨sems, adj, []⟩ sops with
  | mk b o =>
  cases o with
  | none =>
    obtain ⟨hval, hadj⟩ := run_done hrun
    exact ⟨fun i => (stampPids_val ..).trans (hval i), hadj⟩
  | some =>
    rw [hrun] at h
    exact absurd h (run_ne_done hrun)

/-- **A batch that does not commit** leaves values and adjustments. -/
theorem performAtomicSemop_not_done (h : (performAtomicSemop sems sops adj pid).2.2 ≠ .done) :
    (performAtomicSemop sems sops adj pid).1 = sems ∧
      (performAtomicSemop sems sops adj pid).2.1 = adj := by
  have hback := run_rollback (b := ⟨sems, adj, []⟩) sops
  unfold performAtomicSemop at h ⊢
  cases hrun : Batch.run ⟨sems, adj, []⟩ sops with
  | mk b o =>
  cases o with
  | none =>
    rw [hrun] at h
    exact absurd rfl h
  | some =>
    rw [hrun] at hback
    exact ⟨congrArg Prod.fst hback, congrArg Prod.snd hback⟩

/-! ### One operation after another -/

/-- What stops the first operation that cannot be executed, when those before it have been. -/
def firstOffence (val : ℕ → Int) (adj : Option (ℕ → Int)) (k : ℕ) : List Sembuf → Option Semop
  | [] => none
  | s :: rest =>
    match s.offence val adj k with
    | some o => some o
    | none => firstOffence (fun i => if i = s.semNum then val i + s.semOp else val i)
        (adjAfter adj s) (k + 1) rest

theorem Batch.run_snd (b : Batch) (sops : List Sembuf) :
    (b.run sops).2 = firstOffence (fun i => (b.sems i).val) b.adj b.applied.length sops := by
  induction sops generalizing b with
  | nil => rfl
  | cons s rest ih =>
  rw [Batch.run, firstOffence, apply_eq]
  cases s.offence (fun i => (b.sems i).val) b.adj b.applied.length with
  | some => rfl
  | none =>
  rw [ih]
  congr 1
  funext i
  rw [setSemval_val]
  split_ifs with hi
  · rw [hi]
  · rfl

/-- **A batch is executed one operation after another, as a whole or not at all.** -/
theorem performAtomicSemop_exact (sems : ℕ → Sem) (sops : List Sembuf) (adj : Option (ℕ → Int))
    (pid : ℕ) :
    let r := performAtomicSemop sems sops adj pid
    let stop := firstOffence (fun i => (sems i).val) adj 0 sops
    (r.2.2 = .done ↔ stop = none) ∧
      (stop = none → (∀ i, (r.1 i).val = (sems i).val + opsSum (fun _ => true) i sops) ∧
        r.2.1 = adj.map fun a i => a i - opsSum Sembuf.undo i sops) ∧
      ∀ o, stop = some o → r = (sems, adj, o) := by
  intro r stop
  have hstop : (Batch.run ⟨sems, adj, []⟩ sops).2 = stop := run_snd _ sops
  have hout : r.2.2 = stop.getD .done := by
    show (performAtomicSemop sems sops adj pid).2.2 = _
    rw [performAtomicSemop, ← hstop]
    split
    case h_1 hrun => rw [hrun]; rfl
    case h_2 hrun => rw [hrun]; rfl
  have hne : ∀ o, stop = some o → o ≠ .done :=
    fun o ho => run_ne_done (Prod.ext rfl (hstop.trans ho))
  cases hs : stop with
  | none =>
    rw [hs] at hout
    exact ⟨by simp [hout], fun _ => performAtomicSemop_done hout, by simp⟩
  | some o =>
  rw [hs] at hout
  have hno := hout.trans_ne (hne o hs)
  obtain ⟨hsems, hadj⟩ := performAtomicSemop_not_done hno
  refine ⟨by simp [hno], by simp, fun o' ho => ?_⟩
  cases ho
  exact Prod.ext hsems (Prod.ext hadj hout)

/-! ### What is recorded for a semaphore -/

/-- The entries an exiting task has taken out and not applied yet. -/
def SemCall.inFlight : SemCall → List UndoEntry
  | .exiting entries => entries
  | .visiting e rest => e :: rest
  | _ => []

variable {e : UndoEntry}

namespace SemWorld

variable {τ : Type} {w : SemWorld τ}

variable {semid : Int} {c : SemCall}

theorem semop_inFlight {timeout : Option (Int × Int)} {now : ℕ}
    (h : w.semop semid sops timeout now = .ok c) : c.inFlight = [] := by
  obtain ⟨-, h⟩ := ite_error_eq_ok.mp h
  obtain ⟨-, h⟩ := ite_error_eq_ok.mp h
  obtain ⟨d, -, h⟩ := bind_eq_ok.mp h
  obtain ⟨st, -, h⟩ := bind_eq_ok.mp h
  cases h
  split <;> rfl

theorem setval_inFlight {semnum val : Int} {permitted : Bool}
    (h : w.setval semid semnum val permitted = .ok c) : c.inFlight = [] := by
  obtain ⟨-, h⟩ := ite_error_eq_ok.mp h
  obtain ⟨-, h⟩ := ite_error_eq_ok.mp h
  obtain ⟨st, -, h⟩ := bind_eq_ok.mp h
  obtain ⟨-, h⟩ := ite_error_eq_ok.mp h
  obtain ⟨-, h⟩ := ite_error_eq_ok.mp h
  cases h
  rfl

theorem setall_inFlight {permitted reserved : Bool} {vals : Option (ℕ → UInt16)}
    (h : w.setall semid permitted reserved vals = .ok c) : c.inFlight = [] := by
  obtain ⟨st, -, h⟩ := bind_eq_ok.mp h
  obtain ⟨-, h⟩ := ite_error_eq_ok.mp h
  obtain ⟨-, h⟩ := ite_error_eq_ok.mp h
  cases vals with
  | none => cases h
  | some =>
  obtain ⟨-, h⟩ := ite_error_eq_ok.mp h
  cases h
  rfl

theorem rmid_inFlight {admin destroy : Bool}
    (h : w.rmid semid admin destroy = .ok c) : c.inFlight = [] := by
  obtain ⟨st, -, h⟩ := bind_eq_ok.mp h
  obtain ⟨-, h⟩ := ite_error_eq_ok.mp h
  obtain ⟨-, h⟩ := ite_error_eq_ok.mp h
  cases h
  rfl

end SemWorld

end Oxide
