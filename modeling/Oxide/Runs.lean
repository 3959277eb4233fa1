/-
Runs of a state machine.

A machine is given by what one event does to the state, `step : σ → ε → σ`; a run is a list of
events from a first state.

* `Run.Always`, `Run.Meets`: a predicate holds in every state of a run; every event of it is
  admissible in the state it finds;
* `Run.Meets.always`, `Run.invariant`: an invariant kept by the admissible events, or by every
  event, holds along the run;
* `Run.always_iff_meets`: where admissibility of an event says exactly that the next state is
  good, the good runs are the admissible ones;
* `Run.AlwaysOk`, `Run.MeetsOk`, `Run.alwaysOk_iff_meetsOk`: the same for steps that may fail, a
  failed step being the end of the run.

`bind_eq_ok`, `mapError_eq_ok` and `ite_error_eq_ok` take apart a computation that did not fail.
`Table.All` says something of every object in a table, and `Table.sum_update` what a new entry does
to a sum over a finite one.
-/
import Mathlib.Algebra.BigOperators.Group.Finset.Basic
import Mathlib.Algebra.Ring.Nat

/-! ### Computations that did not fail -/

namespace Except

universe u v

variable {ε ε' : Type u} {α β : Type v}

variable {x : Except ε α} {b : β}

theorem bind_eq_ok {f : α → Except ε β} : (x >>= f) = .ok b ↔ ∃ a, x = .ok a ∧ f a = .ok b := by
  cases x with
  | error =>
    constructor
    · intro h
      cases h
    · rintro ⟨a, h, -⟩
      cases h
  | ok a => exact ⟨fun h => ⟨a, rfl, h⟩, fun ⟨a', ha, h⟩ => by cases ha; exact h⟩

theorem map_eq_ok {f : α → β} : x.map f = .ok b ↔ ∃ a, x = .ok a ∧ f a = b := by
  cases x <;> simp [Except.map]

theorem mapError_eq_ok {f : ε → ε'} {a : α} : x.mapError f = .ok a ↔ x = .ok a := by
  cases x <;> simp [Except.mapError]

theorem ite_error_eq_ok {c : Prop} [Decidable c] {e : ε} {a : α} :
    (if c then .error e else x) = .ok a ↔ ¬ c ∧ x = .ok a := by
  by_cases hc : c
  · simp [hc]
  · simp [hc]

end Except

/-! ### Runs -/

namespace Run

variable {σ ε : Type*} (step : σ → ε → σ)

/-- `P` holds in every state of the run. -/
def Always (P : σ → Prop) : σ → List ε → Prop
  | s, [] => P s
  | s, e :: es => P s ∧ Always P (step s e) es

/-- Every event of the run is admissible in the state it finds. -/
def Meets (C : σ → ε → Prop) : σ → List ε → Prop
  | _, [] => True
  | s, e :: es => C s e ∧ Meets C (step s e) es

variable {step} {P I : σ → Prop} {C Q : σ → ε → Prop} {s : σ} {es : List ε}

theorem Always.head (h : Always step P s es) : P s := by
  cases es with
  | nil => exact h
  | cons => exact h.1

/-- What holds in every state holds in the last one. -/
theorem Always.last (h : Always step P s es) : P (es.foldl step s) := by
  induction es generalizing s with
  | nil => exact h
  | cons e es ih => exact ih h.2

/-- An invariant kept by the admissible events holds in every state of an admissible run. -/
theorem Meets.always (hstep : ∀ s e, I s → C s e → I (step s e)) (hs : I s)
    (h : Meets step C s es) (hP : ∀ s, I s → P s) : Always step P s es := by
  induction es generalizing s with
  | nil => exact hP s hs
  | cons e es ih => exact ⟨hP s hs, ih (hstep s e hs h.1) h.2⟩

/-- An invariant kept by every event holds at the end of any run. -/
theorem invariant (hstep : ∀ s e, I s → I (step s e)) (hs : I s) : I (es.foldl step s) := by
  induction es generalizing s with
  | nil => exact hs
  | cons e es ih => exact ih (hstep s e hs)

/-- What the invariant gives for one admissible event, it gives for every event of the run. -/
theorem Meets.imp (hstep : ∀ s e, I s → C s e → I (step s e) ∧ Q s e) (hs : I s)
    (h : Meets step C s es) : Meets step Q s es := by
  induction es generalizing s with
  | nil => trivial
  | cons e es ih =>
    have hse := hstep s e hs h.1
    exact ⟨hse.2, ih hse.1 h.2⟩

/-- Where an event is admissible exactly if it leads from good states to good ones, the runs
through good states only are the admissible ones.  The invariant `I` holds in any run. -/
theorem always_iff_meets (hinv : ∀ s e, I s → I (step s e))
    (hexact : ∀ s e, I s → P s → (C s e ↔ P (step s e))) (hs : I s) (hp : P s) :
    Always step P s es ↔ Meets step C s es := by
  induction es generalizing s with
  | nil => exact iff_of_true hp trivial
  | cons e es ih =>
  constructor
  · rintro ⟨-, h⟩
    have hc : C s e := (hexact s e hs hp).mpr h.head
    exact ⟨hc, (ih (hinv s e hs) h.head).mp h⟩
  · rintro ⟨hc, h⟩
    have hp' : P (step s e) := (hexact s e hs hp).mp hc
    exact ⟨hp, (ih (hinv s e hs) hp').mpr h⟩

section

variable {π : Type*} (step : σ → ε → Except π σ)

/-- `P` holds in every state of the run, up to a step that fails. -/
def AlwaysOk (P : σ → Prop) : σ → List ε → Prop
  | s, [] => P s
  | s, e :: es => P s ∧ ∀ s', step s e = .ok s' → AlwaysOk P s' es

/-- Every event of the run is admissible in the state it finds, up to a step that fails. -/
def MeetsOk (C : σ → ε → Prop) : σ → List ε → Prop
  | _, [] => True
  | s, e :: es => C s e ∧ ∀ s', step s e = .ok s' → MeetsOk C s' es

variable {step} {s' : σ}

theorem AlwaysOk.head (h : AlwaysOk step P s es) : P s := by
  cases es with
  | nil => exact h
  | cons => exact h.1

/-- What holds in every state holds in the last one, if there is one. -/
theorem AlwaysOk.last (h : AlwaysOk step P s es) (hr : es.foldlM step s = .ok s') : P s' := by
  induction es generalizing s with
  | nil =>
    cases hr
    exact h
  | cons e es ih =>
  obtain ⟨s1, h1, hr⟩ := Except.bind_eq_ok.mp hr
  exact ih (h.2 s1 h1) hr

/-- A relation that composes and holds of every admissible step from a good state holds of the
run. -/
theorem MeetsOk.trans {R : σ → σ → Prop} (hrefl : ∀ s, R s s)
    (htrans : ∀ {a b c}, R a b → R b c → R a c)
    (hstep : ∀ s e s', I s → C s e → step s e = .ok s' → I s' ∧ R s s') (hs : I s)
    (h : MeetsOk step C s es) (hr : es.foldlM step s = .ok s') : I s' ∧ R s s' := by
  induction es generalizing s with
  | nil =>
    cases hr
    exact ⟨hs, hrefl _⟩
  | cons e es ih =>
  obtain ⟨s1, h1, hr⟩ := Except.bind_eq_ok.mp hr
  obtain ⟨hs1, hR⟩ := hstep s e s1 hs h.1 h1
  obtain ⟨hs', hR'⟩ := ih hs1 (h.2 s1 h1) hr
  exact ⟨hs', htrans hR hR'⟩

/-- An invariant kept by the admissible steps holds at the end of an admissible run. -/
theorem MeetsOk.invariant (hstep : ∀ s e s', I s → C s e → step s e = .ok s' → I s') (hs : I s)
    (h : MeetsOk step C s es) (hr : es.foldlM step s = .ok s') : I s' :=
  (h.trans (R := fun _ _ => True) (fun _ => trivial) (fun _ _ => trivial)
    (fun s e s' hi hc hs' => ⟨hstep s e s' hi hc hs', trivial⟩) hs hr).1

/-- Where the admissible events lead to good states and the others to bad ones, the runs through
good states only are the admissible ones. -/
theorem alwaysOk_iff_meetsOk (hP : ∀ s, I s → P s)
    (hstep : ∀ s e s', I s → C s e → step s e = .ok s' → I s')
    (hbad : ∀ s e, I s → ¬ C s e → ∃ s', step s e = .ok s' ∧ ¬ P s') (hs : I s) :
    AlwaysOk step P s es ↔ MeetsOk step C s es := by
  induction es generalizing s with
  | nil => exact iff_of_true (hP s hs) trivial
  | cons e es ih =>
  constructor
  · rintro ⟨-, h⟩
    have hc : C s e := by
      by_contra hc
      obtain ⟨s', hs', hno⟩ := hbad s e hs hc
      exact hno (h s' hs').head
    exact ⟨hc, fun s' hs' => (ih (hstep s e s' hs hc hs')).mp (h s' hs')⟩
  · rintro ⟨hc, h⟩
    exact ⟨hP s hs, fun s' hs' => (ih (hstep s e s' hs hc hs')).mpr (h s' hs')⟩

end

end Run

/-! ### Tables -/

namespace Table

variable {κ α : Type*} [DecidableEq κ] {P : α → Prop} {f : κ → Option α} {k : κ} {a : α}

/-- Every object in the table has the property. -/
def All (P : α → Prop) (f : κ → Option α) : Prop := ∀ k a, f k = some a → P a

theorem All.update (h : All P f) (ha : P a) : All P (Function.update f k (some a)) := by
  intro k' a' hk
  rw [Function.update_apply] at hk
  split at hk
  · exact Option.some.inj hk ▸ ha
  · exact h k' a' hk

/-- A table stays good exactly if the new entry is. -/
theorem All.update_iff (h : All P f) : All P (Function.update f k (some a)) ↔ P a :=
  ⟨fun hu => hu k a (Function.update_self ..), h.update⟩

/-- A sum over a table changes by what it changes at the new entry. -/
theorem sum_update {ι β M : Type*} [Fintype ι] [DecidableEq ι] [AddCommMonoid M] (g : β → M)
    (f : ι → β) (i : ι) (v : β) :
    ∑ x, g (Function.update f i v x) + g (f i) = ∑ x, g (f x) + g v := by
  have hnew := Finset.add_sum_erase Finset.univ (fun x => g (Function.update f i v x))
    (Finset.mem_univ i)
  have hold := Finset.add_sum_erase Finset.univ (fun x => g (f x)) (Finset.mem_univ i)
  have hrest : ∑ x ∈ Finset.univ.erase i, g (Function.update f i v x) =
      ∑ x ∈ Finset.univ.erase i, g (f x) :=
    Finset.sum_congr rfl fun x hx => by rw [Function.update_of_ne (Finset.ne_of_mem_erase hx)]
  rw [Function.update_self, hrest] at hnew
  rw [← hnew, ← hold, add_right_comm, add_comm (g (f i)), add_right_comm, add_comm (g v),
    add_right_comm]

end Table
