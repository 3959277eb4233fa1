/-
Programs over a state.

Kernel code reads and writes a state, may stop early with an error (what it has done so far
stays done), and may panic. `Prog` is this shape as a monad, so that a function of the source
is written down in its own order. This file names nothing of the kernel.

* `Prog.Ends m s Q`: every normal end of `m` from `s`, with a result or an error, satisfies `Q`;
  `Ends.bind` and the rules for each primitive in front of a program run it symbolically;
* `Prog.Keeps P m`: every normal end keeps the property `P` of the state; the rules
  `Keeps.bind`, `Keeps.ite`, `Keeps.foldlM` follow the syntax of a program.
-/
import Oxide.Runs

namespace Oxide

/-- Code over a state `σ`: it panics, or it ends with a result or an error and leaves a state. -/
def Prog (π σ ε α : Type) : Type := σ → Except π (Except ε α × σ)

namespace Prog

variable {π σ ε ε' α β : Type}
variable {step : σ → Except π (α × σ)}

instance : Monad (Prog π σ ε) where
  pure a s := .ok (.ok a, s)
  bind m f s :=
    match m s with
    | .error p => .error p
    | .ok (.error e, s') => .ok (.error e, s')
    | .ok (.ok a, s') => f a s'

/-- Read the state. -/
def get : Prog π σ ε σ := fun s => .ok (.ok s, s)

/-- Change the state. -/
def modify (g : σ → σ) : Prog π σ ε Unit := fun s => .ok (.ok (), g s)

/-- Stop with an error. -/
def fail (e : ε) : Prog π σ ε α := fun s => .ok (.error e, s)

/-- Stop with an error unless `c` holds. -/
def require (c : Prop) [Decidable c] (e : ε) : Prog π σ ε Unit :=
  if c then pure () else fail e

/-- Run a program if `c` holds. -/
def when (c : Prop) [Decidable c] (m : Prog π σ ε Unit) : Prog π σ ε Unit :=
  if c then m else pure ()

/-- A fallible computation that does not touch the state. -/
def ofExcept (r : Except ε α) : Prog π σ ε α := fun s => .ok (r, s)

/-- A computation that may panic and does not touch the state. -/
def ofPanic (r : Except π α) : Prog π σ ε α := fun s => r.map fun a => (.ok a, s)

/-- A computation on the state that may panic. -/
def ofStep (step : σ → Except π (α × σ)) : Prog π σ ε α := fun s =>
  (step s).map fun p => (.ok p.1, p.2)

/-- Translate the error. -/
def mapError (f : ε → ε') (m : Prog π σ ε α) : Prog π σ ε' α := fun s =>
  (m s).map fun p => (p.1.mapError f, p.2)

/-- Run a program and hand its error to the caller as a value. -/
def attempt (m : Prog π σ ε α) : Prog π σ ε' (Except ε α) := fun s =>
  (m s).map fun p => (.ok p.1, p.2)

/-- Run a program and drop its result and its error. -/
def ignore (m : Prog π σ ε α) : Prog π σ ε' Unit := fun s =>
  (m s).map fun p => (.ok (), p.2)

/-- Every normal end of `m` from `s` satisfies `Q`. -/
def Ends (m : Prog π σ ε α) (s : σ) (Q : Except ε α → σ → Prop) : Prop :=
  ∀ r s', m s = .ok (r, s') → Q r s'

/-- Every normal end of `m` keeps the property `P` of the state. -/
def Keeps (P : σ → Prop) (m : Prog π σ ε α) : Prop := ∀ s, P s → m.Ends s fun _ => P

/-! ### Running a program symbolically -/

variable {m : Prog π σ ε α} {f : α → Prog π σ ε β} {s : σ}

theorem Ends.mono {Q Q' : Except ε α → σ → Prop} (h : m.Ends s Q)
    (hQ : ∀ r s', Q r s' → Q' r s') : m.Ends s Q' :=
  fun r s' hm => hQ r s' (h r s' hm)

/-- Sequencing: a result is passed on, an error ends the program. -/
theorem Ends.bind {R : Except ε α → σ → Prop} {Q : Except ε β → σ → Prop} (hm : m.Ends s R)
    (hok : ∀ a s', R (.ok a) s' → (f a).Ends s' Q)
    (herr : ∀ e s', R (.error e) s' → Q (.error e) s') : (m >>= f).Ends s Q := by
  intro r s' hb
  simp only [Bind.bind] at hb
  split at hb
  · cases hb
  · rename_i e s1 he
    cases hb
    exact herr _ _ (hm _ _ he)
  · rename_i a s1 ha
    exact hok _ _ (hm _ _ ha) r s' hb

variable {r : Except ε α} {γ : Type} {e : ε} {g : σ → σ}

section Primitives

variable {Q : Except ε α → σ → Prop}

/-- A program that always ends in the same way. -/
theorem ends_of_eq {s' : σ} (h : m s = .ok (r, s')) : m.Ends s Q ↔ Q r s' := by
  constructor
  · intro hm
    exact hm _ _ h
  intro hq r' s'' he
  rw [h] at he
  cases he
  exact hq

@[simp] theorem ends_pure {a : α} : (pure a : Prog π σ ε α).Ends s Q ↔ Q (.ok a) s :=
  ends_of_eq rfl

@[simp] theorem ends_fail : (fail e : Prog π σ ε α).Ends s Q ↔ Q (.error e) s :=
  ends_of_eq rfl

@[simp] theorem ends_ofExcept : (ofExcept r : Prog π σ ε α).Ends s Q ↔ Q r s :=
  ends_of_eq rfl

@[simp] theorem ends_modify {Q : Except ε Unit → σ → Prop} :
    (modify g : Prog π σ ε Unit).Ends s Q ↔ Q (.ok ()) (g s) :=
  ends_of_eq rfl

/-- A program that computes its end. -/
theorem ends_map (x : σ → Except π γ) (g : σ → γ → Except ε α × σ) :
    Ends (fun s => (x s).map (g s)) s Q ↔ ∀ c, x s = .ok c → Q (g s c).1 (g s c).2 := by
  constructor
  · intro hm c hc
    exact hm _ _ (Except.map_eq_ok.mpr ⟨c, hc, rfl⟩)
  intro hq r s' he
  obtain ⟨c, hc, hg⟩ := Except.map_eq_ok.mp he
  have hend := hq c hc
  rwa [hg] at hend

theorem ends_ofStep :
    (ofStep step : Prog π σ ε α).Ends s Q ↔ ∀ a s', step s = .ok (a, s') → Q (.ok a) s' :=
  (ends_map step fun _ p => (.ok p.1, p.2)).trans ⟨fun h a s' => h (a, s'), fun h p => h p.1 p.2⟩

theorem ends_mapError {Q : Except ε' α → σ → Prop} {g : ε → ε'} :
    (m.mapError g).Ends s Q ↔ m.Ends s fun r s' => Q (r.mapError g) s' :=
  (ends_map m fun _ p => (p.1.mapError g, p.2)).trans
    ⟨fun h r s' => h (r, s'), fun h p => h p.1 p.2⟩

theorem ends_attempt {Q : Except ε' (Except ε α) → σ → Prop} :
    (m.attempt : Prog π σ ε' (Except ε α)).Ends s Q ↔ m.Ends s fun r s' => Q (.ok r) s' :=
  (ends_map m fun _ p => (.ok p.1, p.2)).trans ⟨fun h r s' => h (r, s'), fun h p => h p.1 p.2⟩

end Primitives

variable {c : Prop}

section Sequences

variable {Q : Except ε β → σ → Prop}

/-- What follows a read of the state may use the state read. -/
theorem Ends.getBind {f : σ → Prog π σ ε β} (h : (f s).Ends s Q) : (get >>= f).Ends s Q := h

theorem Ends.modifyBind {f : Unit → Prog π σ ε β} (h : (f ()).Ends (g s) Q) :
    (modify g >>= f).Ends s Q := h

theorem Ends.requireBind [Decidable c] {f : Unit → Prog π σ ε β} (hok : c → (f ()).Ends s Q)
    (herr : ¬ c → Q (.error e) s) : (require c e >>= f).Ends s Q := by
  unfold require
  by_cases hc : c
  · rw [if_pos hc]
    exact hok hc
  · rw [if_neg hc]
    exact (ends_of_eq rfl).mpr (herr hc)

theorem Ends.ofExceptBind (hok : ∀ a, r = .ok a → (f a).Ends s Q)
    (herr : ∀ e, r = .error e → Q (.error e) s) : (ofExcept r >>= f).Ends s Q := by
  cases r with
  | ok a => exact hok a rfl
  | error e => exact (ends_of_eq rfl).mpr (herr e rfl)

theorem Ends.ofPanicBind {r : Except π α} (h : ∀ a, r = .ok a → (f a).Ends s Q) :
    (ofPanic r >>= f).Ends s Q := by
  cases r with
  | ok a => exact h a rfl
  | error => exact fun _ _ he => absurd he (by simp [ofPanic, Except.map, Bind.bind])

theorem Ends.ofStepBind (h : ∀ a s', step s = .ok (a, s') → (f a).Ends s' Q) :
    (ofStep step >>= f).Ends s Q :=
  Ends.bind (ends_ofStep.mpr fun a s' hs => ⟨a, rfl, hs⟩)
    (R := fun r s' => ∃ a, r = .ok a ∧ step s = .ok (a, s'))
    (fun a s' ⟨_, ha, hs⟩ => h a s' (by cases ha; exact hs))
    (fun e s' ⟨_, ha, _⟩ => absurd ha (by simp))

end Sequences

/-! ### Keeping a property of the state -/

variable {P : σ → Prop}

theorem Keeps.bind (hm : m.Keeps P) (hf : ∀ a, (f a).Keeps P) : (m >>= f).Keeps P :=
  fun s hs => Ends.bind (hm s hs) (fun a s' hs' => hf a s' hs') fun _ _ hs' => hs'

theorem Keeps.pure (a : α) : (pure a : Prog π σ ε α).Keeps P :=
  fun _ hs => ends_pure.mpr hs

theorem Keeps.fail (e : ε) : (fail e : Prog π σ ε α).Keeps P :=
  fun _ hs => ends_fail.mpr hs

theorem Keeps.get : (get : Prog π σ ε σ).Keeps P :=
  fun _ hs => (ends_of_eq rfl).mpr hs

theorem Keeps.ofExcept (r : Except ε α) : (ofExcept r : Prog π σ ε α).Keeps P :=
  fun _ hs => ends_ofExcept.mpr hs

theorem Keeps.ofPanic (r : Except π α) : (ofPanic r : Prog π σ ε α).Keeps P :=
  fun _ hs => (ends_map (fun _ => r) fun s a => (.ok a, s)).mpr fun _ _ => hs

theorem Keeps.modify (h : ∀ s, P s → P (g s)) : (modify g : Prog π σ ε Unit).Keeps P :=
  fun s hs => ends_modify.mpr (h s hs)

theorem Keeps.ofStep (h : ∀ s a s', P s → step s = .ok (a, s') → P s') :
    (ofStep step : Prog π σ ε α).Keeps P :=
  fun s hs => ends_ofStep.mpr fun a s' => h s a s' hs

theorem Keeps.require (c : Prop) [Decidable c] (e : ε) :
    (require c e : Prog π σ ε Unit).Keeps P := by
  intro s hs
  unfold Prog.require
  by_cases hc : c
  · rw [if_pos hc]
    exact ends_pure.mpr hs
  · rw [if_neg hc]
    exact ends_fail.mpr hs

theorem Keeps.mapError (hm : m.Keeps P) (g : ε → ε') : (m.mapError g).Keeps P :=
  fun s hs => ends_mapError.mpr (hm s hs)

theorem Keeps.attempt (hm : m.Keeps P) : (m.attempt : Prog π σ ε' (Except ε α)).Keeps P :=
  fun s hs => ends_attempt.mpr (hm s hs)

theorem Keeps.ignore (hm : m.Keeps P) : (m.ignore : Prog π σ ε' Unit).Keeps P :=
  fun s hs => (ends_map m fun _ p => (.ok (), p.2)).mpr fun _ he => hm s hs _ _ he

theorem Keeps.ite [Decidable c] {m' : Prog π σ ε α} (hm : m.Keeps P)
    (hm' : m'.Keeps P) : (if c then m else m').Keeps P := by
  by_cases hc : c
  · rwa [if_pos hc]
  · rwa [if_neg hc]

theorem Keeps.when [Decidable c] {m : Prog π σ ε Unit} (hm : m.Keeps P) : (when c m).Keeps P :=
  Keeps.ite hm (Keeps.pure ())

/-- A loop keeps what each of its turns keeps. -/
theorem Keeps.foldlM {g : β → γ → Prog π σ ε β} (h : ∀ b c, (g b c).Keeps P)
    (l : List γ) (b : β) : (l.foldlM g b).Keeps P := by
  induction l generalizing b with
  | nil => exact Keeps.pure b
  | cons c l ih =>
    exact (h b c).bind fun b' => ih b'

end Prog

end Oxide
