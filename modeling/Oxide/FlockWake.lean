/-
Whole-file locks and their wake-ups.

A task that asks for a lock tries under the lock of the inode, parks itself there when it is
refused, and sleeps. The attempt first drops the lock its description held, so it may release
something whether it is granted or not; the wake comes after the section.

* `FlockWorld`: the locks of one inode with the calls of all tasks on it;
* `Wakes`: a step that lets a parked request through leads to a wake;
* `wakes_run_iff`: **every step does so except a granted conversion from exclusive to shared**,
  which returns without a wake;
* `no_lost_wake`: in runs without such conversions, a wake is due for every parked request that
  would be granted.
-/
import Oxide.Runs

namespace Oxide

inductive FlockKind
  | shared
  | exclusive
deriving DecidableEq

structure FlockHolder where
  fileId : ℕ
  kind : FlockKind

inductive FlockTry
  | acquired
  | blocked (released : Bool)

/-- The holders without those of a description, and whether there were any. -/
def dropFlock (st : List FlockHolder) (fileId : ℕ) : List FlockHolder × Bool :=
  let rest := st.filter fun h => h.fileId ≠ fileId
  (rest, rest.length ≠ st.length)

/-- What the locks of the others refuse. -/
def flockBlocked (st : List FlockHolder) : FlockKind → Bool
  | .exclusive => !st.isEmpty
  | .shared => st.any fun h => h.kind = .exclusive

/-- Drop the old lock, then try. -/
def tryFlockLocked (st : List FlockHolder) (fileId : ℕ) (want : FlockKind) :
    FlockTry × List FlockHolder :=
  let (st, released) := dropFlock st fileId
  if flockBlocked st want then (.blocked released, st) else (.acquired, st ++ [⟨fileId, want⟩])

/-- Where a task is in its call. -/
inductive FlockPc
  | user
  /-- Before an attempt, with `LOCK_NB` or without. -/
  | attempt (fileId : ℕ) (want : FlockKind) (nb : Bool)
  /-- Before the removal by `LOCK_UN`, or by the last reference to the description. -/
  | unlock (fileId : ℕ)
  /-- Before `file_lock_wake`; what follows is the return or the sleep. -/
  | wake (next : FlockPc)
  | sleep (fileId : ℕ) (want : FlockKind)
deriving DecidableEq

/-- The locks of an inode, the requests parked on its wait key and the tasks. -/
structure FlockWorld (τ : Type) where
  flock : List FlockHolder
  parked : τ → Option (ℕ × FlockKind)
  pc : τ → FlockPc

/-- One step of one task. -/
inductive FlockEvent (τ : Type)
  | lock (t : τ) (fileId : ℕ) (want : FlockKind) (nb : Bool)
  | unlock (t : τ) (fileId : ℕ)
  | run (t : τ)
  /-- A signal ends the sleep of a task. -/
  | interrupt (t : τ)

namespace FlockWorld

variable {τ : Type} [DecidableEq τ] {w : FlockWorld τ} {st : List FlockHolder} {f g : ℕ}
  {k : FlockKind}

def init : FlockWorld τ := ⟨[], fun _ => none, fun _ => .user⟩

def goto (w : FlockWorld τ) (t : τ) (p : FlockPc) : FlockWorld τ :=
  { w with pc := Function.update w.pc t p }

/-- The wake, if there is one to issue, and what follows. -/
def wakeIf (released : Bool) (next : FlockPc) : FlockPc := if released then .wake next else next

/-- The next step of a task. -/
def run (w : FlockWorld τ) (t : τ) : FlockWorld τ :=
  match w.pc t with
  | .user => w
  | .attempt f want nb =>
    match tryFlockLocked w.flock f want with
    | (.acquired, st) => { w.goto t .user with flock := st }
    | (.blocked released, st) =>
      if nb then { w.goto t (wakeIf released .user) with flock := st }
      else { w.goto t (wakeIf released (.sleep f want)) with
        flock := st
        parked := Function.update w.parked t (some (f, want)) }
  | .unlock f =>
    let (st, released) := dropFlock w.flock f
    { w.goto t (wakeIf released .user) with flock := st }
  -- all parked tasks are woken
  | .wake next => { w.goto t next with parked := fun _ => none }
  | .sleep f want => if (w.parked t).isSome then w else w.goto t (.attempt f want false)

def step (w : FlockWorld τ) : FlockEvent τ → FlockWorld τ
  | .lock t f want nb => if w.pc t = .user then w.goto t (.attempt f want nb) else w
  | .unlock t f => if w.pc t = .user then w.goto t (.unlock f) else w
  | .run t => w.run t
  | .interrupt t => match w.pc t with
    | .sleep _ _ => { w.goto t .user with parked := Function.update w.parked t none }
    | _ => w

/-- The request would be granted. -/
def Grants (st : List FlockHolder) (f : ℕ) (want : FlockKind) : Prop :=
  (tryFlockLocked st f want).1 = .acquired

/-- The task has a wake to issue before it returns or sleeps. -/
def Waking (w : FlockWorld τ) (t : τ) : Prop := ∃ next, w.pc t = .wake next

/-- If the event lets a parked request through, its task has a wake to issue. -/
def Wakes (w : FlockWorld τ) (e : FlockEvent τ) : Prop :=
  ∀ u f k, (w.step e).parked u = some (f, k) → ¬ Grants w.flock f k →
    Grants (w.step e).flock f k → ∃ t, e = .run t ∧ (w.step e).Waking t

/-- A conversion from exclusive to shared is granted while another shared request is parked. -/
def Downgrades (w : FlockWorld τ) (e : FlockEvent τ) : Prop :=
  ∃ t f nb u g, e = .run t ∧ w.pc t = .attempt f .shared nb ∧ ⟨f, .exclusive⟩ ∈ w.flock ∧
    Grants w.flock f .shared ∧ w.parked u = some (g, .shared) ∧ g ≠ f

theorem tryFlockLocked_cases (st : List FlockHolder) (f : ℕ) (k : FlockKind) :
    (Grants st f k ∧ tryFlockLocked st f k = (.acquired, (dropFlock st f).1 ++ [⟨f, k⟩])) ∨
    (¬ Grants st f k ∧
      tryFlockLocked st f k = (.blocked (dropFlock st f).2, (dropFlock st f).1)) := by
  unfold Grants tryFlockLocked
  cases h : flockBlocked (dropFlock st f).1 k <;> simp [h]

/-- A request is granted when nobody else holds a lock, or everybody a shared one. -/
theorem grants_iff :
    Grants st f k ↔ ∀ h ∈ st, h.fileId ≠ f → k = .shared ∧ h.kind = .shared := by
  have hkind : ∀ h : FlockHolder, ¬ h.kind = .exclusive ↔ h.kind = .shared := by
    intro h
    cases h.kind <;> simp
  have hblocked : Grants st f k ↔ flockBlocked (dropFlock st f).1 k = false := by
    unfold Grants tryFlockLocked
    cases h : flockBlocked (dropFlock st f).1 k <;> simp [h]
  rw [hblocked]
  cases k <;> simp [flockBlocked, dropFlock, hkind]

theorem mem_dropFlock {h : FlockHolder} : h ∈ (dropFlock st f).1 ↔ h ∈ st ∧ h.fileId ≠ f := by
  simp [dropFlock]

/-- A removal that lets a request through is reported. -/
theorem wakeIf_dropFlock {next : FlockPc} (hno : ¬ Grants st g k)
    (hyes : Grants (dropFlock st f).1 g k) : wakeIf (dropFlock st f).2 next = .wake next := by
  refine if_pos ?_
  by_contra hlen
  have hsame : (dropFlock st f).1 = st := by simpa [dropFlock] using hlen
  rw [hsame] at hyes
  exact hno hyes

/-- A step leaves the locks, drops those of one description with a wake to follow, or grants. -/
theorem run_cases (w : FlockWorld τ) (t : τ) :
    (w.run t).flock = w.flock ∨
    (∃ f next, (w.run t).flock = (dropFlock w.flock f).1 ∧
      (w.run t).pc t = wakeIf (dropFlock w.flock f).2 next) ∨
    ∃ f k nb, w.pc t = .attempt f k nb ∧ Grants w.flock f k ∧
      w.run t = { w.goto t .user with flock := (dropFlock w.flock f).1 ++ [⟨f, k⟩] } := by
  unfold run
  split
  · exact .inl rfl
  case h_2 f k nb hpc =>
    obtain ⟨hgr, htry⟩ | ⟨-, htry⟩ := tryFlockLocked_cases w.flock f k
    · rw [htry]
      exact .inr (.inr ⟨f, k, nb, hpc, hgr, rfl⟩)
    rw [htry]
    dsimp only
    split <;> exact .inr (.inl ⟨f, _, rfl, Function.update_self ..⟩)
  case h_3 f _ => exact .inr (.inl ⟨f, _, rfl, Function.update_self ..⟩)
  · exact .inl rfl
  · split <;> exact .inl rfl

theorem wakes_iff (e : FlockEvent τ) : w.Wakes e ↔ ¬ w.Downgrades e := by
  constructor
  · rintro hw ⟨t, f, nb, u, g, rfl, hpc, hex, hgr, hpk, hne⟩
    obtain ⟨-, htry⟩ | ⟨hno, -⟩ := tryFlockLocked_cases w.flock f .shared
    swap
    · exact hno hgr
    have hrun : w.step (.run t) = { w.goto t .user with
        flock := (dropFlock w.flock f).1 ++ [⟨f, .shared⟩] } := by
      simp [step, run, hpc, htry]
    have hno : ¬ Grants w.flock g .shared := fun h => nomatch (grants_iff.mp h _ hex hne.symm).2
    have hyes : Grants (w.step (.run t)).flock g .shared := by
      rw [hrun, grants_iff]
      intro h hmem _
      rcases List.mem_append.mp hmem with hmem | hmem
      · obtain ⟨h1, h2⟩ := mem_dropFlock.mp hmem
        exact grants_iff.mp hgr h h1 h2
      · rw [List.mem_singleton.mp hmem]
        exact ⟨rfl, rfl⟩
    obtain ⟨t', ht, next, hnext⟩ := hw u g .shared (by rwa [hrun]) hno hyes
    cases ht
    simp [hrun, goto] at hnext
  intro hd u g k hpk hno hyes
  cases e with
  | lock | unlock | interrupt =>
    refine absurd ?_ hno
    dsimp only [step] at hyes
    split at hyes <;> exact hyes
  | run t =>
  refine ⟨t, rfl, ?_⟩
  rcases w.run_cases t with hsame | ⟨f, next, hdrop, hnext⟩ | ⟨f, k', nb, hpc, hgr, hrun⟩
  · exact absurd (hsame ▸ hyes) hno
  · exact ⟨next, hnext.trans (wakeIf_dropFlock hno (hdrop ▸ hyes))⟩
  -- the request was refused because of the lock that is converted
  have hpk' : w.parked u = some (g, k) := by
    rwa [step, hrun] at hpk
  rw [step, hrun, grants_iff] at hyes
  rw [grants_iff] at hno
  push Not at hno
  obtain ⟨h, hmem, hg, hblock⟩ := hno
  have hf : h.fileId = f := by
    by_contra hf
    obtain ⟨h1, h2⟩ := hyes h (List.mem_append_left _ (mem_dropFlock.mpr ⟨hmem, hf⟩)) hg
    exact hblock h1 h2
  obtain ⟨rfl, hk'⟩ := hyes ⟨f, k'⟩ (by simp) (hf ▸ hg)
  cases hk'
  obtain ⟨_, kind⟩ := h
  subst hf
  cases kind with
  | shared => exact absurd rfl (hblock rfl)
  | exclusive => exact absurd ⟨t, _, nb, u, g, rfl, hpc, hmem, hgr, hpk', hg.symm⟩ hd

/-- **Releases wake**: the runs whose every step lets parked requests through with a wake are the
runs without such conversions. -/
theorem wakes_run_iff (es : List (FlockEvent τ)) :
    Run.Meets step Wakes init es ↔ Run.Meets step (fun w e => ¬ w.Downgrades e) init es := by
  have hwakes : (Wakes : FlockWorld τ → FlockEvent τ → Prop) = fun w e => ¬ w.Downgrades e :=
    funext fun w => funext fun e => propext (wakes_iff e)
  rw [hwakes]

/-- A task converts its exclusive lock while another waits for a shared one. -/
theorem downgrade_without_wake : ¬ Run.Meets step Wakes (init : FlockWorld ℕ)
    [.lock 0 0 .exclusive false, .run 0, .lock 1 1 .shared false, .run 1, .lock 0 0 .shared false,
      .run 0] := by
  rintro ⟨-, -, -, -, -, h, -⟩
  obtain ⟨t, ht, next, hnext⟩ := h 1 1 .shared rfl nofun rfl
  cases ht
  cases hnext

/-! ### Whole runs -/

/-- A wake is due for every parked request that would be granted. -/
def WakesDue (w : FlockWorld τ) : Prop :=
  ∀ u f k, w.parked u = some (f, k) → Grants w.flock f k → ∃ t, w.Waking t

/-- The wakes that are due stay, and what is parked was parked before or has just been refused. -/
structure Parks (w w' : FlockWorld τ) : Prop where
  waking : ∀ t, w.Waking t → w'.Waking t
  parked : ∀ u f k, w'.parked u = some (f, k) → w.parked u = some (f, k) ∨ ¬ Grants w.flock f k

/-- A step wakes every parked task, or keeps the wakes that are due. -/
theorem step_parks (e : FlockEvent τ) :
    (∀ u, (w.step e).parked u = none) ∨ Parks w (w.step e) := by
  have hrefl : Parks w w := ⟨fun _ => id, fun _ _ _ => .inl⟩
  have hgoto : ∀ {t p q}, w.pc t = q → (∀ next, q ≠ .wake next) →
      ∀ u, w.Waking u → (w.goto t p).Waking u := by
    rintro t p q hq hne u ⟨next, hnext⟩
    refine ⟨next, (Function.update_of_ne ?_ ..).trans hnext⟩
    rintro rfl
    exact hne next (hq.symm.trans hnext)
  have hupdate : ∀ {t u : τ} {x : Option (ℕ × FlockKind)} {f k},
      Function.update w.parked t x u = some (f, k) →
        w.parked u = some (f, k) ∨ x = some (f, k) := by
    intro t u x f k h
    rw [Function.update_apply] at h
    split at h
    · exact .inr h
    · exact .inl h
  cases e with
  | lock | unlock =>
    dsimp only [step]
    split_ifs with hpc
    · exact .inr ⟨hgoto hpc nofun, fun _ _ _ => .inl⟩
    · exact .inr hrefl
  | interrupt t =>
    dsimp only [step]
    split
    case h_1 hpc => exact .inr ⟨hgoto hpc nofun, fun _ _ _ h => (hupdate h).imp_right nofun⟩
    · exact .inr hrefl
  | run t =>
  dsimp only [step]
  unfold run
  split
  · exact .inr hrefl
  case h_2 f k nb hpc =>
    right
    obtain ⟨-, htry⟩ | ⟨hno, htry⟩ := tryFlockLocked_cases w.flock f k <;> rw [htry]
    · exact ⟨hgoto hpc nofun, fun _ _ _ => .inl⟩
    dsimp only
    split
    · exact ⟨hgoto hpc nofun, fun _ _ _ => .inl⟩
    refine ⟨hgoto hpc nofun, fun u f' k' h => (hupdate h).imp_right ?_⟩
    rintro ⟨⟩
    exact hno
  case h_3 hpc => exact .inr ⟨hgoto hpc nofun, fun _ _ _ => .inl⟩
  · exact .inl fun _ => rfl
  case h_5 hpc =>
    split
    · exact .inr hrefl
    · exact .inr ⟨hgoto hpc nofun, fun _ _ _ => .inl⟩

/-- **No wake is lost** in a run without such conversions. -/
theorem no_lost_wake {es : List (FlockEvent τ)}
    (h : Run.Meets step (fun w e => ¬ w.Downgrades e) init es) :
    Run.Always step WakesDue init es := by
  refine Run.Meets.always (fun w e hi hd => ?_) (fun _ _ _ h => nomatch h) h fun _ h => h
  intro u f k hpk hyes
  by_cases hg : Grants w.flock f k
  swap
  · obtain ⟨t, -, ht⟩ := (wakes_iff e).mpr hd u f k hpk hg hyes
    exact ⟨t, ht⟩
  rcases step_parks e with hnone | ⟨hwake, hparks⟩
  · cases (hnone u).symm.trans hpk
  obtain ⟨t, ht⟩ := hi u f k ((hparks u f k hpk).resolve_right fun hno => hno hg) hg
  exact ⟨t, hwake t ht⟩

/-- A lock is handed over; only its waiter asks for a shared one. -/
theorem handover_wakes : Run.Always step WakesDue (init : FlockWorld ℕ)
    [.lock 0 0 .exclusive false, .run 0, .lock 1 1 .shared false, .run 1, .unlock 0 0, .run 0] := by
  refine no_lost_wake ⟨?_, ?_, ?_, ?_, ?_, ?_, trivial⟩ <;>
    rintro ⟨t, f, nb, u, g, ⟨⟩, hpc, hmem, -⟩ <;> cases hpc
  cases List.mem_singleton.mp hmem

end FlockWorld

end Oxide
