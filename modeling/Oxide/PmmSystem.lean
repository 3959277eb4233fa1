/-
The memory manager at work: allocation calls in progress, frees, reservations and drains.

A call of `alloc_gfp` is a sequence of attempts; between them it waits for reclaim and for the
out-of-memory selector, and everything else may happen meanwhile. The state of the system is
the manager, the blocks handed out and not yet freed, the pages reserved for good, and the calls
still waiting.

* `Action.exec`, `Sys.run`: one step of a call or one other operation, and a sequence of them;
* **`Sys.Good.exec`**: from a good state a valid action either leads to a good state or fails the
  one self-check that a stolen page fails;
* **`Sys.no_kassert_iff_safe`**: a run is free of faults exactly if none of its attempts has to
  refill a pageset with stolen pages.
-/
import Oxide.PmmRefill
import Oxide.PmmInit
import Oxide.Runs

namespace Oxide.Buddy

open DyadicBlock
open Pmm (UsableRegion)

/-! ### The slow path of an allocation call -/

def PAGE_ALLOC_COSTLY_ORDER : ℕ := 3

def MAX_RECLAIM_RETRIES : ℕ := 16

/-- What one invocation of the out-of-memory selector achieved. -/
inductive OomOutcome
  | progress
  | contended
  | noKillable
  deriving DecidableEq

/-- How far a call has tried. -/
structure RetryState where
  noProgressLoops : ℕ := 0
  oomAttempts : ℕ := 0
  deriving DecidableEq

/-- What the slow path does after one pass. -/
inductive NextStep
  | retry
  | invokeOom
  | fail
  deriving DecidableEq

namespace RetryState

/-- Account one reclaim pass; a costly order never counts it as progress. -/
def noteReclaim (st : RetryState) (progress : Bool) (order : ℕ) : RetryState :=
  if progress && decide (order ≤ PAGE_ALLOC_COSTLY_ORDER) then { st with noProgressLoops := 0 }
  else { st with noProgressLoops := min (st.noProgressLoops + 1) (2 ^ 32 - 1) }

def nextStep (st : RetryState) (order : ℕ) (progress : Bool) : NextStep × RetryState :=
  let st := st.noteReclaim progress order
  if st.noProgressLoops ≤ MAX_RECLAIM_RETRIES then (.retry, st)
  else if PAGE_ALLOC_COSTLY_ORDER < order then (.fail, st)
  else (.invokeOom, st)

def afterOom (st : RetryState) (outcome : OomOutcome) : NextStep × RetryState :=
  if outcome = .noKillable then (.fail, st)
  else (.retry, { noProgressLoops := 0, oomAttempts := min (st.oomAttempts + 1) (2 ^ 32 - 1) })

end RetryState

/-- Where an allocation call stands. -/
inductive Phase
  | fast
  | slow
  | reclaiming (st : RetryState)
  | retrying (st : RetryState)
  deriving DecidableEq

/-- An allocation call that has not returned. -/
structure Pending where
  order : ℕ
  highest : ZoneType
  mt : MigrateType
  /-- The flags grant part of the minimum reserve. -/
  grants : Bool
  /-- The context may sleep, and so reclaim. -/
  allowed : Bool
  phase : Phase

namespace Pending

variable (c : Pending)

/-- The watermark of the attempt the call makes next, if it makes one. -/
def attemptMark : Option AllocWmark :=
  match c.phase with
  | .fast => some .low
  | .slow | .retrying _ => some (slowpathWmark c.grants c.allowed)
  | .reclaiming _ => none

/-- What is left of the call after an attempt has failed. -/
def afterMiss (e : Error) : Option Pending :=
  match c.phase with
  | .fast => if e = .noMem then some { c with phase := .slow } else none
  | .slow => if c.allowed then some { c with phase := .reclaiming {} } else none
  | .reclaiming st | .retrying st => some { c with phase := .reclaiming st }

/-- What is left of the call after a reclaim pass, and a kill where one is due. -/
def afterReclaim (progress : Bool) (outcome : OomOutcome) : Option Pending :=
  match c.phase with
  | .reclaiming st =>
    match st.nextStep c.order progress with
    | (.fail, _) => none
    | (.retry, st) => some { c with phase := .retrying st }
    | (.invokeOom, st) =>
      match st.afterOom outcome with
      | (.retry, st) => some { c with phase := .retrying st }
      | _ => none
  | _ => some c

end Pending

/-- `alloc_gfp` begins: contradictory flags are refused at once. -/
def allocGfp (order : ℕ) (gfp : BitVec 32) (allowed : Bool) : Option Pending :=
  match gfpZone gfp, gfpMigratetype gfp with
  | some highest, some mt => some ⟨order, highest, mt, grantsMinReserve gfp, allowed, .fast⟩
  | _, _ => none

/-! ### The system -/

/-- The manager and what its callers hold. -/
structure Sys where
  pmm : Pmm
  /-- Order and first page of each block handed out and not freed. -/
  live : List (ℕ × ℕ)
  /-- The pages taken by reservations. -/
  reserved : List ℕ
  calls : List Pending

/-- One step of a call, or an operation. -/
inductive Action
  | allocGfp (order : ℕ) (gfp : BitVec 32) (allowed : Bool)
  /-- The `i`-th call goes on; `progress` and `outcome` are what reclaim and the out-of-memory
  selector report to it. -/
  | proceed (i : ℕ) (pins : Pmm.Pins) (progress : Bool) (outcome : OomOutcome)
  | free (pfn order : ℕ) (cpu : Cpu) (online : ℕ)
  | reserveEarly (start len : ℕ) (nosave exact : Bool)
  | drain (highest : ZoneType)
  | refreshWatermarks (tunables : WatermarkTunables)
  | write (pfn : ℕ) (node : FreeNode)

namespace Sys

def start (pmm : Pmm) : Sys := ⟨pmm, [], [], []⟩

/-- The `i`-th call goes on as `c`, or returns. -/
def resume (s : Sys) (i : ℕ) : Option Pending → Sys
  | some c => { s with calls := s.calls.set i c }
  | none => { s with calls := s.calls.eraseIdx i }

/-- One attempt of the `i`-th call. -/
def attempt (s : Sys) (i : ℕ) (c : Pending) (wmark : AllocWmark) (pins : Pmm.Pins) :
    Except Fault Sys := do
  match ← s.pmm.allocInnerZoned c.order c.highest wmark c.mt pins with
  | (.ok pfn, pmm) => return resume { s with pmm := pmm, live := (c.order, pfn) :: s.live } i none
  | (.error e, pmm) => return resume { s with pmm := pmm } i (c.afterMiss e)

end Sys

namespace Action

def exec (x : Action) (s : Sys) : Except Fault Sys :=
  match x with
  | allocGfp order gfp allowed =>
    .ok { s with calls := s.calls ++ (Buddy.allocGfp order gfp allowed).toList }
  | proceed i pins progress outcome =>
    match s.calls[i]? with
    | none => .ok s
    | some c =>
      match c.attemptMark with
      | some wmark => s.attempt i c wmark pins
      | none => .ok (s.resume i (c.afterReclaim progress outcome))
  | free pfn order cpu online => do
    let pmm ← s.pmm.free pfn order cpu online
    return { s with pmm := pmm, live := s.live.erase (order, pfn) }
  | reserveEarly start len nosave exact => do
    match ← s.pmm.reserveEarlyInner start len nosave exact with
    | (.ok _, pmm) =>
      return { s with
        pmm := pmm
        reserved := s.reserved ++ (List.range' start len).filter s.pmm.globallyFree }
    | (.error _, pmm) => return { s with pmm := pmm }
  | drain highest => do
    let (_, pmm) ← s.pmm.drainPcpBelow highest
    return { s with pmm := pmm }
  | refreshWatermarks tunables => .ok { s with pmm := s.pmm.refreshWatermarks tunables }
  | write pfn node => .ok { s with pmm := { s.pmm with
      area := { s.pmm.area with mem := Function.update s.pmm.area.mem pfn node } } }

/-- What callers promise: they free what they hold, at its order, and do not write to free
pages. -/
def Valid (x : Action) (s : Sys) : Prop :=
  match x with
  | free pfn order _ _ => (order, pfn) ∈ s.live
  | write pfn _ => s.pmm.globallyFree pfn = false ∧ s.pmm.pcpBitmap pfn = false
  | _ => True

/-- The action makes no attempt that has to refill a pageset with stolen pages. -/
def Safe (x : Action) (s : Sys) : Prop :=
  match x with
  | proceed i pins _ _ => ∀ c ∈ s.calls[i]?, ∀ wmark ∈ c.attemptMark,
      s.pmm.attemptSafe c.order c.highest wmark c.mt pins = true
  | _ => True

end Action

/-- Run a sequence of actions. -/
def Sys.run : List Action → Sys → Except Fault Sys
  | [], s => .ok s
  | x :: xs, s => do
    let s ← x.exec s
    Sys.run xs s

/-- `P` holds of each action in the state it is taken in. -/
abbrev Sys.Along (P : Action → Sys → Prop) (xs : List Action) (s : Sys) : Prop :=
  Run.MeetsOk (fun s x => x.exec s) (fun s x => P x s) s xs

/-! ### What every run keeps -/

/-- The manager meets its invariant for the system's lists; the pages outside the regions are the
ones nobody manages, and regions that do not touch give coalesced lists. -/
structure Sys.GoodWith (regions : List UsableRegion) (s : Sys) (own : ℕ → Owner Holder) :
    Prop where
  inv : Inv s.pmm own s.live s.reserved
  outside : ∀ q, own q = .held .outside ↔ UsableRegion.covers regions q = false
  coalesced : regions.Pairwise UsableRegion.Apart → Coalesced s.pmm.area own

def Sys.Good (regions : List UsableRegion) (s : Sys) : Prop := ∃ own, s.GoodWith regions own

namespace Sys

variable {regions : List UsableRegion} {s : Sys} {own : ℕ → Owner Holder}

theorem GoodWith.keep (h : s.GoodWith regions own) (s' : Sys) {own' : ℕ → Owner Holder}
    (hinv : Inv s'.pmm own' s'.live s'.reserved) (hk : Keeps s.pmm own s'.pmm own') :
    s'.Good regions :=
  ⟨own', hinv, fun q => (hk.outside q).trans (h.outside q),
    fun hap => hk.coalesced (h.coalesced hap)⟩

theorem Good.resume (h : s.Good regions) (i : ℕ) (c : Option Pending) :
    (s.resume i c).Good regions := by
  obtain ⟨own, h⟩ := h
  cases c with
  | none => exact ⟨own, h.inv, h.outside, h.coalesced⟩
  | some => exact ⟨own, h.inv, h.outside, h.coalesced⟩

/-- **An attempt** is good if it is safe, and fails a self-check otherwise. -/
theorem Good.attempt (h : s.Good regions) (i : ℕ) (c : Pending) (wmark : AllocWmark)
    (pins : Pmm.Pins) :
    (s.pmm.attemptSafe c.order c.highest wmark c.mt pins = true ∧
      ∃ s', s.attempt i c wmark pins = .ok s' ∧ s'.Good regions) ∨
    (s.pmm.attemptSafe c.order c.highest wmark c.mt pins = false ∧
      s.attempt i c wmark pins = .error wrongMigratetype) := by
  obtain ⟨own, h⟩ := h
  rcases h.inv.allocInnerZoned_spec c.order c.highest wmark c.mt pins with
    ⟨hsafe, hrun⟩ | ⟨hsafe, ⟨e, pmm, own', hrun, hinv, hk⟩ | ⟨p, pmm, hrun, own', hinv, hk⟩⟩
  · refine .inr ⟨hsafe, ?_⟩
    rw [Sys.attempt, hrun]
    rfl
  · refine .inl ⟨hsafe, Sys.resume { s with pmm := pmm } i (c.afterMiss e), ?_, ?_⟩
    · rw [Sys.attempt, hrun]
      rfl
    · exact Good.resume (h.keep { s with pmm := pmm } hinv hk) i _
  refine .inl ⟨hsafe,
    Sys.resume { s with pmm := pmm, live := (c.order, p) :: s.live } i none, ?_, ?_⟩
  · rw [Sys.attempt, hrun]
    rfl
  · exact Good.resume
      (h.keep { s with pmm := pmm, live := (c.order, p) :: s.live } hinv hk) i _

/-- A page that is not marked free in any bitmap is nobody's free page. -/
theorem not_free_of_bits (h : Inv s.pmm own s.live s.reserved) {q : ℕ}
    (hq : s.pmm.globallyFree q = false ∧ s.pmm.pcpBitmap q = false) :
    (∀ o p, own q ≠ .buddy o p) ∧ ∀ k, own q ≠ .held (.cached k) := by
  constructor
  · intro o p hown
    have := (Inv.globallyFree_iff h.pages.area q).mpr ⟨o, p, hown⟩
    cases hq.1.symm.trans this
  intro k hown
  have := (h.pages.marked q).mpr ⟨k, hown⟩
  cases hq.2.symm.trans this

/-- **One action**: a good state again, or the failed self-check of an unsafe attempt. -/
theorem Good.exec (h : s.Good regions) {x : Action} (hv : x.Valid s) :
    (x.Safe s ∧ ∃ s', x.exec s = .ok s' ∧ s'.Good regions) ∨
    (¬ x.Safe s ∧ x.exec s = .error wrongMigratetype) := by
  cases x
  case proceed i pins progress outcome =>
    cases hc : s.calls[i]? with
    | none =>
      refine .inl ⟨by simp [Action.Safe, hc], s, ?_, h⟩
      simp only [Action.exec, hc]
    | some c =>
    cases hm : c.attemptMark with
    | none =>
      refine .inl ⟨by simp [Action.Safe, hc, hm], s.resume i (c.afterReclaim progress outcome), ?_,
        h.resume i _⟩
      simp only [Action.exec, hc, hm]
    | some wmark =>
    have hsafe : (Action.proceed i pins progress outcome).Safe s ↔
        s.pmm.attemptSafe c.order c.highest wmark c.mt pins = true := by
      simp [Action.Safe, hc, hm]
    have hexec : (Action.proceed i pins progress outcome).exec s = s.attempt i c wmark pins := by
      simp only [Action.exec, hc, hm]
    rw [hsafe, hexec]
    exact (h.attempt i c wmark pins).imp id fun ⟨h1, h2⟩ => ⟨by simp [h1], h2⟩
  -- the other actions are always safe
  all_goals
    obtain ⟨own, h⟩ := h
    refine .inl ⟨trivial, ?_⟩
  case allocGfp => exact ⟨_, rfl, own, h.inv, h.outside, h.coalesced⟩
  case free pfn order cpu online =>
    obtain ⟨pmm, own', hrun, hinv, hk⟩ := h.inv.free_spec (hv : (order, pfn) ∈ s.live) cpu online
    refine ⟨{ s with pmm := pmm, live := s.live.erase (order, pfn) }, ?_, h.keep _ hinv hk⟩
    rw [Action.exec, hrun]
    rfl
  case reserveEarly start len nosave exact =>
    rcases h.inv.reserveEarlyInner_spec start len nosave exact with
      ⟨e, hrun⟩ | ⟨pmm, own', hrun, hinv, hk⟩
    · refine ⟨s, ?_, own, h⟩
      rw [Action.exec, hrun]
      rfl
    refine ⟨{ s with
      pmm := pmm
      reserved := s.reserved ++ (List.range' start len).filter s.pmm.globallyFree }, ?_,
      h.keep _ hinv hk⟩
    rw [Action.exec, hrun]
    rfl
  case drain =>
    obtain ⟨b, pmm, own', hrun, hinv, hk⟩ := h.inv.drainPcpBelow_spec ..
    refine ⟨{ s with pmm := pmm }, ?_, h.keep _ hinv hk⟩
    rw [Action.exec, hrun]
    rfl
  case refreshWatermarks tunables =>
    obtain ⟨hinv, hk⟩ := h.inv.refreshWatermarks tunables
    exact ⟨_, rfl, h.keep { s with pmm := s.pmm.refreshWatermarks tunables } hinv hk⟩
  rename_i pfn node
  have hm : MemOnly s.pmm.area
      { s.pmm.area with mem := Function.update s.pmm.area.mem pfn node } (fun q => q = pfn) :=
    ⟨rfl, fun q hq => Function.update_of_ne hq _ _⟩
  obtain ⟨hinv, hk⟩ := h.inv.write hm (fun q hq => by
    subst hq
    exact not_free_of_bits h.inv hv)
  exact ⟨_, rfl, h.keep { s with pmm := { s.pmm with
    area := { s.pmm.area with mem := Function.update s.pmm.area.mem pfn node } } } hinv hk⟩

variable {xs : List Action}

/-- **Whole runs**: a valid run is free of faults exactly if it is safe throughout; it ends in a
good state, or with the failed self-check of a stolen page. -/
theorem Good.run (h : s.Good regions) (hv : Along Action.Valid xs s) :
    (Along Action.Safe xs s ∧ ∃ s', run xs s = .ok s' ∧ s'.Good regions) ∨
    (¬ Along Action.Safe xs s ∧ run xs s = .error wrongMigratetype) := by
  induction xs generalizing s with
  | nil => exact .inl ⟨trivial, s, rfl, h⟩
  | cons x xs ih =>
  rcases h.exec hv.1 with ⟨hsafe, s', hrun, hg⟩ | ⟨hsafe, hrun⟩
  · have hrest : Along Action.Safe (x :: xs) s ↔ Along Action.Safe xs s' := by
      constructor
      · exact fun hs => hs.2 s' hrun
      intro hs
      refine ⟨hsafe, fun s'' hs'' => ?_⟩
      cases hrun.symm.trans hs''
      exact hs
    rw [hrest, Sys.run, hrun, ok_bind]
    exact ih hg (hv.2 s' hrun)
  · refine .inr ⟨fun hs => hsafe hs.1, ?_⟩
    rw [Sys.run, hrun]
    rfl

variable {limits : Option ZoneLimits} {pmm : Pmm} {mem : ℕ → FreeNode}

theorem good_start
    (h : Pmm.initZoned mem regions limits = .ok (.ok pmm)) : (start pmm).Good regions := by
  rcases initZoned_spec mem regions limits with ⟨e, he⟩ | ⟨s, own, hs, hinv, hout, hco⟩
  · cases h.symm.trans he
  · rw [h] at hs
    obtain rfl : pmm = s := by simpa using hs
    exact ⟨own, hinv, hout, hco⟩

/-! ### Self-checks -/

/-- **Which runs pass every self-check.**  In a run of calls that keep their promises, from a
manager built over any regions, no assertion fails exactly if no attempt has to refill a pageset
with stolen pages. -/
theorem no_kassert_iff_safe (h : Pmm.initZoned mem regions limits = .ok (.ok pmm))
    (hv : Along Action.Valid xs (start pmm)) :
    (∀ msg, run xs (start pmm) ≠ .error (.kassert msg)) ↔ Along Action.Safe xs (start pmm) := by
  rcases (good_start h).run hv with ⟨hsafe, s', hrun, -⟩ | ⟨hsafe, hrun⟩
  · exact iff_of_true (fun msg => by simp [hrun]) hsafe
  · exact iff_of_false (fun hno => hno _ hrun) hsafe

/-- One region of eight pages, in the normal zone and without a movable boundary. -/
def eightPages : Except Fault (Except Error Pmm) :=
  Pmm.initZoned (fun _ => .zero) [⟨0, 8⟩] (some ⟨0, 0, none⟩)

/-- A call for one page with the given flags, and its first attempt. -/
def onePage (gfp : BitVec 32) : List Action :=
  [.allocGfp 0 gfp false,
    .proceed 0 ⟨fun _ => ⟨0, by decide⟩, fun _ => ⟨0, by decide⟩⟩ false .progress]

/-- The allocator of those pages, if they can be set up. -/
def eightPagesPmm? : Option Pmm := eightPages.toOption.bind Except.toOption

theorem eightPages_ok : ∃ pmm, eightPages = .ok (.ok pmm) := by
  rcases initZoned_spec (fun _ => .zero) [⟨0, 8⟩] (some ⟨0, 0, none⟩) with ⟨e, he⟩ | ⟨s, -, hs, -⟩
  · have hok : eightPagesPmm?.isSome = true := by decide +kernel
    rw [eightPagesPmm?, eightPages, he] at hok
    cases hok
  · exact ⟨s, hs⟩

theorem eightPages_eq {pmm : Pmm} (h : eightPages = .ok (.ok pmm)) : eightPagesPmm? = some pmm := by
  rw [eightPagesPmm?, h]
  rfl

/-- A call for an unmovable page is served from that memory. -/
theorem eightPages_serves : ∃ pmm s, eightPages = .ok (.ok pmm) ∧
    run (onePage 0) (start pmm) = .ok s := by
  obtain ⟨pmm, hpmm⟩ := eightPages_ok
  have hok : (eightPagesPmm?.bind fun pmm => (run (onePage 0) (start pmm)).toOption).isSome := by
    decide +kernel
  rw [eightPages_eq hpmm, Option.bind_some] at hok
  cases hrun : run (onePage 0) (start pmm) with
  | ok s => exact ⟨pmm, s, hpmm, hrun⟩
  | error =>
    rw [hrun] at hok
    cases hok

theorem onePage_valid (gfp : BitVec 32) (s : Sys) : Along Action.Valid (onePage gfp) s :=
  ⟨trivial, fun _ _ => ⟨trivial, fun _ _ => trivial⟩⟩

/-- The fault a run ends in. -/
def fault? : Except Fault Sys → Option Fault
  | .error f => some f
  | .ok _ => none

/-- A movable page from memory that is all unmovable and smaller than a pageblock: the refill
steals, and the page it hands out fails the check of its class. -/
theorem eightPages_movable_faults : ∃ pmm, eightPages = .ok (.ok pmm) ∧
    Along Action.Valid (onePage 0x8) (start pmm) ∧
    run (onePage 0x8) (start pmm) = .error (.kassert "pmm pcp page wrong migratetype") := by
  obtain ⟨pmm, hpmm⟩ := eightPages_ok
  have hcrash : eightPagesPmm?.map (fun pmm => fault? (run (onePage 0x8) (start pmm))) =
      some (some (.kassert "pmm pcp page wrong migratetype")) := by
    decide +kernel
  refine ⟨pmm, hpmm, onePage_valid _ _, ?_⟩
  rw [eightPages_eq hpmm] at hcrash
  cases hrun : run (onePage 0x8) (start pmm) with
  | ok =>
    rw [Option.map_some, hrun] at hcrash
    cases hcrash
  | error =>
    rw [Option.map_some, hrun] at hcrash
    exact congrArg Except.error (Option.some.inj (Option.some.inj hcrash))

/-- An unmovable page from the same memory. -/
theorem eightPages_unmovable_passes : ∃ pmm, eightPages = .ok (.ok pmm) ∧
    ∀ msg, run (onePage 0) (start pmm) ≠ .error (.kassert msg) := by
  obtain ⟨pmm, hpmm⟩ := eightPages_ok
  have hsafe : (eightPagesPmm?.any fun pmm => pmm.attemptSafe 0 .normal .low .unmovable
      ⟨fun _ => ⟨0, by decide⟩, fun _ => ⟨0, by decide⟩⟩) = true := by
    decide +kernel
  rw [eightPages_eq hpmm] at hsafe
  refine ⟨pmm, hpmm, (no_kassert_iff_safe hpmm (onePage_valid _ _)).mpr
    ⟨trivial, fun s' hs' => ⟨?_, fun _ _ => trivial⟩⟩⟩
  obtain rfl : { start pmm with calls := [⟨0, .normal, .unmovable, false, false, .fast⟩] } = s' :=
    Except.ok.inj hs'
  intro c hc wmark hw
  obtain rfl : (⟨0, .normal, .unmovable, false, false, .fast⟩ : Pending) = c := by simpa using hc
  obtain rfl : AllocWmark.low = wmark := by simpa [Pending.attemptMark] using hw
  exact hsafe

end Sys

end Oxide.Buddy
