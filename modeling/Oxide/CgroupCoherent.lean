/-
Membership along runs.

Tasks that ran before the hierarchy was mounted are not recorded and count as members of the root.
A process whose threads are all recorded moves with all of them and leaves with the last; where a
thread is not recorded, the calls that go by the records miss it.

* `CgWorld.Inv`: the invariant, with one lemma for each kind of call;
* `CgWorld.coherent_of_tracked`: in every run in which the processes that move or exit and the
  tasks that start threads are recorded, membership is coherent;
* `CgWorld.untracked_apart`: a process moves without its thread.
-/
import Oxide.CgroupMembership
import Oxide.Runs

namespace Oxide

open OrdMap List

variable {n : CgNode} {t' : CgTree} {tasks' : OrdMap ℕ ℕ} {cgid g i id parent pid tid : ℕ}

namespace CgTree

variable {t t' : CgTree} {cgid pid tid g k : ℕ} {tasks tasks' : OrdMap ℕ ℕ}
  {prepared : List PreparedFork} {f : PreparedFork}

/-! ### Forks under way -/

/-- The forks under way that hold a node. -/
def holding (prepared : List PreparedFork) (k : ℕ) : ℕ := prepared.countP fun f => f.cgid = k

/-- **Each node counts the forks that hold it**, and a thread is only started where its process
is. -/
structure Held (t : CgTree) (tasks : OrdMap ℕ ℕ) (prepared : List PreparedFork) : Prop where
  pins : ∀ k n, t.nodes.get? k = some n →
    n.pendingForks = holding prepared k ∧ n.forkPins = holding prepared k
  live : ∀ f ∈ prepared, ∃ n, t.nodes.get? f.cgid = some n
  home : ∀ f ∈ prepared, f.thread = true → ∃ g, tasks.get? f.parent = some g ∧ f.cgid = t.leaderCg g

/-- The nodes count what they counted, and no process with a fork under way moves. -/
theorem Held.of_stems (h : Held t tasks prepared)
    (hst : Stems (fun n => (n.pendingForks, n.forkPins)) t t')
    (hlive : ∀ f ∈ prepared, ∃ n, t'.nodes.get? f.cgid = some n)
    (hhome : ∀ f ∈ prepared, ∀ g, tasks.get? f.parent = some g →
      tasks'.get? f.parent = some g ∧ t'.leaderCg g = t.leaderCg g) : Held t' tasks' prepared := by
  refine ⟨fun k n' hn' => ?_, hlive, fun f hf hthread => ?_⟩
  · rcases hst k n' hn' with ⟨n, hn, heq⟩ | ⟨hnone, _, _, _, rfl⟩
    · obtain ⟨hpend, hpins⟩ := Prod.mk.inj heq
      rw [hpend, hpins]
      exact h.pins k n hn
    -- no fork holds a new node
    have hzero : holding prepared k = 0 := by
      refine countP_eq_zero.mpr fun f hf => ?_
      rw [decide_eq_true_iff]
      rintro rfl
      obtain ⟨n, hn⟩ := h.live f hf
      cases hnone.symm.trans hn
    exact ⟨hzero.symm, hzero.symm⟩
  · obtain ⟨g, hg, hcg⟩ := h.home f hf hthread
    obtain ⟨hg', hl⟩ := hhome f hf g hg
    exact ⟨g, hg', hcg.trans hl.symm⟩

theorem Held.of_keeps (h : Held t tasks prepared)
    (hk : Keeps (fun n => (n.pendingForks, n.forkPins)) t t')
    (hhome : ∀ f ∈ prepared, ∀ g, tasks.get? f.parent = some g →
      tasks'.get? f.parent = some g ∧ t'.leaderCg g = t.leaderCg g) : Held t' tasks' prepared :=
  h.of_stems hk.stems (fun f hf => hk.there (h.live f hf)) hhome

theorem holding_cons (f : PreparedFork) (prepared : List PreparedFork) (k : ℕ) :
    holding (f :: prepared) k = holding prepared k + if f.cgid = k then 1 else 0 := by
  unfold holding
  rw [countP_cons]
  simp only [decide_eq_true_eq]

theorem holding_eraseIdx (hf : prepared[i]? = some f) (k : ℕ) :
    holding prepared k = holding (prepared.eraseIdx i) k + if f.cgid = k then 1 else 0 := by
  obtain ⟨hi, rfl⟩ := List.getElem?_eq_some_iff.mp hf
  rw [← holding_cons]
  exact ((getElem_cons_eraseIdx_perm hi).countP_eq _).symm

/-- A fork under way has its reservation. -/
theorem Held.reserved (h : Held t tasks prepared) (hf : prepared[i]? = some f) :
    t.reserved f.cgid = true := by
  obtain ⟨n, hn⟩ := h.live f (mem_of_getElem? hf)
  obtain ⟨hpend, hpins⟩ := h.pins f.cgid n hn
  have hhold := holding_eraseIdx hf f.cgid
  rw [if_pos rfl] at hhold
  rw [CgTree.reserved, hn, Option.any_some, decide_eq_true_iff]
  omega

theorem holdFork_frame (t : CgTree) (cgid : ℕ) :
    Frame CgNode.withoutForks t (t.holdFork cgid) := Frame.modify t cgid fun _ => rfl

theorem Held.hold (h : Held t tasks prepared) (hn : t.nodes.get? f.cgid = some n)
    (hhome : f.thread = true → ∃ g, tasks.get? f.parent = some g ∧ f.cgid = t.leaderCg g) :
    Held (t.holdFork f.cgid) tasks (f :: prepared) := by
  have hfr := holdFork_frame t f.cgid
  constructor
  · intro k n' hn'
    rw [holding_cons]
    unfold holdFork at hn'
    rw [modify_get?] at hn'
    split_ifs at hn' with hkf
    · obtain ⟨m, hm, rfl⟩ := Option.map_eq_some_iff.mp hn'
      obtain ⟨hpend, hpins⟩ := h.pins k m hm
      rw [if_pos hkf.symm]
      exact ⟨congrArg (· + 1) hpend, congrArg (· + 1) hpins⟩
    rw [if_neg (Ne.symm hkf)]
    exact h.pins k n' hn'
  · intro f' hf'
    rcases mem_cons.mp hf' with rfl | hf'
    · exact hfr.nodes.there ⟨n, hn⟩
    · exact hfr.nodes.there (h.live f' hf')
  intro f' hf' hthread
  unfold leaderCg
  rw [hfr.procCg]
  rcases mem_cons.mp hf' with rfl | hf'
  · exact hhome hthread
  · exact h.home f' hf' hthread

theorem releaseFork_frame (t : CgTree) (cgid : ℕ) :
    Frame CgNode.withoutForks t (t.releaseFork cgid) := Frame.modify t cgid fun _ => rfl

theorem Held.release (h : Held t tasks prepared) (hf : prepared[i]? = some f) :
    Held (t.releaseFork f.cgid) tasks (prepared.eraseIdx i) := by
  have hfr := releaseFork_frame t f.cgid
  constructor
  · intro k n' hn'
    have hhold := holding_eraseIdx hf k
    unfold releaseFork at hn'
    rw [modify_get?] at hn'
    split_ifs at hn' with hkf
    · obtain ⟨n, hn, rfl⟩ := Option.map_eq_some_iff.mp hn'
      obtain ⟨hpend, hpins⟩ := h.pins k n hn
      rw [if_pos hkf.symm] at hhold
      show n.pendingForks - 1 = _ ∧ n.forkPins - 1 = _
      omega
    rw [if_neg (Ne.symm hkf)] at hhold
    obtain ⟨hpend, hpins⟩ := h.pins k n' hn'
    exact ⟨hpend.trans hhold, hpins.trans hhold⟩
  · exact fun f' hf' => hfr.nodes.there (h.live f' (mem_of_mem_eraseIdx hf'))
  · intro f' hf' hthread
    obtain ⟨g, hg, hcg⟩ := h.home f' (mem_of_mem_eraseIdx hf') hthread
    exact ⟨g, hg, hcg.trans (leaderCg_congr hfr.procCg g).symm⟩

/-! ### What calls besides keep of the membership -/

/-- The members of the nodes and the indices are the same, and no node with members is gone. -/
theorem Counted.of_stems (h : t.Counted) (hst : Stems (fun n => (n.procs, n.threads)) t t')
    (hs : SameIndices t t')
    (hproc : ∀ p k, t.procCg.get? p = some k → ∃ n, t'.nodes.get? k = some n)
    (hthread : ∀ u x, t.threadCg.get? u = some x → ∃ n, t'.nodes.get? x.2 = some n) :
    t'.Counted := by
  rw [← hs.procCg] at hproc
  rw [← hs.threadCg] at hthread
  refine ⟨fun k n' hn' p => ?_, fun k n' hn' => ?_, hproc, hthread⟩
  · rw [hs.procCg]
    rcases hst k n' hn' with ⟨n, hn, heq⟩ | ⟨hnone, _, _, _, rfl⟩
    · rw [(Prod.mk.inj heq).1]
      exact h.procs k n hn p
    refine iff_of_false (Finset.notMem_empty p) fun hpk => ?_
    obtain ⟨n, hn⟩ := h.procNode p k hpk
    cases hnone.symm.trans hn
  · rw [hs.threadCg]
    rcases hst k n' hn' with ⟨n, hn, heq⟩ | ⟨hnone, _, _, _, rfl⟩
    · rw [(Prod.mk.inj heq).2]
      exact h.threads k n hn
    refine (total_eq_zero fun u x hx => ?_).symm
    rw [inNode, if_neg ?_]
    rintro rfl
    obtain ⟨n, hn⟩ := h.threadNode u x hx
    cases hnone.symm.trans hn

theorem Counted.leader_there (h : t.Counted) (hf : t.Formed) (g : ℕ) :
    ∃ n, t.nodes.get? (t.leaderCg g) = some n := by
  unfold leaderCg
  cases hg : t.procCg.get? g with
  | none =>
    obtain ⟨n, hn, -⟩ := hf.root
    exact ⟨n, hn⟩
  | some k => exact h.procNode g k hg

/-- What a directory that may be removed does not have. -/
theorem idle_of_not_busy (h : t.busy id n = false) :
    n.procs = ∅ ∧ n.threads = 0 ∧ n.forkPins = 0 ∧ n.memory.total = 0 ∧ n.swapCurrent = 0 := by
  unfold busy at h
  simp only [Bool.or_eq_false_iff, decide_eq_false_iff_not, not_not] at h
  obtain ⟨⟨⟨⟨⟨-, hp⟩, ht⟩, hf⟩, hm⟩, hs⟩ := h
  exact ⟨hp, ht, hf, hm, hs⟩

section

variable (hr : Removed t t' id n) (h : t.Counted) (hh : Held t tasks prepared)

include hr h hh

/-- No member of a removed directory is recorded, and no fork holds it. -/
theorem Removed.unused :
    (∀ p, t.procCg.get? p ≠ some id) ∧ (∀ u x, t.threadCg.get? u = some x → x.2 ≠ id) ∧
      ∀ f ∈ prepared, f.cgid ≠ id := by
  obtain ⟨hprocs, hthreads, hpins, -, -⟩ := idle_of_not_busy hr.idle
  refine ⟨fun p hp => ?_, fun u x hx hid => ?_, fun f hf hid => ?_⟩
  · have hmem := (h.procs id n hr.there p).mpr hp
    rw [hprocs] at hmem
    exact Finset.notMem_empty p hmem
  · have hcount := h.threads id n hr.there
    rw [hthreads] at hcount
    have hzero := eq_zero_of_total hcount.symm hx
    unfold inNode at hzero
    rw [if_pos hid] at hzero
    cases hzero
  · have hhold := (hh.pins id n hr.there).2
    rw [hpins] at hhold
    exact absurd (decide_eq_true hid) (countP_eq_zero.mp hhold.symm f hf)

theorem Counted.removed : t'.Counted := by
  obtain ⟨hproc, hthread, -⟩ := hr.unused h hh
  exact h.of_stems (hr.stems fun _ _ => rfl) hr.rest
    (fun p k hpk => hr.remains (fun hk => hproc p (hk ▸ hpk)) (h.procNode p k hpk))
    fun u x hx => hr.remains (hthread u x hx) (h.threadNode u x hx)

theorem Held.removed : Held t' tasks prepared := by
  obtain ⟨-, -, hfork⟩ := hr.unused h hh
  exact hh.of_stems (hr.stems fun _ _ => rfl) (fun f hf => hr.remains (hfork f hf) (hh.live f hf))
    fun _ _ g hu => ⟨hu, leaderCg_congr hr.rest.procCg g⟩

end

end CgTree

namespace CgWorld

open CgTree

variable {w : CgWorld}

/-! ### The invariant -/

theorem alive_iff (w : CgWorld) (p : ℕ) : w.alive p = true ↔ ∃ u, w.tasks.get? u = some p := by
  rw [alive, any_eq_true]
  constructor
  · rintro ⟨g, hg, hgp⟩
    obtain ⟨u, hu⟩ := mem_values_iff.mp hg
    exact ⟨u, of_decide_eq_true hgp ▸ hu⟩
  · rintro ⟨u, hu⟩
    exact ⟨p, mem_values_iff.mpr ⟨u, hu⟩, decide_eq_true rfl⟩

theorem fresh_iff (w : CgWorld) (p : ℕ) :
    w.fresh p = true ↔ w.tasks.get? p = none ∧ ∀ u, w.tasks.get? u ≠ some p := by
  rw [fresh, Bool.and_eq_true, Option.isNone_iff_eq_none, Bool.not_eq_true', Bool.eq_false_iff,
    ne_eq, alive_iff, not_exists]

structure Inv (w : CgWorld) : Prop where
  formed : w.tree.Formed
  mounted : w.tree.mounted = true
  counted : w.tree.Counted
  grouped : w.tree.Grouped w.tasks
  held : Held w.tree w.tasks w.prepared
  calm : w.panicked = false

/-- The task is the leader of its process, or its thread is recorded. -/
def Tracked (w : CgWorld) (u : ℕ) : Prop :=
  ∀ g, w.tasks.get? u = some g → u = g ∨ w.tree.threadCg.get? u ≠ none

/-- Every task is a leader or recorded. -/
def allTracked (w : CgWorld) : Bool :=
  w.tasks.entries.all fun e => e.1 = e.2 || (w.tree.threadCg.get? e.1).isSome

theorem tracked_of_all (h : w.allTracked = true) (u : ℕ) : w.Tracked u := by
  intro g hu
  have hmem := all_eq_true.mp h (u, g) (get?_eq_some_iff_mem.mp hu)
  rwa [Bool.or_eq_true, decide_eq_true_iff, Option.isSome_iff_ne_none] at hmem

/-- A call that leaves membership alone. -/
theorem Inv.of_rest (h : Inv w) {F : CgNode → CgNode} (hf : Frame F w.tree t')
    (hF : ∀ n, (F n).shape = n.shape ∧ (F n).procs = n.procs ∧ (F n).threads = n.threads)
    {prepared : List PreparedFork} (hheld : Held t' w.tasks prepared) {memory : List Charge}
    {swap : List (ℕ × ℕ)} : Inv ⟨t', w.tasks, prepared, memory, swap, w.panicked⟩ := by
  have hshape : Keeps CgNode.shape w.tree t' := hf.nodes.proj _ fun n => (hF n).1.symm
  have hmembers : Keeps (fun n => (n.procs, n.threads)) w.tree t' :=
    hf.nodes.proj (fun n => (n.procs, n.threads)) fun n => by rw [(hF n).2.1, (hF n).2.2]
  exact ⟨hshape.formed hf.nextId h.formed, hf.mounted.trans h.mounted,
    h.counted.of_stems hmembers.stems hf.toSameIndices
      (fun p k hp => hmembers.there (h.counted.procNode p k hp))
      fun u x hx => hmembers.there (h.counted.threadNode u x hx),
    h.grouped.congr hf.toSameIndices, hheld, h.calm⟩

theorem Inv.release (h : Inv w) {f : PreparedFork} (hf : w.prepared[i]? = some f) :
    Inv { w with tree := w.tree.releaseFork f.cgid, prepared := w.prepared.eraseIdx i } :=
  h.of_rest (releaseFork_frame w.tree f.cgid) (fun _ => ⟨rfl, rfl, rfl⟩) (h.held.release hf)

/-- Tasks come, go or move, but for those with a fork under way. -/
theorem Inv.of_frame (h : Inv w) (hf : TaskFrame w.tree t') (hc : t'.Counted)
    (hg : t'.Grouped tasks')
    (hhome : ∀ f ∈ w.prepared, ∀ g, w.tasks.get? f.parent = some g →
      tasks'.get? f.parent = some g ∧ t'.leaderCg g = w.tree.leaderCg g) :
    Inv { w with tree := t', tasks := tasks' } :=
  ⟨Keeps.formed (hf.nodes.proj CgNode.shape fun _ => rfl) hf.nextId h.formed,
    hf.mounted.trans h.mounted, hc, hg,
    h.held.of_keeps (hf.nodes.proj (fun n => (n.pendingForks, n.forkPins)) fun _ => rfl) hhome,
    h.calm⟩

/-! ### One lemma for each kind of call -/

/-- No process leaves its node. -/
def Stays (w w' : CgWorld) : Prop :=
  ∀ p, w.tree.procCg.get? p ≠ none → w'.tree.procCg.get? p ≠ none

variable {w' : CgWorld}

theorem Stays.of_eq (h : w'.tree.procCg = w.tree.procCg) : Stays w w' := by
  intro p hp
  rwa [h]

theorem Stays.joined (hj : Joined w.tree w'.tree cgid pid) : Stays w w' := by
  intro p hp
  rw [hj.procCg, get?_insert]
  split
  · rintro ⟨⟩
  · exact hp

section

variable (h : Inv w)
include h

theorem Inv.same : Inv w ∧ Stays w w := ⟨h, Stays.of_eq rfl⟩

theorem Inv.joined (hok : w.tree.addProc cgid pid = .ok t') : Joined w.tree t' cgid pid := by
  refine addProc_eq_ok h.counted (fun u x hx hxp => ?_) hok
  rw [← hxp]
  exact (h.grouped.thread u x hx).2.2

/-- A new process joins a node. -/
theorem Inv.spawn (hj : Joined w.tree t' cgid pid) (hfresh : w.fresh pid = true) :
    Inv { w with tree := t', tasks := w.tasks.insert pid pid } := by
  obtain ⟨hnone, hnew⟩ := (w.fresh_iff pid).mp hfresh
  refine h.of_frame hj.frame hj.counted (h.grouped.spawn hj hnone hnew)
    fun f _ g hu => ⟨(get?_insert_fresh pid hnone hu).1, ?_⟩
  rw [hj.leaderCg, if_neg ?_]
  rintro rfl
  exact hnew f.parent hu

theorem Inv.addProc (htr : ∀ u, w.tasks.get? u = some pid → w.Tracked u) :
    Inv (w.onAddProc cgid pid) ∧ Stays w (w.onAddProc cgid pid) := by
  unfold onAddProc
  split
  case isTrue hmay =>
    cases hok : w.tree.addProc cgid pid with
    | error => exact h.same
    | ok =>
    have hj := h.joined hok
    refine ⟨?_, Stays.joined hj⟩
    by_cases hfresh : w.fresh pid = true
    · rw [if_pos hfresh]
      exact h.spawn hj hfresh
    rw [if_neg hfresh]
    rw [Bool.or_eq_true, or_iff_right hfresh, Bool.and_eq_true, List.isEmpty_iff, alive_iff] at hmay
    refine h.of_frame hj.frame hj.counted (h.grouped.move hj hmay.2 fun u hu hne => ?_) ?_
    · exact (htr u hu pid hu).resolve_left hne
    · rw [hmay.1]
      exact nofun
  · exact h.same

/-- No thread has the id of a task that is to come. -/
theorem Inv.unused (hfresh : w.fresh tid = true) : w.tree.threadCg.get? tid = none := by
  cases hx : w.tree.threadCg.get? tid with
  | none => rfl
  | some x =>
    have hnone := ((w.fresh_iff tid).mp hfresh).1
    exact absurd (hnone.symm.trans (h.grouped.thread tid x hx).1) nofun

/-- A new thread is recorded with the leader and the node of its process. -/
theorem Inv.newThread (hparent : w.tasks.get? parent = some g) (hfresh : w.fresh tid = true) :
    Inv { w with
      tree := w.tree.recordThread tid (g, w.tree.leaderCg g)
      tasks := w.tasks.insert tid g } := by
  obtain ⟨hnone, hnew⟩ := (w.fresh_iff tid).mp hfresh
  have hs := recordThread_reseats w.tree tid (g, w.tree.leaderCg g)
  obtain ⟨n, hn⟩ := h.counted.leader_there h.formed g
  refine h.of_frame hs.task (h.counted.insertThread (h.unused hfresh) hn)
    (h.grouped.newThread hparent hnone hnew hs.procCg hs.threadCg hs.exited) fun f _ q hu => ?_
  exact ⟨(get?_insert_fresh g hnone hu).1, leaderCg_congr (by exact hs.procCg) q⟩

/-- A new thread inherits from a task that is recorded the leader and the node of its process. -/
theorem threadHome_eq (hparent : w.tasks.get? parent = some g) (htr : w.Tracked parent) :
    w.tree.threadHome parent = (g, w.tree.leaderCg g) := by
  unfold threadHome
  split
  case h_1 cg hcg =>
    have hpg : parent = g := by
      by_contra hne
      rw [h.grouped.thread_not_proc hparent hne] at hcg
      cases hcg
    rw [leaderCg, ← hpg, hcg, Option.getD_some]
  rename_i hnone
  split
  case h_1 x hx =>
    obtain ⟨hpx, -, hx2⟩ := h.grouped.thread parent x hx
    rw [Option.some.inj (hparent.symm.trans hpx), ← hx2]
  case h_2 hth =>
    have hpg := (htr g hparent).resolve_right (not_not.mpr hth)
    rw [leaderCg, ← hpg, hnone, Option.getD_none]

theorem Inv.addThread (htr : w.Tracked parent) :
    Inv (w.onAddThread parent tid) ∧ Stays w (w.onAddThread parent tid) := by
  unfold onAddThread
  split_ifs with hfresh
  · cases hparent : w.tasks.get? parent with
    | none => exact h.same
    | some g =>
    have heq : w.tree.addThread parent tid = w.tree.recordThread tid (g, w.tree.leaderCg g) := by
      rw [CgTree.addThread, if_neg (by rw [h.unused hfresh]; rintro ⟨⟩),
        threadHome_eq h hparent htr]
    rw [heq]
    exact ⟨h.newThread hparent hfresh, Stays.of_eq (recordThread_reseats ..).procCg⟩
  · exact h.same

theorem Inv.prepare (target : Option ℕ) (parent : ℕ) (thread : Bool) :
    Inv (w.onPrepare target parent thread) ∧ Stays w (w.onPrepare target parent thread) := by
  unfold onPrepare
  cases hparent : w.tasks.get? parent with
  | none => exact h.same
  | some g =>
  dsimp only
  split_ifs with hmay
  · exact h.same
  cases hok : w.tree.prepareFork (target.getD (w.tree.cgroupOf parent)) with
  | error => exact h.same
  | ok =>
  generalize hcg : target.getD (w.tree.cgroupOf parent) = cgid at *
  unfold prepareFork at hok
  rw [h.mounted, Bool.not_true, if_neg Bool.false_ne_true] at hok
  split at hok
  · cases hok
  rename_i hthere
  split at hok
  · cases hok
  cases hok
  have hfr := holdFork_frame w.tree cgid
  obtain ⟨n, hn⟩ : ∃ n, w.tree.nodes.get? cgid = some n :=
    Option.ne_none_iff_exists'.mp fun hnone => hthere (by rw [hnone]; rfl)
  refine ⟨h.of_rest hfr (fun _ => ⟨rfl, rfl, rfl⟩) ?_, Stays.of_eq hfr.procCg⟩
  refine h.held.hold (f := ⟨cgid, parent, thread, _⟩) hn fun hthread => ?_
  have hthread : thread = true := hthread
  rw [hthread, Bool.true_and, decide_eq_true_iff, not_not] at hmay
  exact ⟨g, hparent, hmay.trans (h.grouped.cgroupOf hparent)⟩

theorem Inv.cancel (i : ℕ) : Inv (w.onCancel i) ∧ Stays w (w.onCancel i) := by
  unfold onCancel
  cases hf : w.prepared[i]? with
  | none => exact h.same
  | some f =>
  have hok : w.tree.cancelFork f.cgid = some (w.tree.releaseFork f.cgid) := by
    rw [cancelFork, h.mounted, Bool.not_true, if_neg Bool.false_ne_true,
      if_pos (h.held.reserved hf)]
  dsimp only
  rw [hok]
  exact ⟨h.release hf, Stays.of_eq (releaseFork_frame _ _).procCg⟩

theorem Inv.commit {child : ℕ}
    (htr : ∀ f, w.prepared[i]? = some f → f.thread = true → w.Tracked f.parent) :
    Inv (w.onCommit i child) ∧ Stays w (w.onCommit i child) := by
  unfold onCommit
  cases hf : w.prepared[i]? with
  | none => exact h.same
  | some f =>
  dsimp only
  split
  case isTrue hfresh =>
    rw [commitFork, h.mounted, h.held.reserved hf]
    cases hthread : f.thread with
    | true =>
      obtain ⟨g, hparent, hcg⟩ := h.held.home f (mem_of_getElem? hf) hthread
      have hleader : ((w.tree.threadCg.get? f.parent).map Prod.fst).getD f.parent = g := by
        cases hx : w.tree.threadCg.get? f.parent with
        | none =>
          exact (htr f hf hthread g hparent).resolve_right (not_not.mpr hx)
        | some x =>
          exact Option.some.inj ((h.grouped.thread f.parent x hx).1.symm.trans hparent)
      have heq : w.tree.addThreadInto f.cgid f.parent child =
          w.tree.recordThread child (g, w.tree.leaderCg g) := by
        rw [addThreadInto, if_neg (by rw [h.unused hfresh]; rintro ⟨⟩), hleader, hcg]
      rw [hparent, heq]
      refine ⟨(h.newThread hparent hfresh).release hf, Stays.of_eq ?_⟩
      exact (releaseFork_frame _ _).procCg.trans (recordThread_reseats ..).procCg
    | false =>
    have hlive := h.held.live f (mem_of_getElem? hf)
    cases hok : w.tree.addProc f.cgid child with
    | error =>
      obtain ⟨n, hn⟩ := hlive
      unfold CgTree.addProc at hok
      rw [hn, if_neg nofun] at hok
      dsimp only at hok
      split at hok <;> cases hok
    | ok t' =>
      have hj := h.joined hok
      refine ⟨(h.spawn hj hfresh).release hf, fun p hp => ?_⟩
      have hstays : Stays w { w with tree := t' } := Stays.joined hj
      show ((t'.releaseFork f.cgid).procCg.get? p) ≠ none
      rw [(releaseFork_frame t' f.cgid).procCg]
      exact hstays p hp
  · exact h.same

theorem Inv.exited (htid : w.tasks.get? tid = some g)
    (htr : ∀ u, w.tasks.get? u = some g → w.Tracked u) :
    Exited w.tree (w.tree.exitTask tid g).1 w.tasks tid g (w.tree.exitTask tid g).2 :=
  exitTask_spec h.grouped h.counted htid fun u hu hne => (htr u hu g hu).resolve_left hne

theorem Inv.exit (htr : ∀ g u, w.tasks.get? tid = some g → w.tasks.get? u = some g → w.Tracked u) :
    Inv (w.onExit tid) := by
  unfold onExit
  split_ifs with hmay
  · cases htid : w.tasks.get? tid with
    | none => exact h
    | some g =>
    have hx := h.exited htid fun u hu => htr g u htid hu
    refine h.of_frame hx.frame hx.counted hx.grouped ?_
    rw [isEmpty_iff.mp hmay]
    exact nofun
  · exact h

/-- Charges leave the tasks and the forks alone. -/
theorem Inv.charged (hl : LedgerFrame w.tree t') (memory : List Charge) (swap : List (ℕ × ℕ)) :
    Inv ⟨t', w.tasks, w.prepared, memory, swap, w.panicked⟩ := by
  refine h.of_rest hl (fun _ => ⟨rfl, rfl, rfl⟩) ?_
  exact h.held.of_keeps (hl.nodes.proj (fun n => (n.pendingForks, n.forkPins)) fun _ => rfl)
    fun _ _ g hu => ⟨hu, leaderCg_congr hl.procCg g⟩

theorem Inv.chargeMemory (cgid : ℕ) (kind : MemoryKind) (bytes : ℕ) :
    Inv (w.onChargeMemory cgid kind bytes) ∧ Stays w (w.onChargeMemory cgid kind bytes) := by
  have hl := tryChargeMemoryTransition_frame w.tree cgid kind bytes
  unfold onChargeMemory
  split <;> case _ heq =>
    rw [heq] at hl
    exact ⟨h.charged hl _ _, Stays.of_eq hl.procCg⟩

theorem Inv.unchargeMemory (i : ℕ) :
    Inv (w.onUnchargeMemory i) ∧ Stays w (w.onUnchargeMemory i) := by
  unfold onUnchargeMemory
  split
  · exact h.same
  case h_2 c hc =>
    have hl := unchargeMemory_frame w.tree c.cgid c.kind c.bytes
    exact ⟨h.charged hl _ _, Stays.of_eq hl.procCg⟩

theorem Inv.chargeSwap (cgid bytes : ℕ) :
    Inv (w.onChargeSwap cgid bytes) ∧ Stays w (w.onChargeSwap cgid bytes) := by
  have hl := tryChargeSwap_frame w.tree cgid bytes
  unfold onChargeSwap
  split <;> case _ heq =>
    rw [heq] at hl
    exact ⟨h.charged hl _ _, Stays.of_eq hl.procCg⟩

theorem Inv.unchargeSwap (i : ℕ) : Inv (w.onUnchargeSwap i) ∧ Stays w (w.onUnchargeSwap i) := by
  unfold onUnchargeSwap
  split
  · exact h.same
  case h_2 c hc =>
    have hl := unchargeSwap_frame w.tree c.1 c.2
    exact ⟨h.charged hl _ _, Stays.of_eq hl.procCg⟩

theorem Inv.create (parent : ℕ) (name : String) :
    Inv (w.step (.create parent name)) ∧ Stays w (w.step (.create parent name)) := by
  dsimp only [step]
  cases hok : w.tree.create parent name with
  | error => exact h.same
  | ok =>
  have hc := create_eq_ok h.formed hok
  have hs := hc.rest
  have hcounted := h.counted.of_stems (hc.stems h.formed fun _ _ => rfl) hs
    (fun p k hp => hc.there h.formed (h.counted.procNode p k hp))
    fun u x hx => hc.there h.formed (h.counted.threadNode u x hx)
  have hheld := h.held.of_stems (hc.stems h.formed fun _ _ => rfl)
    (fun f hf => hc.there h.formed (h.held.live f hf))
    fun _ _ g hu => ⟨hu, leaderCg_congr hs.procCg g⟩
  exact ⟨⟨hc.formed h.formed, hs.mounted.trans h.mounted, hcounted, h.grouped.congr hs, hheld,
    h.calm⟩, Stays.of_eq hs.procCg⟩

theorem Inv.remove (id : ℕ) : Inv (w.step (.remove id)) ∧ Stays w (w.step (.remove id)) := by
  dsimp only [step]
  cases hok : w.tree.remove id with
  | error => exact h.same
  | ok =>
  obtain ⟨n, hr⟩ := remove_eq_ok hok
  have hs := hr.rest
  exact ⟨⟨hr.formed h.formed, hs.mounted.trans h.mounted, h.counted.removed hr h.held,
    h.grouped.congr hs, h.held.removed hr h.counted, h.calm⟩, Stays.of_eq hs.procCg⟩

end

/-! ### What membership is to be -/

/-- **Membership is coherent.** Every task is in exactly one node, which is there, the node of its
process; the sets and counts of the nodes are those of the indices, and the indices are of tasks
alive; and each node counts the forks that hold it. -/
structure Coherent (w : CgWorld) : Prop where
  placed : ∀ u g, w.tasks.get? u = some g → ∃ n, w.tree.nodes.get? (w.tree.cgroupOf u) = some n
  once : ∀ u, w.tree.procCg.get? u = none ∨ w.tree.threadCg.get? u = none
  counted : w.tree.Counted
  together : ∀ u g, w.tasks.get? u = some g → w.tree.cgroupOf u = w.tree.cgroupOf g
  procs : ∀ p k, w.tree.procCg.get? p = some k → ∃ u, w.tasks.get? u = some p
  threads : ∀ u x, w.tree.threadCg.get? u = some x → w.tasks.get? u = some x.1
  pins : ∀ k n, w.tree.nodes.get? k = some n → n.forkPins = holding w.prepared k
  calm : w.panicked = false

theorem Inv.coherent (h : Inv w) : Coherent w := by
  have hplace := fun u g (hu : w.tasks.get? u = some g) => h.grouped.cgroupOf hu
  constructor
  · intro u g hu
    rw [hplace u g hu]
    exact h.counted.leader_there h.formed g
  · intro u
    cases hx : w.tree.threadCg.get? u with
    | none => exact .inr rfl
    | some x =>
      obtain ⟨hu, hne, -⟩ := h.grouped.thread u x hx
      exact .inl (h.grouped.thread_not_proc hu hne)
  · exact h.counted
  · intro u g hu
    rw [hplace u g hu]
    unfold cgroupOf leaderCg
    -- the leader may be gone; it is no thread in either case
    have hth : w.tree.threadCg.get? g = none := by
      cases hx : w.tree.threadCg.get? g with
      | none => rfl
      | some x =>
        obtain ⟨hg, hne, -⟩ := h.grouped.thread g x hx
        exact absurd (h.grouped.leaders u g x.1 hu hg).symm hne
    rw [hth]
    cases w.tree.procCg.get? g <;> rfl
  · exact h.grouped.proc
  · exact fun u x hx => (h.grouped.thread u x hx).1
  · exact fun k n hn => (h.held.pins k n hn).2
  · exact h.calm

/-- The event is the exit of the last task of a process. -/
def LastExit (w : CgWorld) (e : CgEvent) (p : ℕ) : Prop :=
  ∃ tid, e = .exit tid ∧ w.prepared = [] ∧ w.tasks.get? tid = some p ∧
    ∀ u, w.tasks.get? u = some p → u = tid

/-- What a call has to observe: a process leaves its node exactly with its last task, no count is
taken below zero, and no node is removed that has a member, a fork or a charge. -/
structure Sound (w : CgWorld) (e : CgEvent) : Prop where
  leaves : ∀ p, w.tree.procCg.get? p ≠ none →
    ((w.step e).tree.procCg.get? p = none ↔ w.LastExit e p)
  moved : ∀ cgid pid, e = .addProc cgid pid →
    ∀ n, w.tree.nodes.get? (w.tree.leaderCg pid) = some n →
    w.tree.movedThreads cgid pid ≤ n.threads
  thread : ∀ tid, e = .exit tid → ∀ x n, w.tree.threadCg.get? tid = some x →
    w.tree.nodes.get? x.2 = some n → 1 ≤ n.threads
  fork : ∀ k child, e = .commit k child ∨ e = .cancel k → ∀ f n, w.prepared[k]? = some f →
    w.tree.nodes.get? f.cgid = some n → 1 ≤ n.pendingForks ∧ 1 ≤ n.forkPins
  removed : ∀ id t', e = .remove id → w.tree.remove id = .ok t' →
    (∀ u g, w.tasks.get? u = some g → w.tree.cgroupOf u ≠ id) ∧ (∀ f ∈ w.prepared, f.cgid ≠ id) ∧
      ∀ n, w.tree.nodes.get? id = some n → n.memory.total = 0 ∧ n.swapCurrent = 0

/-- The processes that move or exit, and the tasks that start threads, are recorded. -/
def Careful (w : CgWorld) : CgEvent → Prop
  | .addProc _ pid => ∀ u, w.tasks.get? u = some pid → w.Tracked u
  | .addThread parent _ => w.Tracked parent
  | .commit k _ => ∀ f, w.prepared[k]? = some f → f.thread = true → w.Tracked f.parent
  | .exit tid => ∀ g u, w.tasks.get? tid = some g → w.tasks.get? u = some g → w.Tracked u
  | _ => True

variable {e : CgEvent}

theorem Inv.step (h : Inv w) (hc : w.Careful e) :
    Inv (w.step e) ∧ ((∀ tid, e ≠ .exit tid) → Stays w (w.step e)) := by
  have hall : ∀ {p q r : Prop}, p ∧ r → p ∧ (q → r) := fun h => h.imp_right fun hr _ => hr
  cases e with
  | create => exact hall (h.create ..)
  | remove id => exact hall (h.remove id)
  | addProc => exact hall (h.addProc hc)
  | addThread => exact hall (h.addThread hc)
  | prepare => exact hall (h.prepare ..)
  | commit => exact hall (h.commit hc)
  | cancel k => exact hall (h.cancel k)
  | exit tid => exact ⟨h.exit hc, fun hno => absurd rfl (hno tid)⟩
  | chargeMemory cgid kind => exact hall (h.chargeMemory cgid kind _)
  | unchargeMemory k => exact hall (h.unchargeMemory k)
  | chargeSwap cgid => exact hall (h.chargeSwap cgid _)
  | unchargeSwap k => exact hall (h.unchargeSwap k)

/-- A process leaves its node exactly with its last task. -/
theorem Inv.leaves (h : Inv w) (hc : w.Careful e) (p : ℕ) (hp : w.tree.procCg.get? p ≠ none) :
    (w.step e).tree.procCg.get? p = none ↔ w.LastExit e p := by
  by_cases hexit : ∃ tid, e = .exit tid
  · obtain ⟨tid, rfl⟩ := hexit
    dsimp only [CgWorld.step]
    unfold onExit
    -- the exit waits, or is of no task
    have hnot : (w.prepared = [] → ∀ g, w.tasks.get? tid = some g → False) →
        (w.tree.procCg.get? p = none ↔ w.LastExit (.exit tid) p) := by
      intro hno
      refine iff_of_false hp ?_
      rintro ⟨tid', heq, hnone, htid, -⟩
      cases heq
      exact hno hnone p htid
    split_ifs with hmay
    · cases htid : w.tasks.get? tid with
      | none => exact hnot fun _ g hg => by rw [htid] at hg; cases hg
      | some g =>
      have hx := h.exited htid fun u hu => hc g u htid hu
      rw [hx.procCg]
      constructor
      · intro hnone
        split at hnone
        case isTrue hlast =>
          obtain ⟨hlast, rfl⟩ := hlast
          exact ⟨tid, rfl, isEmpty_iff.mp hmay, htid, hx.left_iff.mp hlast⟩
        · exact absurd hnone hp
      rintro ⟨tid', heq, -, htid', hlast⟩
      cases heq
      cases htid.symm.trans htid'
      exact if_pos ⟨hx.left_iff.mpr hlast, rfl⟩
    · exact hnot fun hnone => absurd (isEmpty_iff.mpr hnone) hmay
  · have hne : ∀ tid, e ≠ .exit tid := fun tid heq => hexit ⟨tid, heq⟩
    refine iff_of_false ((h.step hc).2 hne p hp) ?_
    rintro ⟨tid, heq, -⟩
    exact hne tid heq

/-- The threads that follow a process are counted where they are. -/
theorem Inv.moved_le (h : Inv w) (cgid pid : ℕ)
    (hn : w.tree.nodes.get? (w.tree.leaderCg pid) = some n) :
    w.tree.movedThreads cgid pid ≤ n.threads := by
  rw [h.counted.threads _ n hn]
  refine total_le fun u x hx => ?_
  split_ifs with hmv
  · obtain ⟨hxp, -⟩ := of_decide_eq_true hmv
    rw [inNode, if_pos ?_]
    rw [← hxp]
    exact (h.grouped.thread u x hx).2.2
  · exact Nat.zero_le _

theorem Inv.sound (h : Inv w) (hc : w.Careful e) : Sound w e := by
  constructor
  · exact h.leaves hc
  · intro cgid pid _ n hn
    exact h.moved_le cgid pid hn
  · intro tid _ x n hx hn
    have hcount := total_erase (inNode x.2) hx
    rw [← h.counted.threads x.2 n hn] at hcount
    have hone : inNode x.2 x = 1 := if_pos rfl
    omega
  · intro k child _ f n hf hn
    have hres := h.held.reserved hf
    unfold reserved at hres
    rw [hn, Option.any_some, decide_eq_true_iff] at hres
    omega
  intro id t' _ hok
  obtain ⟨n, hr⟩ := remove_eq_ok hok
  obtain ⟨hproc, hthread, hfork⟩ := hr.unused h.counted h.held
  refine ⟨fun u g hu hid => ?_, hfork, fun m hm => ?_⟩
  · rw [h.grouped.cgroupOf hu] at hid
    unfold leaderCg at hid
    cases hg : w.tree.procCg.get? g with
    | none =>
      rw [hg] at hid
      exact hr.not_root hid.symm
    | some =>
      rw [hg] at hid
      exact hproc g (hid ▸ hg)
  · cases hr.there.symm.trans hm
    exact (idle_of_not_busy hr.idle).2.2.2

/-! ### Runs -/

/-- The hierarchy is mounted while some tasks run. -/
structure Start (w : CgWorld) : Prop where
  tree : w.tree = CgTree.empty.mountRoot
  leaders : ∀ u g g', w.tasks.get? u = some g → w.tasks.get? g = some g' → g' = g
  prepared : w.prepared = []
  memory : w.memory = []
  swap : w.swap = []
  panicked : w.panicked = false

/-- The mounted hierarchy has the root only. -/
theorem mountRoot_get? (k : ℕ) : CgTree.empty.mountRoot.nodes.get? k =
    if k = ROOT then some (.new "" none ALL) else none :=
  get?_insert ..

theorem Start.inv (h : Start w) : Inv w := by
  have hroot : ∀ {k n}, w.tree.nodes.get? k = some n → k = ROOT ∧ n = .new "" none ALL := by
    intro k n hn
    rw [h.tree, mountRoot_get?] at hn
    split at hn
    case isTrue hk =>
      cases hn
      exact ⟨hk, rfl⟩
    · cases hn
  have hproc : w.tree.procCg = .empty := by rw [h.tree]; rfl
  have hthread : w.tree.threadCg = .empty := by rw [h.tree]; rfl
  have hexited : w.tree.exitedProcs = ∅ := by rw [h.tree]; rfl
  constructor
  · constructor
    · refine ⟨.new "" none ALL, ?_, rfl⟩
      rw [h.tree, mountRoot_get?, if_pos rfl]
    · intro id n p hn hp
      obtain ⟨-, rfl⟩ := hroot hn
      cases hp
    · intro id n name c hn hc
      obtain ⟨-, rfl⟩ := hroot hn
      cases hc
    · exact fun id n hn _ => (hroot hn).1
    · intro id n hn
      rw [(hroot hn).1, h.tree]
      exact Nat.lt_succ_self ROOT
  · rw [h.tree]
    rfl
  · constructor
    · intro k n hn p
      obtain ⟨-, rfl⟩ := hroot hn
      rw [hproc]
      exact iff_of_false (Finset.notMem_empty p) (by simp)
    · intro k n hn
      obtain ⟨-, rfl⟩ := hroot hn
      rw [hthread]
      rfl
    · intro p k hp
      simp [hproc] at hp
    · intro u x hx
      simp [hthread] at hx
  · constructor
    · exact h.leaders
    · intro u x hx
      simp [hthread] at hx
    · intro p k hp
      simp [hproc] at hp
    · intro u g _ _ _
      rw [leaderCg, hproc]
      rfl
    · intro g hg
      rw [hexited] at hg
      exact absurd hg (Finset.notMem_empty g)
    intro u g hu hg
    refine .inr ⟨u, hu, ?_, by rw [hthread]; rfl⟩
    rintro rfl
    cases hg.symm.trans hu
  · rw [h.prepared]
    refine ⟨fun k n hn => ?_, by simp, by simp⟩
    obtain ⟨-, rfl⟩ := hroot hn
    exact ⟨rfl, rfl⟩
  · exact h.panicked

/-- **Membership is coherent in every run in which the processes that move or exit, and the tasks
that start threads, are recorded.** -/
theorem coherent_of_tracked (es : List CgEvent) (h : Start w)
    (hrun : Run.Meets CgWorld.step Careful w es) :
    Run.Always CgWorld.step Coherent w es ∧ Run.Meets CgWorld.step Sound w es := by
  have hstep : ∀ w e, Inv w → Careful w e → Inv (CgWorld.step w e) :=
    fun w e hw hc => (hw.step hc).1
  exact ⟨hrun.always hstep h.inv fun w hw => hw.coherent,
    hrun.imp (fun w e hw hc => ⟨hstep w e hw hc, hw.sound hc⟩) h.inv⟩

/-- Two tasks of one process run when the hierarchy is mounted. -/
def mountedOverThreads : CgWorld :=
  ⟨CgTree.empty.mountRoot, (OrdMap.empty.insert 10 10).insert 11 10, [], [], [], false⟩

/-- A single task runs when the hierarchy is mounted. -/
def mountedOverTask : CgWorld :=
  ⟨CgTree.empty.mountRoot, OrdMap.empty.insert 10 10, [], [], [], false⟩

/-- A directory is made, the process moves there, starts a thread and exits before it. -/
def moveThenExit : List CgEvent :=
  [.create ROOT "a", .addProc 2 10, .prepare none 10 true, .commit 0 11, .exit 10, .exit 11,
    .remove 2]

theorem moveThenExit_coherent :
    (Start mountedOverTask ∧ Run.Meets CgWorld.step Careful mountedOverTask moveThenExit) ∧
      Run.Always CgWorld.step Coherent mountedOverTask moveThenExit ∧
      Run.Meets CgWorld.step Sound mountedOverTask moveThenExit := by
  have hstart : Start mountedOverTask := by
    refine ⟨rfl, fun u g g' hu hg => ?_, rfl, rfl, rfl, rfl⟩
    have hone : ∀ {u g}, mountedOverTask.tasks.get? u = some g → g = 10 := by
      intro u g hu
      rcases of_get?_insert hu with ⟨-, hg⟩ | ⟨-, hu⟩
      · exact hg
      · cases hu
    rw [hone hu, hone hg]
  have hrun : Run.Meets CgWorld.step Careful mountedOverTask moveThenExit := by
    refine ⟨trivial, fun u _ => tracked_of_all rfl u, trivial, fun f _ _ => tracked_of_all rfl _,
      fun _ u _ _ => tracked_of_all rfl u, fun _ u _ _ => tracked_of_all rfl u, trivial, trivial⟩
  exact ⟨⟨hstart, hrun⟩, coherent_of_tracked moveThenExit hstart hrun⟩

/-- A process moves without its thread: both ran when the hierarchy was mounted. -/
theorem untracked_apart : Start mountedOverThreads ∧
    ¬ Run.Always CgWorld.step Coherent mountedOverThreads [.create ROOT "a", .addProc 2 10] := by
  constructor
  · refine ⟨rfl, fun u g g' hu hg => ?_, rfl, rfl, rfl, rfl⟩
    have hone : ∀ {u g}, mountedOverThreads.tasks.get? u = some g → g = 10 := by
      intro u g hu
      rcases of_get?_insert hu with ⟨-, hg⟩ | ⟨-, hu⟩
      · exact hg
      · rcases of_get?_insert hu with ⟨-, hg⟩ | ⟨-, hu⟩
        · exact hg
        · cases hu
    rw [hone hu, hone hg]
  intro h
  have hlast := h.last.together 11 10 rfl
  revert hlast
  decide

end CgWorld

end Oxide
