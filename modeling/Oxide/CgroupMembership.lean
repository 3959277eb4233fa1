/-
Which tasks are in which control group.

The hierarchy keeps membership four times: an index of processes, one of threads, and at each node a
set of processes and a count of threads; a leader that exits before its threads is remembered
besides. Calls update them separately.

* `CgTree.Counted`: the sets and counts of the nodes are those of the indices;
* `CgTree.Joined`, `CgTree.addProc_eq_ok`: what a process that joins a node changes;
* `CgTree.Grouped`: the indices are those of the tasks alive;
* `CgTree.exitTask_spec`: a process leaves its node exactly with its last task.
-/
import Oxide.CgroupWorld

namespace Oxide

open OrdMap Finset Option

namespace CgTree

variable {t t' : CgTree} {cgid pid tid g k : ℕ}

/-! ### Sets and counts -/

/-- A thread counts at its node. -/
def inNode (k : ℕ) (x : ℕ × ℕ) : ℕ := if x.2 = k then 1 else 0

/-- The node of a process; one that is not recorded is in the root. -/
def leaderCg (t : CgTree) (g : ℕ) : ℕ := (t.procCg.get? g).getD ROOT

/-- **The sets and counts of the nodes are those of the indices**, and only nodes that are there
have members. -/
structure Counted (t : CgTree) : Prop where
  procs : ∀ k n, t.nodes.get? k = some n → ∀ p, p ∈ n.procs ↔ t.procCg.get? p = some k
  threads : ∀ k n, t.nodes.get? k = some n → n.threads = t.threadCg.total (inNode k)
  procNode : ∀ p k, t.procCg.get? p = some k → ∃ n, t.nodes.get? k = some n
  threadNode : ∀ u x, t.threadCg.get? u = some x → ∃ n, t.nodes.get? x.2 = some n

/-- What a call leaves besides the members of nodes. -/
structure TaskFrame (t t' : CgTree) : Prop where
  nodes : Keeps CgNode.withoutMembers t t'
  nextId : t'.nextId = t.nextId
  mounted : t'.mounted = t.mounted

theorem TaskFrame.refl (t : CgTree) : TaskFrame t t := ⟨Keeps.refl _ _, rfl, rfl⟩

theorem TaskFrame.trans {t'' : CgTree} (h : TaskFrame t t') (h' : TaskFrame t' t'') :
    TaskFrame t t'' :=
  ⟨h.nodes.trans h'.nodes, h'.nextId.trans h.nextId, h'.mounted.trans h.mounted⟩

/-- Members of nodes have changed, and nothing else. -/
abbrev Reseats := Frame CgNode.withoutMembers

theorem Frame.task {procCg : OrdMap ℕ ℕ} {threadCg : OrdMap ℕ (ℕ × ℕ)} {exited : Finset ℕ}
    (h : Reseats { t with procCg := procCg, threadCg := threadCg, exitedProcs := exited } t') :
    TaskFrame t t' := ⟨h.nodes, h.nextId, h.mounted⟩

/-- The nodes and the indices change together. -/
theorem counted_of_map (F : ℕ → CgNode → CgNode)
    (hget : ∀ k, t'.nodes.get? k = (t.nodes.get? k).map (F k))
    (hprocs : ∀ k n, t.nodes.get? k = some n → ∀ p, p ∈ (F k n).procs ↔ t'.procCg.get? p = some k)
    (hthreads : ∀ k n, t.nodes.get? k = some n → (F k n).threads = t'.threadCg.total (inNode k))
    (hproc : ∀ p k, t'.procCg.get? p = some k → ∃ n, t.nodes.get? k = some n)
    (hthread : ∀ u x, t'.threadCg.get? u = some x → ∃ n, t.nodes.get? x.2 = some n) :
    Counted t' := by
  have hthere : ∀ k, (∃ n, t.nodes.get? k = some n) → ∃ n', t'.nodes.get? k = some n' := by
    rintro k ⟨n, hn⟩
    exact ⟨_, (hget k).trans (congrArg _ hn)⟩
  constructor
  · intro k n' hn' p
    rw [hget] at hn'
    obtain ⟨n, hn, rfl⟩ := map_eq_some_iff.mp hn'
    exact hprocs k n hn p
  · intro k n' hn'
    rw [hget] at hn'
    obtain ⟨n, hn, rfl⟩ := map_eq_some_iff.mp hn'
    exact hthreads k n hn
  · exact fun p k hk => hthere k (hproc p k hk)
  · exact fun u x hx => hthere _ (hthread u x hx)

/-- One node and the indices change together. -/
theorem counted_modify (hnodes : t'.nodes = t.nodes) (id : ℕ) (f : CgNode → CgNode)
    (hprocs : ∀ k n, t.nodes.get? k = some n →
      ∀ p, p ∈ (if k = id then f n else n).procs ↔ t'.procCg.get? p = some k)
    (hthreads : ∀ k n, t.nodes.get? k = some n →
      (if k = id then f n else n).threads = t'.threadCg.total (inNode k))
    (hproc : ∀ p k, t'.procCg.get? p = some k → ∃ n, t.nodes.get? k = some n)
    (hthread : ∀ u x, t'.threadCg.get? u = some x → ∃ n, t.nodes.get? x.2 = some n) :
    Counted (t'.modify id f) := by
  have hframe := Frame.modify (F := fun _ => ()) t' id (f := f) fun _ => rfl
  have hp := hframe.procCg
  have ht := hframe.threadCg
  refine counted_of_map (t := t) (fun k n => if k = id then f n else n) ?_ ?_ ?_ ?_ ?_
  · intro k
    rw [modify_get?, hnodes]
    split
    · rfl
    · exact map_id'.symm
  · rwa [hp]
  · rwa [ht]
  · rwa [hp]
  · rwa [ht]

theorem Counted.insertThread (h : t.Counted) (hnone : t.threadCg.get? tid = none) {x : ℕ × ℕ}
    {n : CgNode} (hn : t.nodes.get? x.2 = some n) : Counted (t.recordThread tid x) := by
  refine counted_modify (by rfl) x.2 _ ?_ ?_ h.procNode ?_
  · intro k m hm p
    split <;> exact h.procs k m hm p
  · intro k m hm
    have htotal := total_insert_of_none (inNode k) x hnone
    have hcount := h.threads k m hm
    unfold inNode at htotal hcount ⊢
    split_ifs with hk
    · rw [if_pos hk.symm] at htotal
      show m.threads + 1 = (t.threadCg.insert tid x).total _
      omega
    rw [if_neg (Ne.symm hk)] at htotal
    show m.threads = (t.threadCg.insert tid x).total _
    omega
  · intro u y hu
    rcases of_get?_insert hu with ⟨-, rfl⟩ | ⟨-, hu⟩
    · exact ⟨n, hn⟩
    · exact h.threadNode u y hu

/-- A thread is forgotten; its node counted it. -/
theorem Counted.eraseThread (h : t.Counted) (tid : ℕ) : Counted (t.removeThread tid) := by
  unfold removeThread
  split
  · exact h
  rename_i x hx
  refine counted_modify (by rfl) x.2 _ ?_ ?_ h.procNode ?_
  · intro k m hm p
    split <;> exact h.procs k m hm p
  · intro k m hm
    have htotal := total_erase (inNode k) hx
    have hcount := h.threads k m hm
    unfold inNode at htotal hcount ⊢
    split_ifs with hk
    · rw [if_pos hk.symm] at htotal
      show m.threads - 1 = (t.threadCg.erase tid).total _
      omega
    rw [if_neg (Ne.symm hk)] at htotal
    show m.threads = (t.threadCg.erase tid).total _
    omega
  · intro u y hu
    exact h.threadNode u y (of_get?_erase hu).2

/-- A process is forgotten. -/
theorem Counted.left (h : t.Counted) (pid : ℕ) : Counted (t.removeProc pid) := by
  unfold removeProc
  dsimp only
  split
  · exact ⟨h.procs, h.threads, h.procNode, h.threadNode⟩
  rename_i old hold
  refine counted_modify (by rfl) old _ ?_ ?_ ?_ h.threadNode
  · intro k m hm p
    rw [get?_erase]
    by_cases hp : p = pid
    · rw [if_pos hp]
      refine iff_of_false (fun hh => ?_) nofun
      split_ifs at hh with hk
      · exact ne_of_mem_erase hh hp
      rw [h.procs k m hm p, hp, hold] at hh
      exact hk (Option.some.inj hh).symm
    rw [if_neg hp, ← h.procs k m hm p]
    split
    · exact mem_erase.trans (and_iff_right hp)
    · exact Iff.rfl
  · intro k m hm
    split <;> exact h.threads k m hm
  · intro p k hp
    exact h.procNode p k (of_get?_erase hp).2

/-! ### A process joins a node -/

/-- The threads of a process, wherever they are, count where it goes. -/
theorem total_moved {old : ℕ}
    (hth : ∀ u x, t.threadCg.get? u = some x → x.1 = pid → x.2 = old) (k : ℕ) :
    (t.follow cgid pid).threadCg.total (inNode k) +
        (if k = old ∧ old ≠ cgid then t.movedThreads cgid pid else 0) =
      t.threadCg.total (inNode k) +
        if k = cgid ∧ old ≠ cgid then t.movedThreads cgid pid else 0 := by
  have hif : ∀ (c : Prop) [Decidable c] (f : ℕ × ℕ → ℕ), (if c then t.threadCg.total f else 0) =
      t.threadCg.total fun x => if c then f x else 0 := by
    intro c _ f
    split
    · rfl
    · exact (total_zero _).symm
  unfold movedThreads follow
  -- the sums agree entry by entry
  rw [total_mapVal, hif, hif, ← total_add, ← total_add]
  refine total_congr fun u x hx => ?_
  unfold inNode moves
  by_cases hmv : x.1 = pid ∧ x.2 ≠ cgid
  · have hold := hth u x hx hmv.1
    split_ifs <;> omega
  · simp [hmv]

/-- What a process that joins a node changes. -/
structure Joined (t t' : CgTree) (cgid pid : ℕ) : Prop where
  node : ∃ n, t.nodes.get? cgid = some n
  procCg : t'.procCg = t.procCg.insert pid cgid
  threadCg : ∀ u, t'.threadCg.get? u =
    (t.threadCg.get? u).map fun x => if x.1 = pid then (x.1, cgid) else x
  exited : t'.exitedProcs = t.exitedProcs
  frame : TaskFrame t t'
  counted : t'.Counted

section

variable (t : CgTree) (previous : Option ℕ)

theorem leave_get? (pid k : ℕ) :
    (t.leave previous pid).nodes.get? k = (t.nodes.get? k).map fun n =>
      if previous = some k then { n with procs := n.procs.erase pid } else n := by
  unfold leave
  split
  · simp
  rename_i old
  rw [modify_get?]
  by_cases hk : k = old
  · rw [hk]
    simp
  · rw [if_neg hk]
    simp [Ne.symm hk]

theorem moveThreads_get? (old cgid pid k : ℕ) :
    (t.moveThreads old cgid pid).nodes.get? k = (t.nodes.get? k).map fun n => { n with
      threads := n.threads -
          (if k = old ∧ old ≠ cgid then t.movedThreads cgid pid else 0) +
        if k = cgid ∧ old ≠ cgid then t.movedThreads cgid pid else 0 } := by
  unfold moveThreads follow
  split
  case isTrue hne =>
    by_cases hkc : k = cgid
    · simp [hkc, Ne.symm hne, hne]
    · by_cases hko : k = old
      · simp [hko, hne]
      · simp [hko, hkc]
  case isFalse heq => simp [heq]

theorem leave_reseats (pid : ℕ) : Reseats t (t.leave previous pid) := by
  unfold leave
  split
  · exact Frame.refl _ t
  · exact Frame.modify t _ fun _ => rfl

theorem moveThreads_reseats (old cgid pid : ℕ) :
    Reseats (t.follow cgid pid) (t.moveThreads old cgid pid) := by
  unfold moveThreads
  split
  · exact (Frame.modify _ old (by intro _; rfl)).trans (Frame.modify _ cgid (by intro _; rfl))
  · exact Frame.refl _ _

/-- The members of a node after a process went elsewhere. -/
def afterTransfer (cgid pid k : ℕ) (n : CgNode) : CgNode :=
  let moved := t.movedThreads cgid pid
  let old := previous.getD ROOT
  let left := if previous = some k then n.procs.erase pid else n.procs
  { n with
    procs := if k = cgid then insert pid left else left
    threads := n.threads - (if k = old ∧ old ≠ cgid then moved else 0) +
      if k = cgid ∧ old ≠ cgid then moved else 0 }

theorem transfer_get? (cgid pid k : ℕ) :
    (t.transfer previous cgid pid).nodes.get? k =
      (t.nodes.get? k).map (t.afterTransfer previous cgid pid k) := by
  rw [transfer, modify_get?, moveThreads_get?, leave_get?, movedThreads,
    (leave_reseats t previous pid).threadCg]
  cases t.nodes.get? k with
  | none => split <;> rfl
  | some =>
  unfold afterTransfer
  by_cases hp : previous = some k
  · split <;> rfl
  · split <;> rfl

theorem transfer_reseats (cgid pid : ℕ) :
    Reseats (t.follow cgid pid) (t.transfer previous cgid pid) := by
  have hl := leave_reseats t previous pid
  refine Frame.trans ?_ ((moveThreads_reseats (t.leave previous pid) _ cgid pid).trans
    (Frame.modify _ cgid (by intro _; rfl)))
  refine ⟨⟨hl.procCg, ?_, hl.exited, hl.mounted⟩, hl.nodes, hl.nextId⟩
  unfold follow
  rw [hl.threadCg]

end

theorem addProc_frame (hok : t.addProc cgid pid = .ok t') : TaskFrame t t' := by
  unfold addProc at hok
  split at hok
  · cases hok
  dsimp only at hok
  split at hok
  · cases hok
    exact ⟨Keeps.refl _ _, rfl, rfl⟩
  cases hok
  have hs := transfer_reseats { t with procCg := t.procCg.insert pid cgid }
    (t.procCg.get? pid) cgid pid
  exact ⟨hs.nodes, hs.nextId, hs.mounted⟩

theorem addProc_eq_ok (h : t.Counted)
    (hth : ∀ u x, t.threadCg.get? u = some x → x.1 = pid → x.2 = t.leaderCg pid)
    (hok : t.addProc cgid pid = .ok t') : Joined t t' cgid pid := by
  unfold addProc at hok
  split at hok
  · cases hok
  rename_i hsome
  have hnode : ∃ n, t.nodes.get? cgid = some n :=
    ne_none_iff_exists'.mp fun hnone => hsome (by rw [hnone]; rfl)
  dsimp only at hok
  split at hok
  case isTrue hprev =>
    -- the process is there already, and so are its threads
    cases hok
    have hsame : t.procCg.insert pid cgid = t.procCg := insert_self hprev
    refine ⟨hnode, rfl, fun u => ?_, rfl, ⟨Keeps.refl _ _, rfl, rfl⟩, ?_⟩
    · cases hu : t.threadCg.get? u with
      | none => rfl
      | some x =>
      rw [map_some]
      split_ifs with hx
      · have hx2 := hth u x hu hx
        unfold leaderCg at hx2
        rw [hprev, getD_some] at hx2
        rw [← hx2]
      · rfl
    · rwa [hsame]
  cases hok
  have hget := transfer_get? { t with procCg := t.procCg.insert pid cgid }
    (t.procCg.get? pid) cgid pid
  have hs := transfer_reseats { t with procCg := t.procCg.insert pid cgid }
    (t.procCg.get? pid) cgid pid
  have hproc : (CgTree.transfer { t with procCg := t.procCg.insert pid cgid } (t.procCg.get? pid)
      cgid pid).procCg = t.procCg.insert pid cgid := hs.procCg
  have htotal := @total_moved t cgid pid _ hth
  have hfollow : ∀ x : ℕ × ℕ, (if moves cgid pid x then (x.1, cgid) else x) =
      if x.1 = pid then (x.1, cgid) else x := by
    intro x
    unfold moves
    by_cases hx : x.1 = pid
    · by_cases hx2 : x.2 = cgid
      · simp [hx, ← hx2]
        exact Prod.ext hx rfl
      · simp [hx2]
    · simp [hx]
  refine ⟨hnode, hs.procCg, fun u => ?_, hs.exited, ⟨hs.nodes, hs.nextId, hs.mounted⟩, ?_⟩
  · rw [hs.threadCg, follow, get?_mapVal, funext hfollow]
  refine counted_of_map _ hget ?_ ?_ ?_ ?_
  · intro k n hn p
    rw [hproc]
    have hmem := h.procs k n hn
    -- the process is not in any other set
    have hleft : ∀ q, q ∈ (if t.procCg.get? pid = some k then n.procs.erase pid else n.procs) ↔
        q ≠ pid ∧ t.procCg.get? q = some k := by
      intro q
      split
      · rw [mem_erase, hmem]
      · case isFalse hno =>
        rw [hmem]
        exact ⟨fun hq => ⟨fun hqp => hno (hqp ▸ hq), hq⟩, fun hq => hq.2⟩
    show p ∈ (if k = cgid then insert pid (if t.procCg.get? pid = some k then n.procs.erase pid
      else n.procs) else if t.procCg.get? pid = some k then n.procs.erase pid else n.procs) ↔ _
    by_cases hk : k = cgid
    · rw [if_pos hk, mem_insert, hleft]
      by_cases hpp : p = pid
      · simp [hpp, hk]
      · simp [hpp]
    rw [if_neg hk, hleft]
    by_cases hpp : p = pid
    · simp [hpp, Ne.symm hk]
    · simp [hpp]
  · intro k n hn
    rw [hs.threadCg]
    have hk := htotal k
    have hcount := h.threads k n hn
    show n.threads - (if k = t.leaderCg pid ∧ t.leaderCg pid ≠ cgid then t.movedThreads cgid pid
      else 0) + (if k = cgid ∧ t.leaderCg pid ≠ cgid then t.movedThreads cgid pid else 0) =
      (t.follow cgid pid).threadCg.total _
    have hnot : k = t.leaderCg pid ∧ t.leaderCg pid ≠ cgid →
        ¬ (k = cgid ∧ t.leaderCg pid ≠ cgid) := fun h h' => h.2 (h.1.symm.trans h'.1)
    split at hk
    · case isTrue hold =>
      rw [if_neg (hnot hold)] at hk ⊢
      rw [if_pos hold]
      omega
    · case isFalse hold =>
      rw [if_neg hold]
      omega
  · intro p k hpk
    rw [hproc] at hpk
    rcases of_get?_insert hpk with ⟨-, rfl⟩ | ⟨-, hpk⟩
    · exact hnode
    · exact h.procNode p k hpk
  · intro u x hx
    rw [hs.threadCg, follow, get?_mapVal] at hx
    obtain ⟨y, hy, rfl⟩ := map_eq_some_iff.mp hx
    split
    · exact hnode
    · exact h.threadNode u y hy

theorem Joined.leaderCg (hj : Joined t t' cgid pid) (g : ℕ) :
    t'.leaderCg g = if g = pid then cgid else t.leaderCg g := by
  rw [CgTree.leaderCg, hj.procCg, get?_insert]
  split <;> rfl

theorem Joined.threadCg_eq_none (hj : Joined t t' cgid pid) (u : ℕ) :
    t'.threadCg.get? u = none ↔ t.threadCg.get? u = none := by
  rw [hj.threadCg, map_eq_none_iff]

/-! ### Threads and exits -/

theorem recordThread_reseats (t : CgTree) (tid : ℕ) (x : ℕ × ℕ) :
    Reseats { t with threadCg := t.threadCg.insert tid x } (t.recordThread tid x) :=
  Frame.modify _ _ fun _ => rfl

theorem removeThread_reseats (t : CgTree) (tid : ℕ) :
    Reseats { t with threadCg := t.threadCg.erase tid } (t.removeThread tid) := by
  unfold removeThread
  split
  case h_1 hnone =>
    rw [erase_of_none hnone]
    exact Frame.refl _ t
  · exact Frame.modify _ _ fun _ => rfl

theorem removeProc_reseats (t : CgTree) (pid : ℕ) : Reseats { t with
    procCg := t.procCg.erase pid, exitedProcs := t.exitedProcs.erase pid } (t.removeProc pid) := by
  unfold removeProc
  dsimp only
  split
  case h_1 hnone =>
    rw [erase_of_none hnone]
    exact Frame.refl _ _
  · exact Frame.modify _ _ fun _ => rfl

theorem hasThreads_iff (t : CgTree) (g : ℕ) :
    t.hasThreads g = true ↔ ∃ u x, t.threadCg.get? u = some x ∧ x.1 = g := by
  rw [hasThreads, List.any_eq_true]
  constructor
  · rintro ⟨x, hx, hg⟩
    obtain ⟨u, hu⟩ := mem_values_iff.mp hx
    exact ⟨u, x, hu, of_decide_eq_true hg⟩
  · rintro ⟨u, x, hu, hg⟩
    exact ⟨x, mem_values_iff.mpr ⟨u, hu⟩, decide_eq_true hg⟩

theorem exitTask_frame (t : CgTree) (tid g : ℕ) : TaskFrame t (t.exitTask tid g).1 := by
  unfold exitTask
  dsimp only
  have hremove := (removeThread_reseats t tid).task
  split
  · split
    · exact ⟨Keeps.refl _ _, rfl, rfl⟩
    · exact (removeProc_reseats t g).task
  split
  · exact hremove
  split
  · have hs := removeProc_reseats { t.removeThread tid with
      exitedProcs := (t.removeThread tid).exitedProcs.erase g } g
    exact hremove.trans ⟨hs.nodes, hs.nextId, hs.mounted⟩
  · exact hremove

/-! ### The tasks alive -/

/-- **The indices are those of the tasks alive.** A thread that is recorded has its leader beside it
and is where its process is; one that is not recorded is in the root, and so is its process; a
recorded process has a task; and a leader that exited is remembered while its threads live. -/
structure Grouped (t : CgTree) (tasks : OrdMap ℕ ℕ) : Prop where
  leaders : ∀ u g g', tasks.get? u = some g → tasks.get? g = some g' → g' = g
  thread : ∀ u x, t.threadCg.get? u = some x →
    tasks.get? u = some x.1 ∧ u ≠ x.1 ∧ x.2 = t.leaderCg x.1
  proc : ∀ p k, t.procCg.get? p = some k → ∃ u, tasks.get? u = some p
  unrecorded : ∀ u g, tasks.get? u = some g → u ≠ g → t.threadCg.get? u = none → t.leaderCg g = ROOT
  exited : ∀ g ∈ t.exitedProcs, tasks.get? g = none ∧ ∃ u, tasks.get? u = some g
  zombie : ∀ u g, tasks.get? u = some g → tasks.get? g = none → g ∈ t.exitedProcs ∨
    ∃ u', tasks.get? u' = some g ∧ u' ≠ g ∧ t.threadCg.get? u' = none

theorem leaderCg_congr (hp : t'.procCg = t.procCg) (g : ℕ) : t'.leaderCg g = t.leaderCg g := by
  unfold leaderCg
  rw [hp]

variable {tasks : OrdMap ℕ ℕ}

section

variable (h : Grouped t tasks)
include h

theorem Grouped.congr (hs : SameIndices t t') : Grouped t' tasks := by
  obtain ⟨hp, ht, he, -⟩ := hs
  have hl := leaderCg_congr hp
  constructor
  · exact h.leaders
  · intro u x hx
    rw [ht] at hx
    rw [hl]
    exact h.thread u x hx
  · rw [hp]
    exact h.proc
  · intro u g hu hne hnone
    rw [hl]
    exact h.unrecorded u g hu hne (ht ▸ hnone)
  · rw [he]
    exact h.exited
  · rw [he, ht]
    exact h.zombie

/-- A leader is not recorded as a thread, nor a thread as a process. -/
theorem Grouped.leader_not_thread {u : ℕ} (hu : tasks.get? u = some u) :
    t.threadCg.get? u = none := by
  cases hx : t.threadCg.get? u with
  | none => rfl
  | some x =>
    obtain ⟨hux, hne, -⟩ := h.thread u x hx
    exact absurd (Option.some.inj (hu.symm.trans hux)) hne

theorem Grouped.thread_not_proc {u : ℕ} (hu : tasks.get? u = some g) (hne : u ≠ g) :
    t.procCg.get? u = none := by
  cases hk : t.procCg.get? u with
  | none => rfl
  | some k =>
    obtain ⟨u', hu'⟩ := h.proc u k hk
    exact absurd (h.leaders u' u g hu' hu).symm hne

/-- Every task is where its process is. -/
theorem Grouped.cgroupOf {u : ℕ} (hu : tasks.get? u = some g) : t.cgroupOf u = t.leaderCg g := by
  unfold CgTree.cgroupOf
  by_cases hug : u = g
  · subst hug
    rw [h.leader_not_thread hu]
    unfold CgTree.leaderCg
    cases t.procCg.get? u <;> rfl
  rw [h.thread_not_proc hu hug]
  cases hx : t.threadCg.get? u with
  | none => exact (h.unrecorded u g hu hug hx).symm
  | some x =>
    obtain ⟨hux, -, hx2⟩ := h.thread u x hx
    rwa [Option.some.inj (hu.symm.trans hux)]

/-- A process moves, with all its threads recorded. -/
theorem Grouped.move (hj : Joined t t' cgid pid) (halive : ∃ u, tasks.get? u = some pid)
    (hrec : ∀ u, tasks.get? u = some pid → u ≠ pid → t.threadCg.get? u ≠ none) :
    Grouped t' tasks := by
  constructor
  · exact h.leaders
  · intro u x hx
    rw [hj.threadCg] at hx
    obtain ⟨y, hy, rfl⟩ := map_eq_some_iff.mp hx
    obtain ⟨hu, hne, hy2⟩ := h.thread u y hy
    by_cases hyp : y.1 = pid
    · rw [if_pos hyp, hj.leaderCg, if_pos hyp]
      exact ⟨hu, hne, rfl⟩
    · rw [if_neg hyp, hj.leaderCg, if_neg hyp]
      exact ⟨hu, hne, hy2⟩
  · intro p k hp
    rw [hj.procCg] at hp
    rcases of_get?_insert hp with ⟨rfl, -⟩ | ⟨-, hp⟩
    · exact halive
    · exact h.proc p k hp
  · intro u g hu hne hnone
    rw [hj.threadCg_eq_none] at hnone
    rw [hj.leaderCg, if_neg ?_]
    · exact h.unrecorded u g hu hne hnone
    · rintro rfl
      exact hrec u hu hne hnone
  · rw [hj.exited]
    exact h.exited
  intro u g hu hg
  rw [hj.exited]
  refine (h.zombie u g hu hg).imp_right ?_
  rintro ⟨u', hu', hne, hnone⟩
  exact ⟨u', hu', hne, (hj.threadCg_eq_none u').mpr hnone⟩

theorem Grouped.spawn (hj : Joined t t' cgid pid) (hnone : tasks.get? pid = none)
    (hfresh : ∀ u, tasks.get? u ≠ some pid) : Grouped t' (tasks.insert pid pid) := by
  -- a task is the new one, or was there and belongs to another process
  have hold : ∀ {u g}, (tasks.insert pid pid).get? u = some g →
      u = pid ∧ g = pid ∨ tasks.get? u = some g ∧ u ≠ pid ∧ g ≠ pid := by
    intro u g hu
    rcases of_get?_insert hu with hnew | ⟨hne, hu⟩
    · exact .inl hnew
    · exact .inr ⟨hu, hne, fun hg => hfresh u (hg ▸ hu)⟩
  have hkeep : ∀ {u g}, tasks.get? u = some g → (tasks.insert pid pid).get? u = some g ∧ g ≠ pid :=
    fun hu => ⟨(get?_insert_fresh _ hnone hu).1, fun hg => hfresh _ (hg ▸ hu)⟩
  constructor
  · intro u g g' hu hg
    rcases hold hu with ⟨-, rfl⟩ | ⟨hu, -, hgp⟩
    · rcases hold hg with ⟨-, rfl⟩ | ⟨-, hne, -⟩
      · rfl
      · exact absurd rfl hne
    · rw [get?_insert_of_ne _ hgp] at hg
      exact h.leaders u g g' hu hg
  · intro u x hx
    rw [hj.threadCg] at hx
    obtain ⟨y, hy, rfl⟩ := map_eq_some_iff.mp hx
    obtain ⟨hu, hne, hy2⟩ := h.thread u y hy
    obtain ⟨hu', hyp⟩ := hkeep hu
    rw [if_neg hyp, hj.leaderCg, if_neg hyp]
    exact ⟨hu', hne, hy2⟩
  · intro p k hp
    rw [hj.procCg] at hp
    rcases of_get?_insert hp with ⟨rfl, -⟩ | ⟨-, hp⟩
    · exact ⟨p, (get?_insert ..).trans (if_pos rfl)⟩
    · exact (h.proc p k hp).imp fun u hu => (hkeep hu).1
  · intro u g hu hne hth
    rw [hj.threadCg_eq_none] at hth
    rcases hold hu with ⟨rfl, rfl⟩ | ⟨hu, -, hgp⟩
    · exact absurd rfl hne
    · rw [hj.leaderCg, if_neg hgp]
      exact h.unrecorded u g hu hne hth
  · intro g hg
    rw [hj.exited] at hg
    obtain ⟨hdead, u, hu⟩ := h.exited g hg
    obtain ⟨hu', hgp⟩ := hkeep hu
    exact ⟨(get?_insert_of_ne _ hgp).trans hdead, u, hu'⟩
  intro u g hu hg
  rcases hold hu with ⟨rfl, rfl⟩ | ⟨hu, -, hgp⟩
  · cases hu.symm.trans hg
  rw [get?_insert_of_ne _ hgp] at hg
  rw [hj.exited]
  refine (h.zombie u g hu hg).imp_right ?_
  rintro ⟨u', hu', hne', hth⟩
  exact ⟨u', (hkeep hu').1, hne', (hj.threadCg_eq_none u').mpr hth⟩

theorem Grouped.newThread {parent : ℕ} (hparent : tasks.get? parent = some g)
    (hnone : tasks.get? tid = none) (hfresh : ∀ u, tasks.get? u ≠ some tid)
    (hp : t'.procCg = t.procCg) (ht : t'.threadCg = t.threadCg.insert tid (g, t.leaderCg g))
    (he : t'.exitedProcs = t.exitedProcs) : Grouped t' (tasks.insert tid g) := by
  have hl := leaderCg_congr hp
  have hgt : g ≠ tid := fun hg => hfresh parent (hg ▸ hparent)
  have hkeep : ∀ {u q}, tasks.get? u = some q → (tasks.insert tid g).get? u = some q ∧ u ≠ tid :=
    get?_insert_fresh g hnone
  -- every task is of a process that was there
  have hgroup : ∀ {u q}, (tasks.insert tid g).get? u = some q →
      (∃ u', tasks.get? u' = some q) ∧ q ≠ tid := by
    intro u q hu
    rcases of_get?_insert hu with ⟨-, rfl⟩ | ⟨-, hu⟩
    · exact ⟨⟨parent, hparent⟩, hgt⟩
    · exact ⟨⟨u, hu⟩, fun hq => hfresh u (hq ▸ hu)⟩
  constructor
  · intro u q q' hu hq
    obtain ⟨⟨u', hu'⟩, hqt⟩ := hgroup hu
    rw [get?_insert_of_ne _ hqt] at hq
    exact h.leaders u' q q' hu' hq
  · intro u x hx
    rw [ht] at hx
    rw [hl]
    rcases of_get?_insert hx with ⟨rfl, rfl⟩ | ⟨-, hx⟩
    · exact ⟨(get?_insert ..).trans (if_pos rfl), hgt.symm, rfl⟩
    · obtain ⟨hu, hne, hx2⟩ := h.thread u x hx
      exact ⟨(hkeep hu).1, hne, hx2⟩
  · intro p k hpk
    rw [hp] at hpk
    exact (h.proc p k hpk).imp fun u hu => (hkeep hu).1
  · intro u q hu hne hno
    rw [ht, get?_insert] at hno
    split at hno
    · cases hno
    rename_i hut
    rw [get?_insert_of_ne _ hut] at hu
    rw [hl]
    exact h.unrecorded u q hu hne hno
  · intro q hq
    rw [he] at hq
    obtain ⟨hdead, u, hu⟩ := h.exited q hq
    obtain ⟨hu', -⟩ := hkeep hu
    exact ⟨(get?_insert_of_ne _ (hgroup hu').2).trans hdead, u, hu'⟩
  intro u q hu hq
  obtain ⟨⟨u', hu'⟩, hqt⟩ := hgroup hu
  rw [get?_insert_of_ne _ hqt] at hq
  rw [he, ht]
  refine (h.zombie u' q hu' hq).imp_right ?_
  rintro ⟨v, hv, hne, hno⟩
  obtain ⟨hv', hvt⟩ := hkeep hv
  exact ⟨v, hv', hne, (get?_insert_of_ne _ hvt).trans hno⟩

/-- The last task of a process exits, and the process with it. -/
theorem Grouped.lastExit (htid : tasks.get? tid = some g)
    (hlast : ∀ u, tasks.get? u = some g → u = tid) (hp : t'.procCg = t.procCg.erase g)
    (ht : t'.threadCg = t.threadCg.erase tid)
    (he : ∀ q, q ∈ t'.exitedProcs ↔ q ≠ g ∧ q ∈ t.exitedProcs) : Grouped t' (tasks.erase tid) := by
  have hold : ∀ {u q}, (tasks.erase tid).get? u = some q →
      u ≠ tid ∧ tasks.get? u = some q ∧ q ≠ g := by
    intro u q hu
    obtain ⟨hne, hu⟩ := of_get?_erase hu
    exact ⟨hne, hu, fun hq => hne (hlast u (hq ▸ hu))⟩
  have hkeep : ∀ {u q}, tasks.get? u = some q → q ≠ g → (tasks.erase tid).get? u = some q := by
    intro u q hu hq
    refine (get?_erase_of_ne ?_).trans hu
    rintro rfl
    exact hq (Option.some.inj (hu.symm.trans htid))
  have hl : ∀ q, q ≠ g → t'.leaderCg q = t.leaderCg q := by
    intro q hq
    unfold leaderCg
    rw [hp, get?_erase_of_ne hq]
  -- a leader other than the task is as it was
  have hlead : ∀ {u q}, tasks.get? u = some q → q ≠ g →
      (tasks.erase tid).get? q = tasks.get? q := by
    intro u q hu hq
    refine get?_erase_of_ne ?_
    rintro rfl
    exact hq (h.leaders u q g hu htid).symm
  constructor
  · intro u q q' hu hq
    obtain ⟨-, hu, hqg⟩ := hold hu
    rw [hlead hu hqg] at hq
    exact h.leaders u q q' hu hq
  · intro u x hx
    rw [ht] at hx
    obtain ⟨hne, hx⟩ := of_get?_erase hx
    obtain ⟨hu, hux, hx2⟩ := h.thread u x hx
    have hxg : x.1 ≠ g := fun hxg => hne (hlast u (hxg ▸ hu))
    rw [hl _ hxg]
    exact ⟨hkeep hu hxg, hux, hx2⟩
  · intro p k hpk
    rw [hp] at hpk
    obtain ⟨hpg, hpk⟩ := of_get?_erase hpk
    exact (h.proc p k hpk).imp fun u hu => hkeep hu hpg
  · intro u q hu hne hno
    obtain ⟨hut, hu, hqg⟩ := hold hu
    rw [ht, get?_erase_of_ne hut] at hno
    rw [hl q hqg]
    exact h.unrecorded u q hu hne hno
  · intro q hq
    obtain ⟨hqg, hq⟩ := (he q).mp hq
    obtain ⟨hdead, u, hu⟩ := h.exited q hq
    exact ⟨(hlead hu hqg).trans hdead, u, hkeep hu hqg⟩
  intro u q hu hq
  obtain ⟨-, hu, hqg⟩ := hold hu
  rw [hlead hu hqg] at hq
  refine (h.zombie u q hu hq).imp (fun hqe => (he q).mpr ⟨hqg, hqe⟩) ?_
  rintro ⟨v, hv, hne, hno⟩
  have hvt := (hold (hkeep hv hqg)).1
  rw [ht]
  exact ⟨v, hkeep hv hqg, hne, (get?_erase_of_ne hvt).trans hno⟩

/-- A task exits and leaves another of its process. -/
theorem Grouped.otherExit (htid : tasks.get? tid = some g) {u0 : ℕ} (hu0 : tasks.get? u0 = some g)
    (hne0 : u0 ≠ tid) (hrec : tid ≠ g → t.threadCg.get? tid ≠ none) (hp : t'.procCg = t.procCg)
    (ht : t'.threadCg = t.threadCg.erase tid)
    (he : ∀ q, q ∈ t'.exitedProcs ↔ q ∈ t.exitedProcs ∨ tid = g ∧ q = g) :
    Grouped t' (tasks.erase tid) := by
  have hkeep : ∀ {u q}, tasks.get? u = some q → u ≠ tid → (tasks.erase tid).get? u = some q :=
    fun hu hut => (get?_erase_of_ne hut).trans hu
  -- the process still has a task
  have halive : ∀ {q}, (∃ u, tasks.get? u = some q) → ∃ u, (tasks.erase tid).get? u = some q := by
    rintro q ⟨u, hu⟩
    by_cases hut : u = tid
    · rw [hut, htid] at hu
      cases hu
      exact ⟨u0, hkeep hu0 hne0⟩
    · exact ⟨u, hkeep hu hut⟩
  have hl := leaderCg_congr hp
  constructor
  · intro u q q' hu hq
    exact h.leaders u q q' (of_get?_erase hu).2 (of_get?_erase hq).2
  · intro u x hx
    rw [ht] at hx
    rw [hl]
    obtain ⟨hut, hx⟩ := of_get?_erase hx
    obtain ⟨hu, hne, hx2⟩ := h.thread u x hx
    exact ⟨hkeep hu hut, hne, hx2⟩
  · intro p k hpk
    rw [hp] at hpk
    exact halive (h.proc p k hpk)
  · intro u q hu hne hno
    obtain ⟨hut, hu⟩ := of_get?_erase hu
    rw [ht, get?_erase_of_ne hut] at hno
    rw [hl]
    exact h.unrecorded u q hu hne hno
  · intro q hq
    rcases (he q).mp hq with hq | ⟨htg, rfl⟩
    · obtain ⟨hdead, hu⟩ := h.exited q hq
      refine ⟨?_, halive hu⟩
      rw [get?_erase, hdead]
      split <;> rfl
    · exact ⟨(get?_erase ..).trans (if_pos htg.symm), halive ⟨tid, htid⟩⟩
  intro u q hu hq
  obtain ⟨hut, hu⟩ := of_get?_erase hu
  rw [get?_erase] at hq
  split at hq
  case isTrue hqt =>
    -- the leader is the task that exits
    rw [hqt] at hu
    have hg : g = tid := h.leaders u tid g hu htid
    exact .inl ((he q).mpr (.inr ⟨hg.symm, hqt.trans hg.symm⟩))
  rcases h.zombie u q hu hq with hqe | ⟨v, hv, hne, hno⟩
  · exact .inl ((he q).mpr (.inl hqe))
  have hvt : v ≠ tid := by
    rintro rfl
    cases htid.symm.trans hv
    exact hrec hne hno
  rw [ht]
  exact .inr ⟨v, hkeep hv hvt, hne, (get?_erase_of_ne hvt).trans hno⟩

end

/-- What an exit does, where every thread of the process is recorded. -/
structure Exited (t t' : CgTree) (tasks : OrdMap ℕ ℕ) (tid g : ℕ) (left : Option ℕ) : Prop where
  counted : t'.Counted
  frame : TaskFrame t t'
  grouped : Grouped t' (tasks.erase tid)
  left_iff : left.isSome = true ↔ ∀ u, tasks.get? u = some g → u = tid
  procCg : ∀ p, t'.procCg.get? p = if left.isSome = true ∧ p = g then none else t.procCg.get? p

/-- Where they are all recorded, the threads of a process are its tasks but the leader. -/
theorem Grouped.recorded_iff (h : Grouped t tasks)
    (hrec : ∀ u, tasks.get? u = some g → u ≠ g → t.threadCg.get? u ≠ none) {u : ℕ} :
    (∃ x, t.threadCg.get? u = some x ∧ x.1 = g) ↔ tasks.get? u = some g ∧ u ≠ g := by
  constructor
  · rintro ⟨x, hx, rfl⟩
    obtain ⟨hu, hne, -⟩ := h.thread u x hx
    exact ⟨hu, hne⟩
  rintro ⟨hu, hne⟩
  obtain ⟨x, hx⟩ := ne_none_iff_exists'.mp (hrec u hu hne)
  exact ⟨x, hx, (Option.some.inj (hu.symm.trans (h.thread u x hx).1)).symm⟩

/-- **A process leaves its node exactly with its last task.** -/
theorem exitTask_spec (h : Grouped t tasks) (hc : t.Counted) (htid : tasks.get? tid = some g)
    (hrec : ∀ u, tasks.get? u = some g → u ≠ g → t.threadCg.get? u ≠ none) :
    Exited t (t.exitTask tid g).1 tasks tid g (t.exitTask tid g).2 := by
  unfold exitTask
  dsimp only
  split
  case isTrue htg =>
    subst htg
    have hsame := (erase_of_none (h.leader_not_thread htid)).symm
    split_ifs with hhas
    · obtain ⟨u, hu⟩ := (t.hasThreads_iff tid).mp hhas
      obtain ⟨hu, hne⟩ := (h.recorded_iff hrec).mp hu
      refine ⟨⟨hc.procs, hc.threads, hc.procNode, hc.threadNode⟩, ⟨Keeps.refl _ _, rfl, rfl⟩,
        h.otherExit htid hu hne (fun hno => absurd rfl hno) rfl hsame ?_, ?_, fun p => ?_⟩
      · intro q
        rw [mem_insert, or_comm]
        simp only [true_and]
      · exact iff_of_false nofun fun hlast => hne (hlast u hu)
      · rw [if_neg (by rintro ⟨⟨⟩, -⟩)]
    have hlast : ∀ u, tasks.get? u = some tid → u = tid := by
      intro u hu
      by_contra hne
      exact hhas ((t.hasThreads_iff tid).mpr ⟨u, (h.recorded_iff hrec).mpr ⟨hu, hne⟩⟩)
    have hs := removeProc_reseats t tid
    refine ⟨hc.left tid, hs.task, h.lastExit htid hlast hs.procCg (hs.threadCg.trans hsame)
      (fun q => ?_), iff_of_true rfl hlast, fun p => ?_⟩
    · rw [hs.exited, mem_erase]
    · rw [hs.procCg, get?_erase]
      simp only [isSome_some, true_and]
  rename_i htg
  have hs := removeThread_reseats t tid
  have hc1 := hc.eraseThread tid
  have hrec' : tid ≠ g → t.threadCg.get? tid ≠ none := fun hne => hrec tid htid hne
  have hhas : (t.removeThread tid).hasThreads g = true ↔
      ∃ u, tasks.get? u = some g ∧ u ≠ tid ∧ u ≠ g := by
    rw [hasThreads_iff, hs.threadCg]
    refine exists_congr fun u => ?_
    rw [and_left_comm, ← h.recorded_iff hrec]
    by_cases hut : u = tid <;> simp [get?_erase, hut]
  -- another task stays
  have hstay : ∀ u, tasks.get? u = some g → u ≠ tid →
      Exited t (t.removeThread tid) tasks tid g none := by
    intro u hu hut
    refine ⟨hc1, hs.task, h.otherExit htid hu hut hrec' hs.procCg hs.threadCg (fun q => ?_), ?_,
      fun p => ?_⟩
    · rw [hs.exited]
      exact ⟨Or.inl, fun hq => hq.resolve_right fun hh => htg hh.1⟩
    · exact iff_of_false nofun fun hlast => hut (hlast u hu)
    · rw [if_neg (by rintro ⟨⟨⟩, -⟩), hs.procCg]
  split
  case isTrue hyes =>
    obtain ⟨u, hu, hut, -⟩ := hhas.mp hyes
    exact hstay u hu hut
  case isFalse hno =>
    split_ifs with hex
    · rw [hs.exited] at hex
      have hlast : ∀ u, tasks.get? u = some g → u = tid := by
        intro u hu
        by_contra hut
        refine hno (hhas.mpr ⟨u, hu, hut, ?_⟩)
        rintro rfl
        rw [(h.exited u hex).1] at hu
        cases hu
      have hs' := removeProc_reseats { t.removeThread tid with
        exitedProcs := (t.removeThread tid).exitedProcs.erase g } g
      have hc2 : Counted { t.removeThread tid with
          exitedProcs := (t.removeThread tid).exitedProcs.erase g } :=
        ⟨hc1.procs, hc1.threads, hc1.procNode, hc1.threadNode⟩
      have hp := hs'.procCg.trans (congrArg (OrdMap.erase · g) hs.procCg)
      refine ⟨hc2.left g, hs.task.trans ⟨hs'.nodes, hs'.nextId, hs'.mounted⟩,
        h.lastExit htid hlast hp (hs'.threadCg.trans hs.threadCg) (fun q => ?_),
        iff_of_true rfl hlast, fun p => ?_⟩
      · rw [hs'.exited]
        rw [mem_erase, mem_erase, hs.exited]
        exact ⟨fun hq => hq.2, fun hq => ⟨hq.1, hq⟩⟩
      · rw [hp, get?_erase]
        simp only [isSome_some, true_and]
    rw [hs.exited] at hex
    -- the leader is alive, or it would be remembered
    have hlead : tasks.get? g = some g := by
      cases hg : tasks.get? g with
      | none =>
        rcases h.zombie tid g htid hg with hin | ⟨u, hu, hne, hnone⟩
        · exact absurd hin hex
        · exact absurd hnone (hrec u hu hne)
      | some g' => rw [h.leaders tid g g' htid hg]
    exact hstay g hlead (Ne.symm htg)

end CgTree

end Oxide
