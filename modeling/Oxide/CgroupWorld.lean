/-
The hierarchy together with the tasks that use it.

A world is a hierarchy, the tasks that are alive, the forks that are prepared and not yet committed,
and the charges that have been made and not returned. Moves and exits wait until no fork is
prepared, as the fork lock has it; directories and charges come and go at any time.

* `CgWorld.step`: what one call does;
* `CgTree.Keeps`, `CgTree.Frame`: what a call leaves as it was, in every node and besides nodes;
* `CgTree.Formed`: directories form a tree, with `Keeps.formed`: a call that keeps names, parents
  and children keeps the tree;
* `CgTree.Created.formed`, `CgTree.Removed.formed`: so do new directories and removed ones.
-/
import Oxide.CgroupTree

namespace Oxide

open OrdMap

variable {n n' : CgNode} {name : String} {id k parent : ℕ}

/-- A fork that has reserved its place. -/
structure PreparedFork where
  cgid : ℕ
  parent : ℕ
  thread : Bool
  killSeq : ℕ

/-- Memory charged to a node. -/
structure Charge where
  cgid : ℕ
  kind : MemoryKind
  bytes : ℕ

/-- The hierarchy, tasks, forks and charges. -/
structure CgWorld where
  tree : CgTree
  /-- The tasks alive, with the leaders of their processes. -/
  tasks : OrdMap ℕ ℕ
  prepared : List PreparedFork
  /-- The charges outstanding. -/
  memory : List Charge
  swap : List (ℕ × ℕ)
  panicked : Bool

/-- The calls. -/
inductive CgEvent
  | create (parent : ℕ) (name : String)
  | remove (id : ℕ)
  /-- A process moves, once no fork is prepared, or a new one joins. -/
  | addProc (cgid pid : ℕ)
  | addThread (parent tid : ℕ)
  /-- A task starts to fork, into a node of its choice or into its own. -/
  | prepare (target : Option ℕ) (parent : ℕ) (thread : Bool)
  | commit (k child : ℕ)
  | cancel (k : ℕ)
  | exit (tid : ℕ)
  | chargeMemory (cgid : ℕ) (kind : MemoryKind) (bytes : BitVec 64)
  | unchargeMemory (k : ℕ)
  | chargeSwap (cgid : ℕ) (bytes : BitVec 64)
  | unchargeSwap (k : ℕ)

namespace CgWorld

variable (w : CgWorld)

/-- A task of the process is alive. -/
def alive (pid : ℕ) : Bool := w.tasks.values.any fun g => g = pid

/-- No task and no process has this id. -/
def fresh (pid : ℕ) : Bool := (w.tasks.get? pid).isNone && !w.alive pid

def onAddProc (cgid pid : ℕ) : CgWorld :=
  if w.fresh pid || (w.prepared.isEmpty && w.alive pid) then
    match w.tree.addProc cgid pid with
    | .error _ => w
    | .ok t =>
      { w with tree := t, tasks := if w.fresh pid then w.tasks.insert pid pid else w.tasks }
  else w

def onAddThread (parent tid : ℕ) : CgWorld :=
  if w.fresh tid then
    match w.tasks.get? parent with
    | none => w
    | some g => { w with tree := w.tree.addThread parent tid, tasks := w.tasks.insert tid g }
  else w

/-- A thread can only stay where its process is. -/
def onPrepare (target : Option ℕ) (parent : ℕ) (thread : Bool) : CgWorld :=
  match w.tasks.get? parent with
  | none => w
  | some _ =>
    let src := w.tree.cgroupOf parent
    let cgid := target.getD src
    if thread && cgid ≠ src then w
    else match w.tree.prepareFork cgid with
      | .error _ => w
      | .ok t =>
        let killSeq := ((t.nodes.get? cgid).map CgNode.killSeq).getD 0
        { w with tree := t, prepared := ⟨cgid, parent, thread, killSeq⟩ :: w.prepared }

def onCommit (k child : ℕ) : CgWorld :=
  match w.prepared[k]? with
  | none => w
  | some f =>
    if w.fresh child then
      match w.tree.commitFork f.cgid child f.parent f.thread f.killSeq with
      | none => { w with panicked := true }
      | some (t, _) => { w with
          tree := t
          prepared := w.prepared.eraseIdx k
          tasks := w.tasks.insert child
            (if f.thread then (w.tasks.get? f.parent).getD child else child) }
    else w

def onCancel (k : ℕ) : CgWorld :=
  match w.prepared[k]? with
  | none => w
  | some f =>
    match w.tree.cancelFork f.cgid with
    | none => { w with panicked := true }
    | some t => { w with tree := t, prepared := w.prepared.eraseIdx k }

def onExit (tid : ℕ) : CgWorld :=
  if w.prepared.isEmpty then
    match w.tasks.get? tid with
    | none => w
    | some g => { w with tree := (w.tree.exitTask tid g).1, tasks := w.tasks.erase tid }
  else w

/-- A charge of nothing is never returned. -/
def onChargeMemory (cgid : ℕ) (kind : MemoryKind) (bytes : ℕ) : CgWorld :=
  match w.tree.tryChargeMemoryTransition cgid kind bytes with
  | (t, .max _) => { w with tree := t }
  | (t, .charged _) =>
    { w with tree := t, memory := if bytes = 0 then w.memory else ⟨cgid, kind, bytes⟩ :: w.memory }

def onUnchargeMemory (k : ℕ) : CgWorld :=
  match w.memory[k]? with
  | none => w
  | some c =>
    { w with tree := w.tree.unchargeMemory c.cgid c.kind c.bytes, memory := w.memory.eraseIdx k }

def onChargeSwap (cgid bytes : ℕ) : CgWorld :=
  match w.tree.tryChargeSwap cgid bytes with
  | (t, false) => { w with tree := t }
  | (t, true) => { w with tree := t, swap := if bytes = 0 then w.swap else (cgid, bytes) :: w.swap }

def onUnchargeSwap (k : ℕ) : CgWorld :=
  match w.swap[k]? with
  | none => w
  | some c => { w with tree := w.tree.unchargeSwap c.1 c.2, swap := w.swap.eraseIdx k }

/-- What one call does. -/
def step : CgEvent → CgWorld
  | .create parent name =>
    match w.tree.create parent name with
    | .error _ => w
    | .ok (t, _) => { w with tree := t }
  | .remove id =>
    match w.tree.remove id with
    | .error _ => w
    | .ok t => { w with tree := t }
  | .addProc cgid pid => w.onAddProc cgid pid
  | .addThread parent tid => w.onAddThread parent tid
  | .prepare target parent thread => w.onPrepare target parent thread
  | .commit k child => w.onCommit k child
  | .cancel k => w.onCancel k
  | .exit tid => w.onExit tid
  | .chargeMemory cgid kind bytes => w.onChargeMemory cgid kind bytes.toNat
  | .unchargeMemory k => w.onUnchargeMemory k
  | .chargeSwap cgid bytes => w.onChargeSwap cgid bytes.toNat
  | .unchargeSwap k => w.onUnchargeSwap k

end CgWorld

/-! ### What a call leaves as it was -/

namespace CgNode

/-- The place of a node in the tree. -/
def shape (n : CgNode) : String × Option ℕ × OrdMap String ℕ := (n.name, n.parent, n.children)

/-- A node without its members. -/
def withoutMembers (n : CgNode) : CgNode := { n with procs := ∅, threads := 0 }

/-- A node without the forks that hold it. -/
def withoutForks (n : CgNode) : CgNode := { n with pendingForks := 0, forkPins := 0 }

/-- A node without its charges. -/
def withoutLedger (n : CgNode) : CgNode :=
  { n with memory := .zero, swapCurrent := 0, maxEvents := 0 }

end CgNode

namespace CgTree

variable {t t' t'' : CgTree} {α β : Type} {F : CgNode → α} {G : CgNode → β}

/-- The same nodes are there, and `F` of each is what it was. -/
def Keeps (F : CgNode → α) (t t' : CgTree) : Prop :=
  ∀ k, (t'.nodes.get? k).map F = (t.nodes.get? k).map F

theorem Keeps.refl (F : CgNode → α) (t : CgTree) : Keeps F t t := fun _ => rfl

theorem Keeps.trans (h : Keeps F t t') (h' : Keeps F t' t'') : Keeps F t t'' :=
  fun k => (h' k).trans (h k)

theorem Keeps.modify (id : ℕ) {f : CgNode → CgNode} (hf : ∀ n, F (f n) = F n) :
    Keeps F t (t.modify id f) := by
  intro k
  rw [modify_get?]
  split
  · rw [Option.map_map]
    exact congrArg (fun g => (t.nodes.get? k).map g) (funext hf)
  · rfl

/-- What is a function of what is kept is kept. -/
theorem Keeps.proj (h : Keeps F t t') (g : α → β) (hg : ∀ n, G n = g (F n)) : Keeps G t t' := by
  intro k
  have hfun : G = g ∘ F := funext hg
  rw [hfun, ← Option.map_map, ← Option.map_map, h k]

theorem Keeps.get? (h : Keeps F t t') (hn : t'.nodes.get? k = some n') :
    ∃ n, t.nodes.get? k = some n ∧ F n' = F n := by
  have hk := h k
  rw [hn] at hk
  obtain ⟨n, hn', heq⟩ := Option.map_eq_some_iff.mp hk.symm
  exact ⟨n, hn', heq.symm⟩

theorem Keeps.get?' (h : Keeps F t t') (hn : t.nodes.get? k = some n) :
    ∃ n', t'.nodes.get? k = some n' ∧ F n' = F n := by
  have hk := h k
  rw [hn] at hk
  exact Option.map_eq_some_iff.mp hk

theorem Keeps.there (h : Keeps F t t') (hn : ∃ n, t.nodes.get? k = some n) :
    ∃ n', t'.nodes.get? k = some n' := by
  obtain ⟨n, hn⟩ := hn
  exact (h.get?' hn).imp fun _ => And.left

/-- `F` of every node is what it was, or the node is new. -/
def Stems (F : CgNode → α) (t t' : CgTree) : Prop :=
  ∀ k n', t'.nodes.get? k = some n' → (∃ n, t.nodes.get? k = some n ∧ F n' = F n) ∨
    t.nodes.get? k = none ∧ ∃ name p avail, n' = .new name p avail

theorem Keeps.stems (h : Keeps F t t') : Stems F t t' := fun _ _ hn => .inl (h.get? hn)

/-- The indices of tasks are what they were. -/
structure SameIndices (t t' : CgTree) : Prop where
  procCg : t'.procCg = t.procCg
  threadCg : t'.threadCg = t.threadCg
  exited : t'.exitedProcs = t.exitedProcs
  mounted : t'.mounted = t.mounted

/-- Nodes have changed, not in what `F` says of them, and nothing else. -/
structure Frame (F : CgNode → α) (t t' : CgTree) : Prop extends SameIndices t t' where
  nodes : Keeps F t t'
  nextId : t'.nextId = t.nextId

theorem Frame.refl (F : CgNode → α) (t : CgTree) : Frame F t t :=
  ⟨⟨rfl, rfl, rfl, rfl⟩, Keeps.refl F t, rfl⟩

theorem Frame.trans (h : Frame F t t') (h' : Frame F t' t'') : Frame F t t'' :=
  ⟨⟨h'.procCg.trans h.procCg, h'.threadCg.trans h.threadCg, h'.exited.trans h.exited,
    h'.mounted.trans h.mounted⟩, h.nodes.trans h'.nodes, h'.nextId.trans h.nextId⟩

theorem Frame.modify (t : CgTree) (k : ℕ) {f : CgNode → CgNode} (hf : ∀ n, F (f n) = F n) :
    Frame F t (t.modify k f) := by
  refine ⟨?_, Keeps.modify k hf, ?_⟩ <;> unfold CgTree.modify <;> split
  · exact ⟨rfl, rfl, rfl, rfl⟩
  · exact ⟨rfl, rfl, rfl, rfl⟩
  · rfl
  · rfl

/-- **Directories form a tree.** Every node but the root has a parent with a smaller id that lists
it under its name, and lists are of nodes that are there. -/
structure Formed (t : CgTree) : Prop where
  root : ∃ n, t.nodes.get? ROOT = some n ∧ n.parent = none
  parent : ∀ id n p, t.nodes.get? id = some n → n.parent = some p →
    p < id ∧ ∃ m, t.nodes.get? p = some m ∧ m.children.get? n.name = some id
  child : ∀ id n name c, t.nodes.get? id = some n → n.children.get? name = some c →
    ∃ m, t.nodes.get? c = some m ∧ m.parent = some id ∧ m.name = name
  orphan : ∀ id n, t.nodes.get? id = some n → n.parent = none → id = ROOT
  bound : ∀ id n, t.nodes.get? id = some n → id < t.nextId

theorem Keeps.formed (hk : Keeps CgNode.shape t t') (hid : t'.nextId = t.nextId) (h : t.Formed) :
    t'.Formed := by
  have hshape : ∀ {n n' : CgNode}, n'.shape = n.shape →
      n'.name = n.name ∧ n'.parent = n.parent ∧ n'.children = n.children := by
    intro n n' heq
    obtain ⟨hname, hrest⟩ := Prod.mk.inj heq
    exact ⟨hname, Prod.mk.inj hrest⟩
  constructor
  · obtain ⟨n, hn, hp⟩ := h.root
    obtain ⟨n', hn', heq⟩ := hk.get?' hn
    exact ⟨n', hn', (hshape heq).2.1.trans hp⟩
  · intro id n' p hn' hp
    obtain ⟨n, hn, heq⟩ := hk.get? hn'
    obtain ⟨hname, hparent, -⟩ := hshape heq
    obtain ⟨hlt, m, hm, hmc⟩ := h.parent id n p hn (hparent ▸ hp)
    obtain ⟨m', hm', hmeq⟩ := hk.get?' hm
    refine ⟨hlt, m', hm', ?_⟩
    rwa [(hshape hmeq).2.2, hname]
  · intro id n' name c hn' hc
    obtain ⟨n, hn, heq⟩ := hk.get? hn'
    rw [(hshape heq).2.2] at hc
    obtain ⟨m, hm, hmp, hmn⟩ := h.child id n name c hn hc
    obtain ⟨m', hm', hmeq⟩ := hk.get?' hm
    exact ⟨m', hm', (hshape hmeq).2.1.trans hmp, (hshape hmeq).1.trans hmn⟩
  · intro id n' hn' hp
    obtain ⟨n, hn, heq⟩ := hk.get? hn'
    exact h.orphan id n hn ((hshape heq).2.1 ▸ hp)
  intro id n' hn'
  obtain ⟨n, hn, -⟩ := hk.get? hn'
  rw [hid]
  exact h.bound id n hn

/-! ### New directories -/

/-- What creating a directory does. -/
structure Created (t t' : CgTree) (parent : ℕ) (name : String) (id : ℕ) : Prop where
  id_eq : id = t.nextId
  parent_there : ∃ p, t.nodes.get? parent = some p ∧ p.children.get? name = none ∧
    t'.nodes.get? parent = some { p with children := p.children.insert name id }
  new : ∃ p, t.nodes.get? parent = some p ∧
    t'.nodes.get? id = some (.new name (some parent) p.subtreeControl)
  other : ∀ k, k ≠ id → k ≠ parent → t'.nodes.get? k = t.nodes.get? k
  nextId : t'.nextId = t.nextId + 1
  rest : SameIndices t t'

theorem create_eq_ok {r : ℕ × BitVec 8} (h : t.Formed) (hc : t.create parent name = .ok (t', r)) :
    Created t t' parent name r.1 := by
  unfold create at hc
  split at hc
  · cases hc
  split at hc
  · cases hc
  rename_i p hp
  split at hc
  · cases hc
  case isFalse hnone =>
    have hne : parent ≠ t.nextId := (h.bound parent p hp).ne
    unfold allocIno at hc
    split at hc
    case h_1 hino =>
      split at hino
      · cases hino
      · cases hc
    case h_2 t1 hino =>
      split at hino
      · cases hino
        cases hc
        have hget := fun k => modify_get?
          (addNode { t with nextIno := t.nextIno + 1 } parent name p.subtreeControl) parent k
          fun p => { p with children := p.children.insert name t.nextId }
        have hframe := Frame.modify (F := fun _ => ())
          (addNode { t with nextIno := t.nextIno + 1 } parent name p.subtreeControl) parent
          (f := fun p => { p with children := p.children.insert name t.nextId }) fun _ => rfl
        have hins : ∀ k, (addNode { t with nextIno := t.nextIno + 1 } parent name
            p.subtreeControl).nodes.get? k =
            if k = t.nextId then some (.new name (some parent) p.subtreeControl)
            else t.nodes.get? k := fun k => get?_insert ..
        refine ⟨rfl, ⟨p, hp, ?_, ?_⟩, ⟨p, hp, ?_⟩, ?_, hframe.nextId,
          ⟨hframe.procCg, hframe.threadCg, hframe.exited, hframe.mounted⟩⟩
        · rwa [Option.not_isSome_iff_eq_none] at hnone
        · rw [hget, if_pos rfl, hins, if_neg hne, hp]
          rfl
        · rw [hget, if_neg hne.symm, hins, if_pos rfl]
        · intro k hk hkp
          rw [hget, if_neg hkp, hins, if_neg hk]
      · cases hino

section

variable (hc : Created t t' parent name id)
include hc

/-- A node that was there is what it was, but for its children. -/
theorem Created.get? (hn : t'.nodes.get? k = some n') (hk : k ≠ id) :
    ∃ n, t.nodes.get? k = some n ∧ n' = { n with children := n'.children } ∧
      ∀ nm, n'.children.get? nm =
        if k = parent ∧ nm = name then some id else n.children.get? nm := by
  obtain ⟨p, hp, -, hp'⟩ := hc.parent_there
  by_cases hkp : k = parent
  · subst hkp
    cases hp'.symm.trans hn
    refine ⟨p, hp, rfl, fun nm => ?_⟩
    rw [get?_insert]
    simp only [true_and]
  · refine ⟨n', (hc.other k hk hkp).symm.trans hn, rfl, fun nm => ?_⟩
    rw [if_neg fun hh => hkp hh.1]

theorem Created.get?' (h : t.Formed) (hn : t.nodes.get? k = some n) :
    k ≠ id ∧ ∃ n', t'.nodes.get? k = some n' ∧ n' = { n with children := n'.children } ∧
      ∀ nm, n'.children.get? nm =
        if k = parent ∧ nm = name then some id else n.children.get? nm := by
  have hk : k ≠ id := by
    rw [hc.id_eq]
    exact (h.bound k n hn).ne
  obtain ⟨p, hp, -, hp'⟩ := hc.parent_there
  by_cases hkp : k = parent
  · subst hkp
    cases hp.symm.trans hn
    refine ⟨hk, _, hp', rfl, fun nm => ?_⟩
    rw [get?_insert]
    simp only [true_and]
  · refine ⟨hk, n, (hc.other k hk hkp).trans hn, rfl, fun nm => ?_⟩
    rw [if_neg fun hh => hkp hh.1]

/-- The new node is the only one that is not what it was, but for its children. -/
theorem Created.stems (h : t.Formed) (hF : ∀ n c, F { n with children := c } = F n) :
    Stems F t t' := by
  intro k n' hn'
  by_cases hk : k = id
  · subst hk
    obtain ⟨_, -, hnew⟩ := hc.new
    cases hnew.symm.trans hn'
    refine .inr ⟨?_, name, some parent, _, rfl⟩
    cases hn : t.nodes.get? k with
    | none => rfl
    | some => exact absurd rfl (hc.get?' h hn).1
  · obtain ⟨n, hn, heq, -⟩ := hc.get? hn' hk
    rw [heq]
    exact .inl ⟨n, hn, hF ..⟩

theorem Created.there (h : t.Formed) (hn : ∃ n, t.nodes.get? k = some n) :
    ∃ n', t'.nodes.get? k = some n' := by
  obtain ⟨n, hn⟩ := hn
  exact (hc.get?' h hn).2.imp fun _ => And.left

theorem Created.formed (h : t.Formed) : t'.Formed := by
  obtain ⟨_, -, hnew⟩ := hc.new
  obtain ⟨p, hp, hfree, hp'⟩ := hc.parent_there
  constructor
  · obtain ⟨n, hn, hnp⟩ := h.root
    obtain ⟨-, n', hn', heq, -⟩ := hc.get?' h hn
    refine ⟨n', hn', ?_⟩
    rwa [heq]
  · intro k n' q hn' hq
    by_cases hk : k = id
    · subst hk
      cases hnew.symm.trans hn'
      cases hq
      refine ⟨?_, _, hp', (get?_insert ..).trans (if_pos rfl)⟩
      rw [hc.id_eq]
      exact h.bound parent p hp
    obtain ⟨n, hn, heq, -⟩ := hc.get? hn' hk
    rw [heq] at hq
    obtain ⟨hlt, m, hm, hmc⟩ := h.parent k n q hn hq
    obtain ⟨-, m', hm', -, hch⟩ := hc.get?' h hm
    refine ⟨hlt, m', hm', ?_⟩
    rw [hch, heq, if_neg ?_]
    · exact hmc
    rintro ⟨rfl, hnm⟩
    cases hp.symm.trans hm
    rw [hnm, hfree] at hmc
    cases hmc
  · intro k n' nm c hn' hcc
    by_cases hk : k = id
    · subst hk
      cases hnew.symm.trans hn'
      cases hcc
    obtain ⟨n, hn, heq, hch⟩ := hc.get? hn' hk
    rw [hch] at hcc
    split at hcc
    case isTrue hh =>
      obtain ⟨rfl, rfl⟩ := hh
      cases hcc
      exact ⟨_, hnew, rfl, rfl⟩
    obtain ⟨m, hm, hmp, hmn⟩ := h.child k n nm c hn hcc
    obtain ⟨-, m', hm', hmeq, -⟩ := hc.get?' h hm
    refine ⟨m', hm', ?_, ?_⟩
    · rwa [hmeq]
    · rwa [hmeq]
  · intro k n' hn' hq
    by_cases hk : k = id
    · subst hk
      cases hnew.symm.trans hn'
      cases hq
    · obtain ⟨n, hn, heq, -⟩ := hc.get? hn' hk
      rw [heq] at hq
      exact h.orphan k n hn hq
  intro k n' hn'
  rw [hc.nextId]
  by_cases hk : k = id
  · rw [hk, hc.id_eq]
    exact Nat.lt_succ_self _
  · obtain ⟨n, hn, -⟩ := hc.get? hn' hk
    exact (h.bound k n hn).trans (Nat.lt_succ_self _)

end

/-! ### Removed directories -/

/-- What removing a directory does. -/
structure Removed (t t' : CgTree) (id : ℕ) (n : CgNode) : Prop where
  not_root : id ≠ ROOT
  there : t.nodes.get? id = some n
  idle : t.busy id n = false
  gone : t'.nodes.get? id = none
  other : ∀ k, k ≠ id → ∀ m, t.nodes.get? k = some m → ∃ m', t'.nodes.get? k = some m' ∧
    m' = { m with children := m'.children } ∧
    ∀ nm, m'.children.get? nm = if n.parent = some k ∧ nm = n.name then none
      else m.children.get? nm
  only : ∀ k m', t'.nodes.get? k = some m' → ∃ m, t.nodes.get? k = some m
  nextId : t'.nextId = t.nextId
  rest : SameIndices t t'

theorem unlink_get? (t : CgTree) (n : CgNode) (k : ℕ) :
    (t.unlink n).nodes.get? k =
      if n.parent = some k then
        (t.nodes.get? k).map fun p => { p with children := p.children.erase n.name }
      else t.nodes.get? k := by
  unfold unlink
  split
  case h_1 hp =>
    rw [if_neg fun h => by rw [hp] at h; cases h]
  rename_i p hp
  rw [modify_get?, hp]
  by_cases hk : k = p
  · rw [if_pos hk, if_pos (congrArg some hk.symm)]
  · rw [if_neg hk, if_neg fun h => hk (Option.some.inj h).symm]

theorem remove_eq_ok (hr : t.remove id = .ok t') : ∃ n, Removed t t' id n := by
  unfold remove at hr
  split at hr
  · cases hr
  rename_i hroot
  split at hr
  · cases hr
  case h_2 n hn =>
    split at hr
    · cases hr
    case isFalse hbusy =>
      cases hr
      have hget : ∀ k, ((t.unlink n).dropNode id n).nodes.get? k =
          if k = id then none else (t.unlink n).nodes.get? k := fun k => get?_erase ..
      have hframe : Frame (fun _ => ()) t (t.unlink n) := by
        unfold unlink
        split
        · exact Frame.refl _ t
        · exact Frame.modify t _ fun _ => rfl
      refine ⟨n, hroot, hn, Bool.eq_false_iff.mpr hbusy, ?_, ?_, ?_, hframe.nextId,
        ⟨hframe.procCg, hframe.threadCg, hframe.exited, hframe.mounted⟩⟩
      · rw [hget, if_pos rfl]
      · intro k hk m hm
        rw [hget, if_neg hk, unlink_get?, hm]
        split_ifs with hp
        · refine ⟨_, rfl, rfl, fun nm => ?_⟩
          rw [get?_erase]
          simp only [hp, true_and]
        refine ⟨m, rfl, rfl, fun nm => ?_⟩
        rw [if_neg fun hh => hp hh.1]
      · intro k m' hm'
        rw [hget] at hm'
        split at hm'
        · cases hm'
        rw [unlink_get?] at hm'
        split at hm'
        · obtain ⟨m, hm, -⟩ := Option.map_eq_some_iff.mp hm'
          exact ⟨m, hm⟩
        · exact ⟨m', hm'⟩

theorem Removed.get? (hr : Removed t t' id n) {m' : CgNode} (hm' : t'.nodes.get? k = some m') :
    k ≠ id ∧ ∃ m, t.nodes.get? k = some m ∧ m' = { m with children := m'.children } ∧
      ∀ nm, m'.children.get? nm = if n.parent = some k ∧ nm = n.name then none
        else m.children.get? nm := by
  have hk : k ≠ id := by
    rintro rfl
    cases hr.gone.symm.trans hm'
  obtain ⟨m, hm⟩ := hr.only k m' hm'
  obtain ⟨m'', hm'', heq, hch⟩ := hr.other k hk m hm
  cases hm''.symm.trans hm'
  exact ⟨hk, m, hm, heq, hch⟩

theorem Removed.stems (hr : Removed t t' id n) (hF : ∀ n c, F { n with children := c } = F n) :
    Stems F t t' := by
  intro k m' hm'
  obtain ⟨-, m, hm, heq, -⟩ := hr.get? hm'
  rw [heq]
  exact .inl ⟨m, hm, hF ..⟩

theorem Removed.remains (hr : Removed t t' id n) (hk : k ≠ id) (hm : ∃ m, t.nodes.get? k = some m) :
    ∃ m', t'.nodes.get? k = some m' := by
  obtain ⟨m, hm⟩ := hm
  exact (hr.other k hk m hm).imp fun _ => And.left

/-- A removed directory had no children. -/
theorem Removed.childless (hr : Removed t t' id n) (nm : String) : n.children.get? nm = none := by
  cases hc : n.children.get? nm with
  | none => rfl
  | some =>
  have hidle := hr.idle
  unfold busy at hidle
  simp only [Bool.or_eq_false_iff, decide_eq_false_iff_not, not_not] at hidle
  have hmem := mem_values_iff.mpr ⟨nm, hc⟩
  simp [hidle.1.1.1.1.1.1] at hmem

theorem Removed.formed (hr : Removed t t' id n) (h : t.Formed) : t'.Formed := by
  -- a child of a node that stays is another one
  have hstays : ∀ {k m nm c}, t.nodes.get? k = some m → m.children.get? nm = some c → c = id →
      n.parent = some k ∧ nm = n.name := by
    rintro k m nm c hm hc rfl
    obtain ⟨n', hn', hp, hnm⟩ := h.child k m nm c hm hc
    cases hr.there.symm.trans hn'
    exact ⟨hp, hnm.symm⟩
  constructor
  · obtain ⟨m, hm, hp⟩ := h.root
    obtain ⟨m', hm', heq, -⟩ := hr.other ROOT hr.not_root.symm m hm
    refine ⟨m', hm', ?_⟩
    rwa [heq]
  · intro k m' p hm' hp
    obtain ⟨hk, m, hm, heq, -⟩ := hr.get? hm'
    rw [heq] at hp
    obtain ⟨hlt, q, hq, hqc⟩ := h.parent k m p hm hp
    have hpid : p ≠ id := by
      rintro rfl
      cases hr.there.symm.trans hq
      simp [hr.childless] at hqc
    obtain ⟨q', hq', -, hch⟩ := hr.other p hpid q hq
    refine ⟨hlt, q', hq', ?_⟩
    rw [hch, heq, if_neg ?_]
    · exact hqc
    rintro ⟨hnp, hnm⟩
    -- two children of one node under one name
    obtain ⟨-, r, hr', hrc⟩ := h.parent id n p hr.there hnp
    cases hr'.symm.trans hq
    rw [← hnm] at hrc
    exact hk (Option.some.inj (hqc.symm.trans hrc))
  · intro k m' nm c hm' hc
    obtain ⟨hk, m, hm, heq, hch⟩ := hr.get? hm'
    rw [hch] at hc
    split at hc
    · cases hc
    rename_i hno
    obtain ⟨q, hq, hqp, hqn⟩ := h.child k m nm c hm hc
    obtain ⟨q', hq', hqeq, -⟩ := hr.other c (fun hcid => hno (hstays hm hc hcid)) q hq
    refine ⟨q', hq', ?_, ?_⟩
    · rwa [hqeq]
    · rwa [hqeq]
  · intro k m' hm' hp
    obtain ⟨-, m, hm, heq, -⟩ := hr.get? hm'
    rw [heq] at hp
    exact h.orphan k m hm hp
  · intro k m' hm'
    obtain ⟨-, m, hm, -⟩ := hr.get? hm'
    rw [hr.nextId]
    exact h.bound k m hm

/-! ### Charges -/

/-- Only the ledgers of nodes have changed. -/
abbrev LedgerFrame := Frame CgNode.withoutLedger

variable (t : CgTree)

theorem addMemory_frame (cgid : ℕ) (kind : MemoryKind) (bytes : ℕ) :
    LedgerFrame t (t.addMemory cgid kind bytes) := Frame.modify t cgid fun _ => rfl

theorem addSwap_frame (cgid bytes : ℕ) : LedgerFrame t (t.addSwap cgid bytes) :=
  Frame.modify t cgid fun _ => rfl

theorem tryChargeMemoryTransition_frame (cgid : ℕ) (kind : MemoryKind) (bytes : ℕ) :
    LedgerFrame t (t.tryChargeMemoryTransition cgid kind bytes).1 := by
  unfold tryChargeMemoryTransition
  split
  · exact Frame.refl _ t
  split
  · exact Frame.refl _ t
  · split
    · exact Frame.modify t cgid fun _ => rfl
    · exact addMemory_frame t cgid kind bytes

theorem unchargeMemory_frame (cgid : ℕ) (kind : MemoryKind) (bytes : ℕ) :
    LedgerFrame t (t.unchargeMemory cgid kind bytes) := by
  unfold unchargeMemory
  split
  · exact Frame.refl _ t
  · exact Frame.modify t cgid fun _ => rfl

theorem tryChargeSwap_frame (cgid bytes : ℕ) : LedgerFrame t (t.tryChargeSwap cgid bytes).1 := by
  unfold tryChargeSwap
  split
  · exact Frame.refl _ t
  split
  · exact Frame.refl _ t
  · split
    · exact Frame.refl _ t
    · exact addSwap_frame t cgid bytes

theorem unchargeSwap_frame (cgid bytes : ℕ) : LedgerFrame t (t.unchargeSwap cgid bytes) := by
  unfold unchargeSwap
  split
  · exact Frame.refl _ t
  · exact Frame.modify t cgid fun _ => rfl

end CgTree

end Oxide
