/-
The fair runqueue hierarchy and its EEVDF pick.

A `CfsRunqueue` has a tree of tasks and the child queues of its groups, each behind a
parent-facing entity. `pickLeftmost` descends from the root, on each level to the entity with the
best key, and detaches the task it arrives at.

* `better_iff`: the four-way comparison of keys is the comparison of one number;
* `CfsRunqueue.pickEntity`, `pickOne`, `pickLeftmost`: the search of a level, and the descent.

Design notes: virtual times are 64-bit and wrap. The weight of a task is that of its nice value,
or of the idle policy; `vlag`, slices and the load averages play no part in a pick. A release
build is modelled: integer sums wrap where they do not saturate.
-/
import Oxide.ClassTree
import Oxide.Serial
import Mathlib.Data.List.Perm.Subperm
import Mathlib.Data.List.Nodup

namespace Oxide

open List

/-- `SCHED_PRIO_TO_WEIGHT`, by nice value from -20 to 19. -/
def SCHED_PRIO_TO_WEIGHT : List ℕ :=
  [88761, 71755, 56483, 46273, 36291, 29154, 23254, 18705, 14949, 11916, 9548, 7620, 6100, 4904,
    3906, 3121, 2501, 1991, 1586, 1277, 1024, 820, 655, 526, 423, 335, 272, 215, 172, 137, 110, 87,
    70, 56, 45, 36, 29, 23, 18, 15]

/-- The load of a fair task: a nice value by its slot in the table, or the idle policy. -/
inductive LoadWeight
  | forNice (slot : Fin 40)
  | idle
  deriving DecidableEq

/-- The weight as it is stored, shifted up by `SCHED_FIXEDPOINT_SHIFT`. -/
def LoadWeight.weight : LoadWeight → ℕ
  | .forNice slot => SCHED_PRIO_TO_WEIGHT.getD slot 0 * 2 ^ 10
  | .idle => 3 * 2 ^ 10

/-- A fair task, as the pick reads it. -/
structure FairTask where
  tid : UInt32
  vruntime : BitVec 64
  deadline : BitVec 64
  load : LoadWeight
  /-- The queue that has claimed the task. -/
  classRqOwner : ℕ
  onRq : Bool
  deriving DecidableEq

def taskWeight (t : FairTask) : ℕ := max (t.load.weight / 2 ^ 10) 1

/-- The parent-facing entity of a task group. -/
structure GroupEntity where
  id : UInt64
  shares : UInt32
  vruntime : BitVec 64
  deadline : BitVec 64
  deriving DecidableEq

def GroupEntity.weight (g : GroupEntity) : ℕ := max g.shares.toNat 1

/-- The fair queue of one group. -/
inductive CfsRunqueue
  | mk (queueId : ℕ) (tree : ClassTree FairTask) (nrRunning : ℕ)
      (children : List (GroupEntity × CfsRunqueue))

namespace CfsRunqueue

def queueId : CfsRunqueue → ℕ
  | mk q _ _ _ => q

def tree : CfsRunqueue → ClassTree FairTask
  | mk _ t _ _ => t

def nrRunning : CfsRunqueue → ℕ
  | mk _ _ n _ => n

/-- The groups in the order of their ids. -/
def children : CfsRunqueue → List (GroupEntity × CfsRunqueue)
  | mk _ _ _ c => c

/-- The groups with a task queued below them. -/
def queuedGroups (rq : CfsRunqueue) : List GroupEntity :=
  (rq.children.filter fun c => c.2.nrRunning ≠ 0).map Prod.fst

end CfsRunqueue

/-! ### Keys -/

/-- What entities are compared by. -/
structure PickKey where
  eligible : Bool
  deadline : BitVec 64
  id : UInt64
  group : Bool

/-- The comparison of product and sum, which avoids the division of the average. -/
def eligible (sumWVruntime : Int) (totalWeight : ℕ) (floor vruntime : BitVec 64) : Bool :=
  if totalWeight = 0 then false
  else Serial.dist floor vruntime * totalWeight ≤ sumWVruntime

/-- The key of an entity. -/
def entityKey (sum : Int) (total : ℕ) (floor vruntime deadline : BitVec 64) (id : UInt64)
    (group : Bool) : PickKey :=
  ⟨eligible sum total floor vruntime, deadline, id, group⟩

/-- The first key is to be preferred. -/
def better (a b : PickKey) : Bool :=
  if a.eligible ≠ b.eligible then a.eligible
  else if a.deadline ≠ b.deadline then a.deadline < b.deadline
  else if a.id ≠ b.id then a.id < b.id
  else !a.group && b.group

/-- The key as one number: eligibility first, then the deadline, the id, and tasks before
groups. -/
def PickKey.rank (k : PickKey) : ℕ :=
  (((if k.eligible then 0 else 1) * 2 ^ 64 + k.deadline.toNat) * 2 ^ 64 + k.id.toNat) * 2 +
    (if k.group then 1 else 0)

/-- **The comparison of keys is the comparison of their numbers.** -/
theorem better_iff (a b : PickKey) : better a b = true ↔ a.rank < b.rank := by
  have hai := a.id.toNat_lt
  have hbi := b.id.toNat_lt
  have hag : (if a.group then 1 else 0) < 2 := by split <;> decide
  have hbg : (if b.group then 1 else 0) < 2 := by split <;> decide
  unfold better PickKey.rank
  by_cases he : a.eligible = b.eligible
  · rw [if_neg (fun h => h he), he]
    by_cases hd : a.deadline = b.deadline
    · rw [if_neg (fun h => h hd), hd]
      by_cases hi : a.id = b.id
      · rw [hi]
        cases a.group <;> cases b.group <;> simp
      · have hi' : a.id.toNat ≠ b.id.toNat := fun h => hi (UInt64.toNat_inj.mp h)
        rw [if_pos hi, decide_eq_true_iff, UInt64.lt_iff_toNat_lt]
        omega
    · have hd' : a.deadline.toNat ≠ b.deadline.toNat := fun h => hd (BitVec.eq_of_toNat_eq h)
      rw [if_pos hd, decide_eq_true_iff, BitVec.lt_def]
      omega
  rw [if_pos he]
  cases ha : a.eligible <;> cases hb : b.eligible
  · exact absurd (ha.trans hb.symm) he
  · simp only [Bool.false_eq_true, if_true, if_false, false_iff]
    omega
  · simp only [Bool.false_eq_true, if_true, if_false, true_iff]
    omega
  · exact absurd (ha.trans hb.symm) he

/-! ### One level -/

namespace CfsRunqueue

/-- The least clock value of a list, compared as plain numbers. -/
def minClock : List (BitVec 64) → Option (BitVec 64)
  | [] => none
  | x :: xs => match minClock xs with
    | none => some x
    | some y => some (if y < x then y else x)

section

variable (rq : CfsRunqueue)

/-- The lowest virtual runtime of a queued entity, or zero. -/
def minVruntime : BitVec 64 :=
  (minClock (rq.queuedGroups.map (·.vruntime) ++ (rq.tree.first.map (·.vruntime)).toList)).getD 0

/-- The floor, the total weight and the weighted sum of the distances from the floor. -/
def stats : BitVec 64 × ℕ × Int :=
  let floor := rq.minVruntime
  let taskWeightSum := rq.tree.sum (2 ^ 64 - 1) taskWeight
  let groupWeightSum := (rq.queuedGroups.map (·.weight)).sum % 2 ^ 64
  let total := min (taskWeightSum + groupWeightSum) (2 ^ 64 - 1)
  let taskSum := rq.tree.sumInt (2 ^ 127) fun t =>
    Serial.dist floor t.vruntime * (taskWeight t : Int)
  let groupSum := (rq.queuedGroups.map fun g =>
    Serial.dist floor g.vruntime * (g.weight : Int)).sum.bmod (2 ^ 128)
  (floor, total, ClassTree.clampInt (2 ^ 127) (taskSum + groupSum))

/-- What a level chooses. -/
inductive Choice
  | task (t : FairTask)
  | group (id : UInt64)
  deriving DecidableEq

def taskKey (floor : BitVec 64) (total : ℕ) (sum : Int) (t : FairTask) : PickKey :=
  entityKey sum total floor t.vruntime t.deadline (UInt64.ofNat t.tid.toNat) false

def groupKey (floor : BitVec 64) (total : ℕ) (sum : Int) (g : GroupEntity) : PickKey :=
  entityKey sum total floor g.vruntime g.deadline g.id true

/-- The best of the queued tasks, then of the groups in their order. -/
def bestQueued (floor : BitVec 64) (total : ℕ) (sum : Int) : Option (PickKey × Choice) :=
  let task := rq.tree.findBest fun a b => better (taskKey floor total sum a)
    (taskKey floor total sum b)
  let best := task.map fun t => (taskKey floor total sum t, Choice.task t)
  (rq.queuedGroups.map fun g => (groupKey floor total sum g, Choice.group g.id)).foldl
    (ClassTree.improve fun a b => better a.1 b.1) best

/-- The choice of a level. -/
def pickEntity : Option Choice :=
  let (floor, total, sum) := rq.stats
  if total = 0 then none else (rq.bestQueued floor total sum).map Prod.snd

/-! ### The descent -/

/-- The `expect`s of a pick. -/
inductive FairPanic
  | selectedFairGroupDisappeared
  | fairQueueClaimLacksTreeNode
  deriving DecidableEq

/-- Detach a task of this level. -/
def removeLocal (t : FairTask) : Except FairPanic (Option (FairTask × CfsRunqueue)) :=
  if t.classRqOwner ≠ rq.queueId then .ok none
  else match rq.tree.remove (· = t) with
    | none => .error .fairQueueClaimLacksTreeNode
    | some (removed, tree) =>
      .ok (some ({ removed with onRq := false, classRqOwner := 0 },
        mk rq.queueId tree (rq.nrRunning - 1) rq.children))

end

mutual

/-- One descent to a task, which is detached. -/
def pickOne : CfsRunqueue → Except FairPanic (Option (FairTask × CfsRunqueue))
  | mk q tree n children =>
    match (mk q tree n children).pickEntity with
    | none => .ok none
    | some (.task t) => (mk q tree n children).removeLocal t
    | some (.group id) =>
      match pickChild id children with
      | none => .error .selectedFairGroupDisappeared
      | some (.error p) => .error p
      | some (.ok none) => .ok none
      | some (.ok (some (t, children'))) => .ok (some (t, mk q tree (n - 1) children'))

/-- The descent below the group of this id, if there is one. -/
def pickChild (id : UInt64) : List (GroupEntity × CfsRunqueue) →
    Option (Except FairPanic (Option (FairTask × List (GroupEntity × CfsRunqueue))))
  | [] => none
  | c :: cs =>
    if c.1.id = id then
      some (match pickBelow c with
        | .error p => .error p
        | .ok none => .ok none
        | .ok (some (t, rq)) => .ok (some (t, (c.1, rq) :: cs)))
    else (pickChild id cs).map fun r => match r with
      | .error p => .error p
      | .ok none => .ok none
      | .ok (some (t, cs')) => .ok (some (t, c :: cs'))

/-- The descent below one group. -/
def pickBelow : GroupEntity × CfsRunqueue → Except FairPanic (Option (FairTask × CfsRunqueue))
  | (_, rq) => pickOne rq

end

/-- A pick from the root. -/
def pickLeftmost (rq : CfsRunqueue) : Except FairPanic (Option (FairTask × CfsRunqueue)) :=
  rq.pickOne

/-! ### The hierarchy -/

mutual

/-- Every task queued on this level or below. -/
def allTasks : CfsRunqueue → List FairTask
  | mk _ tree _ children => tree.toList ++ childTasks children

def childTasks : List (GroupEntity × CfsRunqueue) → List FairTask
  | [] => []
  | c :: cs => tasksBelow c ++ childTasks cs

def tasksBelow : GroupEntity × CfsRunqueue → List FairTask
  | (_, rq) => allTasks rq

end

theorem childTasks_eq (cs : List (GroupEntity × CfsRunqueue)) :
    childTasks cs = cs.flatMap fun c => c.2.allTasks := by
  induction cs with
  | nil => rfl
  | cons c cs ih =>
    rw [childTasks, flatMap_cons, ih, tasksBelow]

theorem allTasks_eq (rq : CfsRunqueue) :
    rq.allTasks = rq.tree.toList ++ rq.children.flatMap fun c => c.2.allTasks := by
  cases rq with
  | mk =>
    rw [allTasks, childTasks_eq]
    rfl

/-- The level is the queue itself or the queue of a group below it. -/
inductive Below : CfsRunqueue → CfsRunqueue → Prop
  | refl (rq : CfsRunqueue) : Below rq rq
  | child {rq level : CfsRunqueue} {c : GroupEntity × CfsRunqueue} (hc : c ∈ rq.children)
      (h : Below c.2 level) : Below rq level

/-- What the queue operations keep on one level: its tasks are claimed by it, the count is zero
only where nothing is queued below, and group ids are distinct. -/
structure LevelOk (rq : CfsRunqueue) : Prop where
  claimed : ∀ t ∈ rq.tree.toList, t.classRqOwner = rq.queueId
  counted : rq.nrRunning = 0 ↔ rq.allTasks = []
  ids : (rq.children.map fun c => c.1.id).Nodup

/-- A hierarchy as the queue operations leave it: every level is in order, and a task is queued
once. -/
structure WellFormed (rq : CfsRunqueue) : Prop where
  level : ∀ level, Below rq level → level.LevelOk
  tids : (rq.allTasks.map (·.tid)).Nodup

variable {rq : CfsRunqueue}

variable {c : GroupEntity × CfsRunqueue}

theorem sublist_of_mem_children (hc : c ∈ rq.children) : c.2.allTasks.Sublist rq.allTasks := by
  rw [allTasks_eq rq]
  obtain ⟨cs, ds, hcs⟩ := append_of_mem hc
  rw [hcs, flatMap_append]
  refine List.Sublist.trans ?_ (sublist_append_right _ _)
  refine List.Sublist.trans ?_ (sublist_append_right _ _)
  exact sublist_append_left _ _

theorem WellFormed.child (h : rq.WellFormed)
    (hc : c ∈ rq.children) : c.2.WellFormed where
  level level hl := h.level level (.child hc hl)
  tids := h.tids.sublist ((sublist_of_mem_children hc).map _)

theorem WellFormed.below (h : rq.WellFormed) {level : CfsRunqueue} (hl : Below rq level) :
    level.WellFormed := by
  induction hl with
  | refl => exact h
  | child hc _ ih => exact ih (h.child hc)

/-- What is shown of a queue from its groups' queues holds of every queue. -/
theorem induct {motive : CfsRunqueue → Prop}
    (h : ∀ rq, (∀ c ∈ rq.children, motive c.2) → motive rq) (rq : CfsRunqueue) : motive rq := by
  refine @CfsRunqueue.rec motive (fun cs => ∀ c ∈ cs, motive c.2) (fun c => motive c.2)
    ?_ ?_ ?_ ?_ rq
  · intro q tree n children ih
    exact h _ ih
  · intro c hc
    cases hc
  · intro c cs hc hcs d hd
    rcases mem_cons.mp hd with rfl | hd
    · exact hc
    · exact hcs d hd
  · intro g rq hrq
    exact hrq

/-! ### The entities of a level -/

/-- A queued entity, a task or a group. -/
structure FairEntity where
  vruntime : BitVec 64
  deadline : BitVec 64
  weight : ℕ
  choice : Choice

def taskEntity (t : FairTask) : FairEntity := ⟨t.vruntime, t.deadline, taskWeight t, .task t⟩

def groupEntity (g : GroupEntity) : FairEntity := ⟨g.vruntime, g.deadline, g.weight, .group g.id⟩

/-- The entities that compete on this level. -/
def entities (rq : CfsRunqueue) : List FairEntity :=
  rq.tree.toList.map taskEntity ++ rq.queuedGroups.map groupEntity

def weightSum (es : List FairEntity) : ℕ := (es.map (·.weight)).sum

def totalWeight (rq : CfsRunqueue) : ℕ := weightSum rq.entities

theorem LoadWeight.weight_le (l : LoadWeight) : l.weight / 2 ^ 10 ≤ 88761 := by
  cases l with
  | forNice slot => revert slot; decide
  | idle => decide

/-- Every weight is a positive 32-bit number. -/
theorem weight_bounds {e : FairEntity} (he : e ∈ rq.entities) :
    1 ≤ e.weight ∧ e.weight < 2 ^ 32 := by
  rcases mem_append.mp he with he | he
  · obtain ⟨t, -, rfl⟩ := mem_map.mp he
    have := LoadWeight.weight_le t.load
    show 1 ≤ max (t.load.weight / 2 ^ 10) 1 ∧ max (t.load.weight / 2 ^ 10) 1 < 2 ^ 32
    omega
  obtain ⟨g, -, rfl⟩ := mem_map.mp he
  have := g.shares.toNat_lt
  show 1 ≤ max g.shares.toNat 1 ∧ max g.shares.toNat 1 < 2 ^ 32
  omega

theorem queuedGroups_length_le (cs : List (GroupEntity × CfsRunqueue))
    (h : ∀ c ∈ cs, c.2.nrRunning ≠ 0 → c.2.allTasks ≠ []) :
    (cs.filter fun c => c.2.nrRunning ≠ 0).length ≤ (cs.flatMap fun c => c.2.allTasks).length := by
  induction cs with
  | nil => exact Nat.le_refl _
  | cons c cs ih =>
  have ih' := ih fun d hd => h d (mem_cons_of_mem _ hd)
  rw [flatMap_cons, length_append, filter_cons]
  split_ifs with hn
  · have hne := h c mem_cons_self (of_decide_eq_true hn)
    have hpos := length_pos_iff.mpr hne
    rw [length_cons]
    omega
  · omega

/-- Thread ids have 32 bits, and every queued group has a task of its own. -/
theorem WellFormed.entities_length_le (h : rq.WellFormed) : rq.entities.length ≤ 2 ^ 32 := by
  have htids : rq.allTasks.length ≤ 2 ^ 32 := by
    have hnodup : (rq.allTasks.map fun t => t.tid.toNat).Nodup := by
      have hinj : Function.Injective UInt32.toNat := fun a b hab => UInt32.toNat_inj.mp hab
      have hmap := List.Nodup.map hinj h.tids
      rwa [map_map] at hmap
    have hsub : (rq.allTasks.map fun t => t.tid.toNat) ⊆ List.range (2 ^ 32) := by
      intro n hn
      obtain ⟨t, -, rfl⟩ := mem_map.mp hn
      exact mem_range.mpr t.tid.toNat_lt
    have := (subperm_of_subset hnodup hsub).length_le
    rwa [length_map, length_range] at this
  have hgroups : rq.queuedGroups.length ≤ (rq.children.flatMap fun c => c.2.allTasks).length := by
    rw [queuedGroups, length_map]
    refine queuedGroups_length_le rq.children fun c hc hn hnil => hn ?_
    exact ((h.level c.2 (.child hc (.refl _))).counted).mpr hnil
  rw [allTasks_eq, length_append] at htids
  rw [entities, length_append, length_map, length_map]
  omega

@[simp]
theorem weightSum_nil : weightSum [] = 0 := rfl

@[simp]
theorem weightSum_cons (e : FairEntity) (es : List FairEntity) :
    weightSum (e :: es) = e.weight + weightSum es := rfl

theorem weightSum_append (es fs : List FairEntity) :
    weightSum (es ++ fs) = weightSum es + weightSum fs := by
  unfold weightSum
  rw [map_append, sum_append]

theorem weightSum_le_length_mul {es : List FairEntity} {b : ℕ} (h : ∀ e ∈ es, e.weight ≤ b) :
    weightSum es ≤ es.length * b := by
  induction es with
  | nil => simp
  | cons e es ih =>
  have h1 := h e mem_cons_self
  have h2 := ih fun d hd => h d (mem_cons_of_mem _ hd)
  rw [weightSum_cons, length_cons, Nat.add_mul]
  omega

/-- **The weights of a level fit 64 bits.** -/
theorem WellFormed.totalWeight_lt (h : rq.WellFormed) : rq.totalWeight < 2 ^ 64 := by
  have hlen := h.entities_length_le
  have hsum : rq.totalWeight ≤ rq.entities.length * (2 ^ 32 - 1) :=
    weightSum_le_length_mul fun e he => by have := (weight_bounds he).2; omega
  omega

end CfsRunqueue

end Oxide
