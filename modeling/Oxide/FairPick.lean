/-
What the EEVDF pick chooses.

An entity is eligible if its virtual runtime is at most the weighted average of its level, that
is, if the weighted distances from it to all entities of the level do not sum below zero.

* `stats_eq`: the sums of a level neither saturate nor wrap;
* `eligible_iff`: the test in product space decides eligibility, whatever entity the floor is;
* `exists_eligible`: every non-empty level has an eligible entity;
* `pickOne_spec`: a pick detaches one task of the hierarchy, and no `expect` of it fires;
* `pickLeftmost_wellFormed`: and leaves the hierarchy in order;
* `eevdfPick_iff`: **the pick takes an eligible entity of earliest virtual deadline on every level
  of its descent exactly if the deadlines of the eligible entities there are in the same order as
  plain numbers**;
* `wrappedDeadline_misses`: with a deadline past the end of the clock it takes the later one.
-/
import Oxide.FairQueue
import Mathlib.Order.WellFounded

namespace Oxide.CfsRunqueue

open List Serial ClassTree

variable {rq : CfsRunqueue}
variable {level : CfsRunqueue} {e : FairEntity} {es : List FairEntity}
variable (x : BitVec 64)

/-- The weighted sum of the distances from a virtual time to the entities. -/
def lagSum (es : List FairEntity) : Int :=
  (es.map fun e => dist x e.vruntime * (e.weight : Int)).sum

/-- The virtual runtime of the entity is at most the weighted average of its level. -/
def Eligible (rq : CfsRunqueue) (e : FairEntity) : Prop := 0 ≤ lagSum e.vruntime rq.entities

instance (rq : CfsRunqueue) (e : FairEntity) : Decidable (rq.Eligible e) :=
  inferInstanceAs (Decidable (_ ≤ _))

/-- The virtual runtimes of a level lie within half of the clock range, and so do its
deadlines. -/
structure HalfRange (rq : CfsRunqueue) : Prop where
  vruntime : ∃ base, ∀ e ∈ rq.entities, Serial.InHalf base e.vruntime
  deadline : ∃ base, ∀ e ∈ rq.entities, Serial.InHalf base e.deadline

/-! ### The sums of a level -/

theorem natAbs_dist_le (a b : BitVec 64) : (dist a b).natAbs ≤ 2 ^ 63 := by
  have h1 := BitVec.le_two_mul_toInt (x := b - a)
  have h2 := BitVec.two_mul_toInt_lt (x := b - a)
  unfold Serial.dist
  omega

/-- The magnitudes of weighted distances are bounded by the weights. -/
theorem sum_natAbs_le (es : List FairEntity) :
    (es.map fun e => ((dist x e.vruntime * (e.weight : Int)).natAbs : Int)).sum ≤
      2 ^ 63 * (weightSum es : Int) := by
  induction es with
  | nil => simp
  | cons e =>
  have h := natAbs_dist_le x e.vruntime
  have hmul : (dist x e.vruntime * (e.weight : Int)).natAbs ≤ 2 ^ 63 * e.weight := by
    rw [Int.natAbs_mul]
    exact Nat.mul_le_mul_right _ h
  rw [map_cons, sum_cons, weightSum_cons]
  omega

theorem natAbs_lagSum_le (es : List FairEntity) :
    ((lagSum x es).natAbs : Int) ≤ 2 ^ 63 * (weightSum es : Int) := by
  have h1 := natAbs_sum_le
    (fun e : FairEntity => dist x e.vruntime * (e.weight : Int)) es
  have h2 := sum_natAbs_le x es
  unfold lagSum
  omega

theorem lagSum_cons (e : FairEntity) (es : List FairEntity) :
    lagSum x (e :: es) = dist x e.vruntime * (e.weight : Int) + lagSum x es := by
  unfold lagSum
  rw [map_cons, sum_cons]

/-- **The sums of a level neither saturate nor wrap.** -/
theorem stats_eq (h : rq.WellFormed) :
    rq.stats = (rq.minVruntime, rq.totalWeight, lagSum rq.minVruntime rq.entities) := by
  have hw := h.totalWeight_lt
  let tasks := rq.tree.toList.map taskEntity
  let groups := rq.queuedGroups.map groupEntity
  have htotal : rq.totalWeight = weightSum tasks + weightSum groups := weightSum_append _ _
  have hsplit : lagSum rq.minVruntime rq.entities =
      lagSum rq.minVruntime tasks + lagSum rq.minVruntime groups := by
    unfold lagSum
    rw [← sum_append, ← map_append]
    rfl
  have htasks : (rq.tree.toList.map taskWeight).sum = weightSum tasks := by
    rw [weightSum, map_map]
    rfl
  have hgroups : (rq.queuedGroups.map (·.weight)).sum = weightSum groups := by
    rw [weightSum, map_map]
    rfl
  have hall : ((lagSum rq.minVruntime rq.entities).natAbs : Int) ≤ 2 ^ 63 * rq.totalWeight :=
    natAbs_lagSum_le _ _
  have hg := natAbs_lagSum_le rq.minVruntime groups
  have ht := sum_natAbs_le rq.minVruntime tasks
  rw [map_map] at ht
  -- the two partial sums
  have htaskSum : rq.tree.sumInt (2 ^ 127) (fun t =>
      dist rq.minVruntime t.vruntime * (taskWeight t : Int)) =
      lagSum rq.minVruntime tasks := by
    rw [sumInt_eq]
    · rw [lagSum, map_map]
      rfl
    · refine Int.lt_of_le_of_lt ht ?_
      omega
  have hgroupSum : (rq.queuedGroups.map fun g =>
      dist rq.minVruntime g.vruntime * (g.weight : Int)).sum.bmod (2 ^ 128) =
      lagSum rq.minVruntime groups := by
    have heq : (rq.queuedGroups.map fun g =>
        dist rq.minVruntime g.vruntime * (g.weight : Int)).sum =
        lagSum rq.minVruntime groups := by
      rw [lagSum, map_map]
      rfl
    rw [heq]
    exact Int.bmod_eq_of_le (by omega) (by omega)
  unfold stats
  simp only [sum_eq, htaskSum, hgroupSum]
  rw [clampInt_eq (by omega) (by omega), ← hsplit, htotal]
  refine Prod.ext rfl (Prod.ext ?_ rfl)
  show min (min _ _ + _ % _) _ = weightSum tasks + weightSum groups
  omega

/-! ### Eligibility -/

/-- Moving the point of reference within a half of the clock. -/
theorem lagSum_shift {base x y : BitVec 64} (hx : Serial.InHalf base x) (hy : Serial.InHalf base y)
    (h : ∀ e ∈ es, Serial.InHalf base e.vruntime) :
    lagSum y es = lagSum x es - dist x y * (weightSum es : Int) := by
  induction es with
  | nil => simp [lagSum]
  | cons e es ih =>
  have he := h e mem_cons_self
  have ih' := ih fun f hf => h f (mem_cons_of_mem _ hf)
  have hdist : dist y e.vruntime = dist x e.vruntime - dist x y := by
    rw [dist_eq_of_inHalf hy he, dist_eq_of_inHalf hx he, dist_eq_of_inHalf hx hy]
    omega
  rw [lagSum_cons, lagSum_cons, weightSum_cons, hdist, Int.sub_mul, Int.natCast_add, Int.mul_add]
  omega

theorem minClock_mem {xs : List (BitVec 64)} (h : xs ≠ []) : ∃ x ∈ xs, minClock xs = some x := by
  induction xs with
  | nil => exact absurd rfl h
  | cons x xs ih =>
  rw [minClock]
  cases hm : minClock xs with
  | none => exact ⟨x, mem_cons_self, rfl⟩
  | some y =>
  have hne : xs ≠ [] := by
    rintro rfl
    cases hm
  obtain ⟨z, hz, hzy⟩ := ih hne
  obtain rfl : z = y := Option.some.inj (hzy.symm.trans hm)
  by_cases hlt : z < x
  · exact ⟨z, mem_cons_of_mem _ hz, by simp [hlt]⟩
  · exact ⟨x, mem_cons_self, by simp [hlt]⟩

/-- The floor is the virtual runtime of a queued entity. -/
theorem minVruntime_mem (h : rq.entities ≠ []) :
    ∃ e ∈ rq.entities, rq.minVruntime = e.vruntime := by
  have hfirst : ∀ t, rq.tree.first = some t → t ∈ rq.tree.toList := by
    intro t ht
    rw [first_eq_head?] at ht
    exact mem_of_mem_head? ht
  have hne : rq.queuedGroups.map (·.vruntime) ++ (rq.tree.first.map (·.vruntime)).toList ≠ [] := by
    intro hnil
    obtain ⟨hg, ht⟩ := append_eq_nil_iff.mp hnil
    have hg' : rq.queuedGroups = [] := map_eq_nil_iff.mp hg
    have ht' : rq.tree.toList = [] := by
      rw [first_eq_head?] at ht
      cases hl : rq.tree.toList with
      | nil => rfl
      | cons =>
        simp [hl] at ht
    refine h ?_
    rw [entities, hg', ht']
    rfl
  obtain ⟨x, hx, hmin⟩ := minClock_mem hne
  have hfloor : rq.minVruntime = x := by
    rw [minVruntime, hmin]
    rfl
  rw [hfloor]
  rcases mem_append.mp hx with hx | hx
  · obtain ⟨g, hg, rfl⟩ := mem_map.mp hx
    exact ⟨groupEntity g, mem_append_right _ (mem_map_of_mem hg), rfl⟩
  · obtain ⟨t, ht, rfl⟩ := Option.map_eq_some_iff.mp (Option.mem_toList.mp hx)
    exact ⟨taskEntity t, mem_append_left _ (mem_map_of_mem (hfirst t ht)), rfl⟩

theorem totalWeight_pos (h : rq.entities ≠ []) : 0 < rq.totalWeight := by
  obtain ⟨e, es, hes⟩ := exists_cons_of_ne_nil h
  have hmem : e ∈ rq.entities := hes ▸ mem_cons_self
  have he := (weight_bounds hmem).1
  rw [totalWeight, hes, weightSum_cons]
  omega

/-- **The test in product space decides eligibility.** -/
theorem eligible_iff (hr : rq.HalfRange) (he : e ∈ rq.entities) :
    eligible (lagSum rq.minVruntime rq.entities) rq.totalWeight rq.minVruntime e.vruntime = true ↔
      rq.Eligible e := by
  obtain ⟨base, hbase⟩ := hr.vruntime
  obtain ⟨f, hf, hfloor⟩ := minVruntime_mem (ne_nil_of_mem he)
  have hpos := totalWeight_pos (ne_nil_of_mem he)
  have hshift : lagSum e.vruntime rq.entities = lagSum rq.minVruntime rq.entities -
      dist rq.minVruntime e.vruntime * (rq.totalWeight : Int) :=
    lagSum_shift (hfloor ▸ hbase f hf) (hbase e he) hbase
  rw [eligible, Eligible, if_neg (Nat.ne_of_gt hpos), decide_eq_true_iff]
  omega

theorem lagSum_nonneg {x : BitVec 64} (h : ∀ e ∈ es, 0 ≤ dist x e.vruntime) :
    0 ≤ lagSum x es := by
  induction es with
  | nil => exact Int.le_refl 0
  | cons e es ih =>
  have ih' := ih fun f hf => h f (mem_cons_of_mem _ hf)
  have he := Int.mul_nonneg (h e mem_cons_self) (Int.natCast_nonneg e.weight)
  rw [lagSum_cons]
  omega

/-- **Every non-empty level has an eligible entity**: the one that is furthest behind. -/
theorem exists_eligible (hr : rq.HalfRange) (h : rq.entities ≠ []) :
    ∃ e ∈ rq.entities, rq.Eligible e := by
  obtain ⟨base, hbase⟩ := hr.vruntime
  obtain ⟨e, he, hmin⟩ := (measure fun e : FairEntity => (e.vruntime - base).toNat).wf.has_min
    {e | e ∈ rq.entities} (exists_mem_of_ne_nil _ h)
  refine ⟨e, he, lagSum_nonneg fun f hf => ?_⟩
  rw [dist_eq_of_inHalf (hbase e he) (hbase f hf)]
  have : (e.vruntime - base).toNat ≤ (f.vruntime - base).toNat := Nat.not_lt.mp (hmin f hf)
  omega

/-! ### The choice of a level -/

/-- The id a choice is compared by. -/
def Choice.id : Choice → UInt64
  | .task t => UInt64.ofNat t.tid.toNat
  | .group id => id

def Choice.isGroup : Choice → Bool
  | .task _ => false
  | .group _ => true

/-- The key of an entity under the sums of its level. -/
def key (rq : CfsRunqueue) (e : FairEntity) : PickKey :=
  entityKey (lagSum rq.minVruntime rq.entities) rq.totalWeight rq.minVruntime e.vruntime e.deadline
    e.choice.id e.choice.isGroup

/-- **The search over the tree and the groups finds the least key.** -/
theorem bestQueued_isBest (rq : CfsRunqueue) :
    ClassTree.IsBest (fun p : PickKey × Choice => p.1.rank)
      (rq.entities.map fun e => (rq.key e, e.choice))
      (rq.bestQueued rq.minVruntime rq.totalWeight (lagSum rq.minVruntime rq.entities)) := by
  have htree := findBest_isBest
    (fun a b => better_iff (rq.key (taskEntity a)) (rq.key (taskEntity b))) rq.tree
  have hmap : ClassTree.IsBest (fun p : PickKey × Choice => p.1.rank)
      (rq.tree.toList.map fun t => (rq.key (taskEntity t), Choice.task t)) _ :=
    htree.map fun t => (rq.key (taskEntity t), Choice.task t)
  have hfold := hmap.foldl (fun a b => better_iff a.1 b.1)
    (rq.queuedGroups.map fun g => (rq.key (groupEntity g), Choice.group g.id))
  have hlist : (rq.entities.map fun e => (rq.key e, e.choice)) =
      rq.tree.toList.map (fun t => (rq.key (taskEntity t), Choice.task t)) ++
        rq.queuedGroups.map fun g => (rq.key (groupEntity g), Choice.group g.id) := by
    rw [entities, map_append, map_map, map_map]
    rfl
  rwa [hlist]

/-- An empty level chooses nothing, and any other level an entity of least key. -/
theorem pickEntity_spec (h : rq.WellFormed) :
    (rq.entities = [] → rq.pickEntity = none) ∧
    (rq.entities ≠ [] → ∃ e ∈ rq.entities, rq.pickEntity = some e.choice ∧
      ∀ f ∈ rq.entities, (rq.key e).rank ≤ (rq.key f).rank) := by
  have hpick : rq.pickEntity = if rq.totalWeight = 0 then none else
      (rq.bestQueued rq.minVruntime rq.totalWeight
        (lagSum rq.minVruntime rq.entities)).map Prod.snd := by
    rw [pickEntity, stats_eq h]
  constructor
  · intro hnil
    have hzero : rq.totalWeight = 0 := by rw [totalWeight, hnil, weightSum_nil]
    rw [hpick, if_pos hzero]
  intro hne
  have hpos := totalWeight_pos hne
  have hbest := bestQueued_isBest rq
  rw [hpick, if_neg (Nat.ne_of_gt hpos)]
  cases hb : rq.bestQueued rq.minVruntime rq.totalWeight
      (lagSum rq.minVruntime rq.entities) with
  | none =>
    rw [hb] at hbest
    exact absurd (map_eq_nil_iff.mp hbest) hne
  | some =>
  rw [hb] at hbest
  obtain ⟨hp, hmin⟩ := hbest
  obtain ⟨e, he, rfl⟩ := mem_map.mp hp
  refine ⟨e, he, rfl, fun f hf => ?_⟩
  exact hmin (rq.key f, f.choice) (mem_map.mpr ⟨f, hf, rfl⟩)

/-- The level takes an eligible entity that no eligible entity precedes by its virtual
deadline. -/
def PicksEarliest (rq : CfsRunqueue) : Prop :=
  ∃ e ∈ rq.entities, rq.pickEntity = some e.choice ∧ rq.Eligible e ∧
    ∀ f ∈ rq.entities, rq.Eligible f → before f.deadline e.deadline = false

/-- The deadlines of the eligible entities are in the same order as plain numbers. -/
def DeadlinesInOrder (rq : CfsRunqueue) : Prop :=
  ∀ e ∈ rq.entities, ∀ f ∈ rq.entities, rq.Eligible e → rq.Eligible f →
    before e.deadline f.deadline = true → e.deadline.toNat < f.deadline.toNat

instance (rq : CfsRunqueue) : Decidable rq.DeadlinesInOrder :=
  inferInstanceAs (Decidable (∀ e ∈ rq.entities, ∀ f ∈ rq.entities, _))

/-- The chosen entity is eligible, and its deadline is the least number among those of the
eligible entities. -/
theorem chosen_eligible (h : rq.WellFormed) (hr : rq.HalfRange) (hne : rq.entities ≠ []) :
    ∃ e ∈ rq.entities, rq.pickEntity = some e.choice ∧ rq.Eligible e ∧
      ∀ f ∈ rq.entities, rq.Eligible f → e.deadline.toNat ≤ f.deadline.toNat := by
  obtain ⟨e, he, hpick, hmin⟩ := (pickEntity_spec h).2 hne
  have hkey : ∀ f ∈ rq.entities, ((rq.key f).eligible = true ↔ rq.Eligible f) :=
    fun f hf => eligible_iff hr hf
  -- the numbers that are compared
  have hrank : ∀ f, (rq.key f).rank =
      (((if (rq.key f).eligible then 0 else 1) * 2 ^ 64 + f.deadline.toNat) * 2 ^ 64 +
        (rq.key f).id.toNat) * 2 + (if (rq.key f).group then 1 else 0) := fun f => rfl
  have hbounds : ∀ f : FairEntity, f.deadline.toNat < 2 ^ 64 ∧ (rq.key f).id.toNat < 2 ^ 64 ∧
      (if (rq.key f).group then 1 else 0) < 2 := fun f =>
    ⟨f.deadline.isLt, (rq.key f).id.toNat_lt, by split <;> decide⟩
  have helig : rq.Eligible e := by
    obtain ⟨f, hf, hfe⟩ := exists_eligible hr hne
    rw [← hkey e he]
    rw [← hkey f hf] at hfe
    by_contra hno
    have hle := hmin f hf
    rw [hrank e, hrank f, if_neg hno, if_pos hfe] at hle
    have := hbounds f
    omega
  refine ⟨e, he, hpick, helig, fun f hf hfe => ?_⟩
  have hle := hmin f hf
  rw [hrank e, hrank f, if_pos ((hkey f hf).mpr hfe)] at hle
  have := hbounds f
  omega

theorem eq_of_choice_eq (h : rq.WellFormed) {f : FairEntity} (he : e ∈ rq.entities)
    (hf : f ∈ rq.entities) (hc : e.choice = f.choice) : e = f := by
  have hids : (rq.queuedGroups.map (·.id)).Nodup := by
    refine (h.level rq (.refl rq)).ids.sublist ?_
    rw [queuedGroups, map_map]
    exact filter_sublist.map _
  rcases mem_append.mp he with he | he <;> rcases mem_append.mp hf with hf | hf <;>
    obtain ⟨x, hx, rfl⟩ := mem_map.mp he <;> obtain ⟨y, hy, rfl⟩ := mem_map.mp hf
  · rw [Choice.task.inj hc]
  · cases hc
  · cases hc
  · rw [inj_on_of_nodup_map hids hx hy (Choice.group.inj hc)]

/-- From a number that is least in both orders on, plain numbers and offsets advance together. -/
theorem lt_of_least {base e a b : BitVec 64} (hea : (e - base).toNat ≤ (a - base).toNat)
    (hab : (a - base).toNat < (b - base).toNat) (hbe : e.toNat ≤ b.toNat) : a.toNat < b.toNat := by
  have h1 := toNat_eq_base_add_offset base e
  have h2 := toNat_eq_base_add_offset base a
  have h3 := toNat_eq_base_add_offset base b
  omega

/-- **One level**: the entity taken is right exactly if the two orders of the deadlines agree. -/
theorem picksEarliest_iff (h : rq.WellFormed) (hr : rq.HalfRange) (hne : rq.entities ≠ []) :
    rq.PicksEarliest ↔ rq.DeadlinesInOrder := by
  obtain ⟨base, hbase⟩ := hr.deadline
  have hbefore : ∀ {e f}, e ∈ rq.entities → f ∈ rq.entities → (before e.deadline f.deadline = true ↔
        (e.deadline - base).toNat < (f.deadline - base).toNat) := fun he hf =>
    before_iff_of_inHalf (hbase _ he) (hbase _ hf)
  obtain ⟨m, hm, hmp, hme, hmin⟩ := chosen_eligible h hr hne
  constructor
  · rintro ⟨e, he, hp, hee, hfirst⟩ a ha b hb hae hbe hab
    -- the entity taken has the least number and the least offset
    obtain rfl : m = e :=
      eq_of_choice_eq h hm he (Option.some.inj (hmp.symm.trans hp))
    have hma : (m.deadline - base).toNat ≤ (a.deadline - base).toNat := by
      refine Nat.not_lt.mp fun hlt => ?_
      have hbad := (hbefore ha hm).mpr hlt
      rw [hfirst a ha hae] at hbad
      cases hbad
    exact lt_of_least hma ((hbefore ha hb).mp hab) (hmin b hb hbe)
  intro hord
  refine ⟨m, hm, hmp, hme, fun f hf hfe => ?_⟩
  by_contra hb
  have hlt := hord f hf m hm hfe hme (Bool.not_eq_false _ ▸ hb)
  have := hmin f hf hfe
  omega

/-! ### The descent -/

/-- The levels a pick descends through. -/
inductive Visits : CfsRunqueue → CfsRunqueue → Prop
  | refl (rq : CfsRunqueue) : Visits rq rq
  | descend {rq level : CfsRunqueue} {c : GroupEntity × CfsRunqueue} (hc : c ∈ rq.children)
      (hp : rq.pickEntity = some (.group c.1.id)) (h : Visits c.2 level) : Visits rq level

theorem Visits.toBelow (h : Visits rq level) : Below rq level := by
  induction h with
  | refl rq => exact .refl rq
  | descend hc _ _ ih => exact .child hc ih

/-- A level has entities exactly if a task is queued on it or below. -/
theorem entities_ne_nil_iff (h : rq.WellFormed) : rq.entities ≠ [] ↔ rq.allTasks ≠ [] := by
  have hgroups : rq.queuedGroups = [] ↔ ∀ c ∈ rq.children, c.2.allTasks = [] := by
    rw [queuedGroups, map_eq_nil_iff, filter_eq_nil_iff]
    refine forall₂_congr fun c hc => ?_
    rw [decide_eq_true_iff, not_not]
    exact (h.level c.2 (.child hc (.refl _))).counted
  rw [ne_eq, ne_eq, entities, allTasks_eq, append_eq_nil_iff,
    append_eq_nil_iff, map_eq_nil_iff, map_eq_nil_iff, hgroups,
    flatMap_eq_nil_iff]

/-- The group a level chooses is one of its children, with a task below it. -/
theorem exists_child_of_group (h : rq.WellFormed) (he : e ∈ rq.entities) {id : UInt64}
    (hc : e.choice = .group id) : ∃ c ∈ rq.children, c.1.id = id ∧ c.2.allTasks ≠ [] := by
  rcases mem_append.mp he with he | he
  · obtain ⟨t, -, rfl⟩ := mem_map.mp he
    cases hc
  obtain ⟨g, hg, rfl⟩ := mem_map.mp he
  obtain ⟨c, hcm, rfl⟩ := mem_map.mp hg
  obtain ⟨hmem, hn⟩ := mem_filter.mp hcm
  refine ⟨c, hmem, Choice.group.inj hc, fun hnil => of_decide_eq_true hn ?_⟩
  exact ((h.level c.2 (.child hmem (.refl _))).counted).mpr hnil

theorem task_mem_of_choice (he : e ∈ rq.entities) {t : FairTask} (hc : e.choice = .task t) :
    t ∈ rq.tree.toList := by
  rcases mem_append.mp he with he | he
  · obtain ⟨x, hx, rfl⟩ := mem_map.mp he
    exact Choice.task.inj hc ▸ hx
  · obtain ⟨g, -, rfl⟩ := mem_map.mp he
    cases hc

/-- A task as a pick returns it. -/
def detached (t : FairTask) : FairTask := { t with onRq := false, classRqOwner := 0 }

/-- Every level is in order, and counts exactly the tasks on it and below. -/
def Booked (rq : CfsRunqueue) : Prop :=
  ∀ level, Below rq level → level.LevelOk ∧ level.nrRunning = level.allTasks.length

/-- A level that gave one task away, its own or one of a group, stays booked. -/
theorem Booked.lost {t : FairTask} {tree : ClassTree FairTask}
    {cs : List (GroupEntity × CfsRunqueue)} (h : rq.Booked) (ht : tree.toList ⊆ rq.tree.toList)
    (hids : (cs.map fun c => c.1.id) = rq.children.map fun c => c.1.id)
    (hp : (t :: (mk rq.queueId tree (rq.nrRunning - 1) cs).allTasks).Perm rq.allTasks)
    (hc : ∀ c ∈ cs, c.2.Booked) : (mk rq.queueId tree (rq.nrRunning - 1) cs).Booked := by
  obtain ⟨hok, hn⟩ := h rq (.refl rq)
  have hlen := Nat.pred_eq_of_eq_succ (hn.trans hp.length_eq.symm)
  rintro level (_ | ⟨hm, hl⟩)
  · refine ⟨⟨fun x hx => hok.claimed x (ht hx), ?_, hids ▸ hok.ids⟩, hlen⟩
    exact (Iff.of_eq (congrArg (· = 0) hlen)).trans length_eq_zero_iff
  · exact hc _ hm level hl

theorem removeLocal_spec (h : rq.LevelOk) {t : FairTask} (ht : t ∈ rq.tree.toList) :
    ∃ rq', rq.removeLocal t = .ok (some (detached t, rq')) ∧
      (t :: rq'.allTasks).Perm rq.allTasks ∧ (rq.Booked → rq'.Booked) := by
  rw [removeLocal, if_neg (fun hne => hne (h.claimed t ht))]
  cases hr : rq.tree.remove (· = t) with
  | none =>
    have := remove_eq_none hr t ht
    simp at this
  | some out =>
  obtain ⟨x, tree⟩ := out
  obtain ⟨hx, before, after, h1, h2⟩ := remove_eq_some hr
  obtain rfl : x = t := of_decide_eq_true hx
  have hp : (x :: (mk rq.queueId tree (rq.nrRunning - 1) rq.children).allTasks).Perm
      rq.allTasks := by
    rw [allTasks_eq, allTasks_eq rq]
    show (x :: (tree.toList ++ _)).Perm _
    rw [h1, h2, append_assoc, append_assoc]
    exact perm_middle.symm
  refine ⟨_, rfl, hp, fun hb => hb.lost ?_ rfl hp fun c hc level hl => hb level (.child hc hl)⟩
  rw [h1, h2]
  exact ((sublist_cons_self x after).append_left before).subset

/-- The descent ends on a level that chooses this task. -/
def ArrivesAt (rq : CfsRunqueue) (t : FairTask) : Prop :=
  ∃ level, Visits rq level ∧ level.pickEntity = some (.task t)

/-- What a pick that does not panic gives for a non-empty queue: the task its descent arrives at,
and the queue without it. -/
def Takes (rq : CfsRunqueue) : Prop :=
  ∃ t rq', rq.pickOne = .ok (some (detached t, rq')) ∧ (t :: rq'.allTasks).Perm rq.allTasks ∧
    rq.ArrivesAt t ∧ (rq.Booked → rq'.Booked)

/-- The descent below a chosen group puts the child's new queue in the old one's place. -/
theorem pickChild_spec {c : GroupEntity × CfsRunqueue} (hc : c.2.Takes) :
    ∀ {cs : List (GroupEntity × CfsRunqueue)}, (cs.map fun c => c.1.id).Nodup → c ∈ cs →
      ∃ t cs', pickChild c.1.id cs = some (.ok (some (detached t, cs'))) ∧
        (t :: cs'.flatMap fun c => c.2.allTasks).Perm (cs.flatMap fun c => c.2.allTasks) ∧
        (cs'.map fun c => c.1.id) = (cs.map fun c => c.1.id) ∧ c.2.ArrivesAt t ∧
        ((∀ c ∈ cs, c.2.Booked) → ∀ c ∈ cs', c.2.Booked) := by
  intro cs
  induction cs with
  | nil => intro _ hmem; cases hmem
  | cons d cs ih =>
  intro hids hmem
  rw [map_cons, nodup_cons] at hids
  by_cases hd : d.1.id = c.1.id
  · -- distinct ids: this is the child
    have hdc : d = c := by
      rcases mem_cons.mp hmem with rfl | hmem
      · rfl
      · exact absurd (hd ▸ mem_map_of_mem hmem) hids.1
    subst hdc
    obtain ⟨t, rq', hpick, hperm, hat, hb⟩ := hc
    refine ⟨t, (d.1, rq') :: cs, ?_, hperm.append_right _, rfl, hat, fun hall => ?_⟩
    · rw [pickChild, if_pos rfl, pickBelow, hpick]
    · rw [forall_mem_cons] at hall ⊢
      exact ⟨hb hall.1, hall.2⟩
  have hmem' : c ∈ cs := by
    rcases mem_cons.mp hmem with rfl | hmem
    · exact absurd rfl hd
    · exact hmem
  obtain ⟨t, cs', hpick, hperm, hsame, hat, hb⟩ := ih hids.2 hmem'
  refine ⟨t, d :: cs', ?_, ?_, congrArg (d.1.id :: ·) hsame, hat, fun hall => ?_⟩
  · rw [pickChild, if_neg hd, hpick]
    rfl
  · refine List.Perm.trans perm_middle.symm ?_
    exact hperm.append_left _
  · rw [forall_mem_cons] at hall ⊢
    exact ⟨hall.1, hb hall.2⟩

/-- **A pick of an empty hierarchy takes nothing; any other detaches one task, and no `expect`
of it fires.** -/
theorem pickOne_spec (rq : CfsRunqueue) : rq.WellFormed →
    (rq.allTasks = [] → rq.pickOne = .ok none) ∧ (rq.allTasks ≠ [] → rq.Takes) := by
  induction rq using induct with
  | h rq ih =>
  intro h
  cases hrq : rq with
  | mk q tree n children =>
  have hpick := pickOne.eq_1 q tree n children
  rw [← hrq] at hpick ⊢
  constructor
  · intro hnil
    have hes : rq.entities = [] := not_not.mp fun hne => (entities_ne_nil_iff h).mp hne hnil
    rw [hpick, (pickEntity_spec h).1 hes]
  intro hne
  obtain ⟨e, he, hp, -⟩ := (pickEntity_spec h).2 ((entities_ne_nil_iff h).mpr hne)
  rw [Takes, hpick, hp]
  cases hc : e.choice with
  | task t =>
    obtain ⟨rq', h1, h2, hb⟩ :=
      removeLocal_spec (h.level rq (.refl rq)) (task_mem_of_choice he hc)
    exact ⟨t, rq', h1, h2, ⟨rq, .refl rq, by rw [hp, hc]⟩, hb⟩
  | group =>
  obtain ⟨c, hcm, rfl, hcne⟩ := exists_child_of_group h he hc
  have htakes := (ih c hcm (h.child hcm)).2 hcne
  obtain ⟨t, cs', h1, h2, hids, ⟨level, hv, ht⟩, hb⟩ :=
    pickChild_spec htakes (h.level rq (.refl rq)).ids hcm
  subst hrq
  have hperm : (t :: (mk q tree (n - 1) cs').allTasks).Perm (mk q tree n children).allTasks := by
    rw [allTasks_eq, allTasks_eq (mk q tree n children)]
    refine List.Perm.trans perm_middle.symm ?_
    exact h2.append_left _
  refine ⟨t, mk q tree (n - 1) cs', ?_, hperm, ⟨level, .descend hcm (by rw [hp, hc]) hv, ht⟩,
    fun hbook => hbook.lost (Subset.refl _) hids hperm ?_⟩
  · dsimp only
    rw [show pickChild c.1.id children = _ from h1]
  · exact hb fun d hd level hl => hbook level (.child hd hl)

/-- **A pick leaves the hierarchy in order**, if its counts were exact; they stay so. -/
theorem pickLeftmost_wellFormed {t : FairTask} {rq' : CfsRunqueue} (h : rq.Booked)
    (hids : (rq.allTasks.map (·.tid)).Nodup) (hp : rq.pickLeftmost = .ok (some (t, rq'))) :
    rq'.Booked ∧ rq'.WellFormed := by
  have hspec := pickOne_spec rq ⟨fun level hl => (h level hl).1, hids⟩
  by_cases hne : rq.allTasks = []
  · cases (hspec.1 hne).symm.trans hp
  obtain ⟨u, rest, hpick, hperm, -, hb⟩ := hspec.2 hne
  cases hpick.symm.trans hp
  have hnodup := (hperm.map (·.tid)).nodup_iff.mpr hids
  exact ⟨hb h, fun level hl => (hb h level hl).1, (nodup_cons.mp hnodup).2⟩

/-- The levels of a descent have tasks where the root has. -/
theorem Visits.allTasks_ne_nil (hv : Visits rq level) (h : rq.WellFormed) (hne : rq.allTasks ≠ []) :
    level.allTasks ≠ [] := by
  induction hv with
  | refl => exact hne
  | descend hc hp _ ih =>
  refine ih (h.child hc) ?_
  obtain ⟨e, he, hpe, -⟩ := (pickEntity_spec h).2 ((entities_ne_nil_iff h).mpr hne)
  obtain ⟨d, hd, hid, hdne⟩ :=
    exists_child_of_group h he (Option.some.inj (hpe.symm.trans hp))
  have hdc := inj_on_of_nodup_map (h.level _ (.refl _)).ids hd hc hid
  exact hdc ▸ hdne

/-- What a pick is for: nothing is returned exactly if nothing is queued, otherwise the task that
the descent arrives at, every level of the descent takes an eligible entity of earliest virtual
deadline, and every non-empty level of the hierarchy has an eligible entity. -/
structure EevdfPick (rq : CfsRunqueue) : Prop where
  none_iff : rq.pickLeftmost = .ok none ↔ rq.allTasks = []
  takes : rq.allTasks ≠ [] → ∃ t rq', rq.pickLeftmost = .ok (some (detached t, rq')) ∧
    (t :: rq'.allTasks).Perm rq.allTasks ∧ rq.ArrivesAt t
  earliest : rq.allTasks ≠ [] → ∀ level, Visits rq level → level.PicksEarliest
  eligible : ∀ level, Below rq level → level.allTasks ≠ [] → ∃ e ∈ level.entities, level.Eligible e

/-- **The pick is the EEVDF pick exactly if, on every level of its descent, the deadlines of the
eligible entities are in the same order as plain numbers.** -/
theorem eevdfPick_iff (rq : CfsRunqueue) (h : rq.WellFormed)
    (hr : ∀ level, Below rq level → level.HalfRange) :
    rq.EevdfPick ↔ ∀ level, Visits rq level → level.DeadlinesInOrder := by
  have hspec := pickOne_spec rq h
  constructor
  · intro hp level hv
    have hw := h.below hv.toBelow
    by_cases hne : rq.allTasks = []
    · -- nothing is queued, and the descent stays on the empty root
      intro e he
      cases hv with
      | refl => exact absurd hne ((entities_ne_nil_iff h).mp (ne_nil_of_mem he))
      | descend hc hpick =>
      rw [(pickEntity_spec h).1 (not_not.mp fun hes => (entities_ne_nil_iff h).mp hes hne)]
        at hpick
      cases hpick
    · have hes := (entities_ne_nil_iff hw).mpr (hv.allTasks_ne_nil h hne)
      exact (picksEarliest_iff hw (hr level hv.toBelow) hes).mp (hp.earliest hne level hv)
  intro hord
  refine ⟨⟨fun hnone => ?_, hspec.1⟩, fun hne => ?_, fun hne level hv => ?_, fun level hb hne => ?_⟩
  · refine not_not.mp fun hne => ?_
    obtain ⟨t, rq', hsome, -⟩ := hspec.2 hne
    cases hnone.symm.trans hsome
  · obtain ⟨t, rq', hsome, hperm, hat, -⟩ := hspec.2 hne
    exact ⟨t, rq', hsome, hperm, hat⟩
  · have hw := h.below hv.toBelow
    have hes := (entities_ne_nil_iff hw).mpr (hv.allTasks_ne_nil h hne)
    exact (picksEarliest_iff hw (hr level hv.toBelow) hes).mpr (hord level hv)
  · exact exists_eligible (hr level hb) ((entities_ne_nil_iff (h.below hb)).mpr hne)

/-- A queued task of nice 0. -/
def niceTask (tid : UInt32) (vruntime deadline : BitVec 64) (owner : ℕ) : FairTask :=
  ⟨tid, vruntime, deadline, .forNice 20, owner, true⟩

/-- A task beside a group of one task, whose clock starts over. -/
def nestedQueue : CfsRunqueue :=
  mk 1 (.node .nil (niceTask 1 10 20 1) .nil 1) 2
    [(⟨7, 1024, 8, 18⟩, mk 2 (.node .nil (niceTask 2 (-3) 4 2) .nil 1) 1 [])]

theorem nestedQueue_below (h : Below nestedQueue level) :
    level = nestedQueue ∨ level = mk 2 (.node .nil (niceTask 2 (-3) 4 2) .nil 1) 1 [] := by
  cases h with
  | refl => exact .inl rfl
  | child hc h =>
  obtain rfl := mem_singleton.mp hc
  cases h with
  | refl => exact .inr rfl
  | child hc => cases hc

theorem nestedQueue_wellFormed : nestedQueue.WellFormed where
  level level h := by
    obtain rfl | rfl := nestedQueue_below h
    · exact ⟨by decide, by decide, by decide⟩
    · exact ⟨by decide, by decide, by decide⟩
  tids := by decide

theorem nestedQueue_halfRange (h : Below nestedQueue level) : level.HalfRange := by
  obtain rfl | rfl := nestedQueue_below h
  · exact ⟨⟨0, by decide⟩, ⟨0, by decide⟩⟩
  · exact ⟨⟨-3, by decide⟩, ⟨0, by decide⟩⟩

/-- The pick descends into the group. -/
theorem nestedQueue_pick : nestedQueue.EevdfPick ∧
    nestedQueue.pickLeftmost = .ok (some (detached (niceTask 2 (-3) 4 2),
      mk 1 (.node .nil (niceTask 1 10 20 1) .nil 1) 1
        [(⟨7, 1024, 8, 18⟩, mk 2 .nil 0 [])])) := by
  refine ⟨(eevdfPick_iff nestedQueue nestedQueue_wellFormed fun _ => nestedQueue_halfRange).mpr
    fun level hv => ?_, rfl⟩
  obtain rfl | rfl := nestedQueue_below hv.toBelow
  · decide
  · decide

/-- Two tasks at the same point shortly before the clock wraps; the deadline of the second is
past the wrap. -/
def wrappedDeadline : CfsRunqueue :=
  mk 1 (.node .nil (niceTask 1 (-10) (-5) 1) (.node .nil (niceTask 2 (-10) 3 1) .nil 1) 2) 2 []

/-- **The later deadline is the smaller number, and its task is taken.** -/
theorem wrappedDeadline_misses : wrappedDeadline.WellFormed ∧
    (∀ level, Below wrappedDeadline level → level.HalfRange) ∧
    wrappedDeadline.pickEntity = some (.task (niceTask 2 (-10) 3 1)) ∧
    before (niceTask 1 (-10) (-5) 1).deadline (niceTask 2 (-10) 3 1).deadline = true ∧
    ¬ wrappedDeadline.EevdfPick := by
  have hbelow : ∀ level, Below wrappedDeadline level → level = wrappedDeadline := by
    intro level h
    cases h with
    | refl => rfl
    | child hc => cases hc
  have hwf : wrappedDeadline.WellFormed := by
    refine ⟨fun level h => ?_, by decide⟩
    rw [hbelow level h]
    exact ⟨by decide, by decide, by decide⟩
  have hrange : wrappedDeadline.HalfRange := ⟨⟨-10, by decide⟩, ⟨-10, by decide⟩⟩
  refine ⟨hwf, fun level h => hbelow level h ▸ hrange, by decide +kernel, by decide, fun hp => ?_⟩
  have hne : wrappedDeadline.allTasks ≠ [] := by decide
  have hpicks := hp.earliest hne wrappedDeadline (.refl _)
  have hes := (entities_ne_nil_iff hwf).mpr hne
  exact absurd ((picksEarliest_iff hwf hrange hes).mp hpicks) (by decide)

end Oxide.CfsRunqueue
