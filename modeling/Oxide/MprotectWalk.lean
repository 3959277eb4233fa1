/-
The two passes of `mprotect` over an address space.

The first pass walks the VMAs and decides the steps, the second applies them one by one, each
between detaching and re-attaching the edges around it. An error in the second pass would leave
edges detached. It cannot happen: the steps before have changed nothing the step's own
validation looks at.

* `mprotectSteps_spec`: the steps lie in the range one after the other, each inside one VMA, and
  cover it exactly when the walk found no error;
* `Rewritten`: what a step leaves: one VMA cut, and coalescings at the ends of the range;
* `mprotectApply_spec`: **a step whose range lies in one permitted VMA succeeds**;
* `mprotectUserWithSecurity_rule`: an invariant of the steps holds at the end.
-/
import Oxide.VmRules

namespace Oxide

open OrdMap List UserVirtAddr

variable {step : MprotectStep} {pkey : Option (BitVec 8)} {e start : UserVirtAddr} {prot : VmaProt}
  {t t' : VmaTree} {addr cursor stop : ℕ}

variable {v : Vma}

namespace VmaTree

variable {t : VmaTree}

/-! ### Validation -/

/-- The walk of a validation pass succeeds when every address of the range is covered by a VMA
that is allowed. -/
theorem coverage_ok {hole : Error} {allowed : Vma → Except Error Unit}
    {entries : List (UserVirtAddr × Vma)} (hlt : cursor < stop)
    (hend : stop ≤ USER_VA_END)
    (hord : entries.Pairwise fun a b => a.2.end.asU64 ≤ b.2.start.asU64)
    (hcov : ∀ va : UserVirtAddr, cursor ≤ va.asU64 → va.asU64 < stop →
      ∃ e ∈ entries, e.2.contains va = true ∧ allowed e.2 = .ok ()) :
    coverage hole allowed stop cursor entries = .ok () := by
  induction entries generalizing cursor with
  | nil =>
    obtain ⟨e, he, -⟩ := hcov ⟨cursor, by omega⟩ le_rfl hlt
    cases he
  | cons e rest ih =>
  obtain ⟨k, v⟩ := e
  obtain ⟨hv, hrest⟩ := pairwise_cons.mp hord
  rw [coverage]
  -- what is not covered by `v` is covered by the rest
  have hskip : ∀ c, cursor ≤ c → v.end.asU64 ≤ c → ∀ va : UserVirtAddr, c ≤ va.asU64 →
      va.asU64 < stop → ∃ e ∈ rest, e.2.contains va = true ∧ allowed e.2 = .ok () := by
    intro c hc hvc va h1 h2
    obtain ⟨e, he, hcon, hal⟩ := hcov va (by omega) h2
    rcases mem_cons.mp he with rfl | he
    · have := (Vma.contains_iff.mp hcon).2
      simp only at this
      omega
    · exact ⟨e, he, hcon, hal⟩
  by_cases h1 : v.end.asU64 ≤ cursor
  · rw [if_pos h1]
    exact ih hlt hrest (hskip cursor le_rfl h1)
  -- the VMA at the cursor is `v`
  obtain ⟨e, he, hcon, hal⟩ := hcov ⟨cursor, by omega⟩ le_rfl hlt
  have hat : v.start.asU64 ≤ cursor ∧ allowed v = .ok () := by
    rcases mem_cons.mp he with rfl | he
    · exact ⟨(Vma.contains_iff.mp hcon).1, hal⟩
    have h2 := hv e he
    have h3 := (Vma.contains_iff.mp hcon).1
    simp only at h2 h3
    omega
  rw [if_neg h1, if_neg (by omega), hat.2]
  split_ifs with h4
  · rfl
  · exact ih (by omega) hrest (hskip v.end.asU64 (by omega) le_rfl)

/-- A range whose addresses are mapped and may be given the protection passes the validation. -/
theorem mprotectCheck_ok (hw : t.WellFormed) (hlt : start.asU64 < e.asU64)
    (h : ∀ va : UserVirtAddr, start.asU64 ≤ va.asU64 → va.asU64 < e.asU64 →
      ∃ v, t.findContaining va = some v ∧ bitsContain v.mayProt prot = true) :
    t.mprotectCheck start e prot = .ok () := by
  rw [mprotectCheck, if_neg (by omega)]
  refine coverage_ok hlt e.isUser.le ?_ fun va h1 h2 => ?_
  · refine (t.map.below_sorted e).imp_of_mem fun {a b} ha hb hab => ?_
    exact hw.end_le (mem_below_iff.mp ha).1 (mem_below_iff.mp hb).1 hab
  obtain ⟨v, hv, hmay⟩ := h va h1 h2
  obtain ⟨hget, hc⟩ := (findContaining_eq_some_iff hw).mp hv
  have := (Vma.contains_iff.mp hc).1
  exact ⟨(v.start, v), mem_below_iff.mpr ⟨hget, lt_iff.mpr (by omega)⟩, hc, if_pos hmay⟩

theorem collected_eq_singleton (hw : t.WellFormed) (hlt : start.asU64 < e.asU64) (hv : t.Has v)
    (hs : v.start.asU64 ≤ start.asU64) (he : e.asU64 ≤ v.end.asU64) :
    t.collected start e = [v] := by
  have hpend : Pending t start e.asU64 (t.collected start e) := collected_pending hw hlt le_rfl
  have hall : ∀ w ∈ t.collected start e, w = v := by
    intro w hmem
    obtain ⟨hwg, h1, h2⟩ := (mem_collected_iff hw).mp hmem
    have h1' := lt_iff.mp h1
    rcases hw.eq_or_apart hwg hv with h | h | h
    · exact h
    · omega
    · omega
  have hmem : v ∈ t.collected start e :=
    (mem_collected_iff hw).mpr ⟨hv, lt_iff.mpr (by omega), by omega⟩
  cases hl : t.collected start e with
  | nil =>
    rw [hl] at hmem
    cases hmem
  | cons w rest =>
  rw [hl] at hall
  obtain rfl := hall w (by simp)
  cases rest with
  | nil => rfl
  | cons u =>
  -- a second VMA would start behind the end of the first
  obtain rfl := hall u (by simp)
  have hord := hpend.ordered
  rw [hl] at hord
  have := (pairwise_cons.mp hord).1 u (by simp)
  omega

/-- An `mprotect` inside one VMA cuts it, and coalesces what it made of the range. -/
structure Rewritten (t : VmaTree) (prot : VmaProt) (pkey : Option (BitVec 8))
    (start : UserVirtAddr) («end» : ℕ) (t' : VmaTree) : Prop where
  range : start.asU64 < «end»
  exists_cut : ∃ v t₁, t.map.get? v.start = some v ∧ v.start.asU64 ≤ start.asU64 ∧
    «end» ≤ v.end.asU64 ∧
    t₁.map = (t.splice v (some (protRewrite prot pkey (midPiece start «end» v))) start «end»).map ∧
    MergesAround start.asU64 «end» t₁ t'

/-- **An `mprotect` inside one VMA succeeds**, if the VMA may be given the protection. -/
theorem mprotectRangeWithPkey_within (hw : t.WellFormed) (hlt : start.asU64 < e.asU64)
    (hv : t.Has v) (hs : v.start.asU64 ≤ start.asU64)
    (he : e.asU64 ≤ v.end.asU64) (hmay : bitsContain v.mayProt prot = true) {r : Except Error Unit}
    (h : t.mprotectRangeWithPkey start e prot pkey = .ok (r, t')) :
    r = .ok () ∧ Rewritten t prot pkey start e.asU64 t' := by
  have hkeys : (t.collect start e).map Prod.fst = [v.start] := by
    rw [collect_keys hw, collected_eq_singleton hw hlt hv hs he]
    rfl
  have hm : Meets start e.asU64 v := ⟨hw.nonempty hv, hlt, by omega, by omega⟩
  have hcheck : t.mprotectCheck start e prot = .ok () := mprotectCheck_ok hw hlt fun va h1 h2 =>
    ⟨v, (findContaining_eq_some_iff hw).mpr ⟨hv, Vma.contains_iff.mpr ⟨by omega, by omega⟩⟩, hmay⟩
  rw [mprotectRangeWithPkey, hcheck, hkeys] at h
  simp only [foldlM_cons, foldlM_nil, bind_pure] at h
  obtain ⟨t1, hb, h⟩ := Except.bind_eq_ok.mp h
  cases h
  obtain ⟨t2, hcut, hmerge⟩ := rewriteKey_run (protRewrite_keepsRange prot pkey) hw hv hm hb
  exact ⟨rfl, hlt, v, t2, hv, hs, he, hcut.map_eq, hmerge⟩

theorem Rewritten.reshape (h : Rewritten t prot pkey start stop t') (hw : t.WellFormed) :
    Reshape (fun v => some (protRewrite prot pkey (midPiece start stop v))) start stop t t' := by
  obtain ⟨hlt, v, t1, hv, hs, he, hcut, hmerge⟩ := h
  exact .head (.cut hv ⟨hw.nonempty hv, hlt, by omega, by omega⟩ hcut)
    (hmerge.reshape ⟨v, by simp⟩)

/-- A step of `mprotect` keeps what the addresses show. -/
theorem Reshape.view_prot
    (h : Reshape (fun v => some (protRewrite prot pkey (midPiece start stop v))) start stop t t')
    (hw : t.WellFormed) (hfit : t.All Vma.FileFits) (va : UserVirtAddr) :
    view MergeView.content t' va = view MergeView.content t va := by
  rcases h.content_eq (keepsContent_prot prot pkey start stop) hw hfit va with
    heq | ⟨-, -, -, v, hv⟩
  · exact heq
  · cases hv

end VmaTree

namespace AddressSpace

open Prog VmaTree

/-! ### Steps -/

/-- The range of a step lies in one VMA that may be given the protection. -/
structure StepOk (t : VmaTree) (step : MprotectStep) : Prop where
  pos : 0 < step.len
  user : step.start.asU64 + step.len < USER_VA_END
  inside : ∃ v, t.map.get? v.start = some v ∧ v.start.asU64 ≤ step.start.asU64 ∧
    step.start.asU64 + step.len ≤ v.end.asU64 ∧ bitsContain v.mayProt step.prot = true

/-- What `mprotect` has done with one step. -/
structure Applied (s : AddressSpace) (step : MprotectStep) (s' : AddressSpace) : Prop where
  exists_tree : ∃ lo hi t', Span s.tree step.start.asU64 (step.start.asU64 + step.len) lo hi ∧
    Rewritten s.tree step.prot (some step.pkey) step.start (step.start.asU64 + step.len) t' ∧
    s' = attachSpan lo hi { detachSpan lo hi s with tree := t' }

variable {s : AddressSpace}

/-- **A step whose range is permitted succeeds.** -/
theorem mprotectApply_spec (hw : s.tree.WellFormed) (hok : StepOk s.tree step) :
    (mprotectApply step).Ends s fun r s' => r = .ok () ∧ Applied s step s' := by
  obtain ⟨hpos, huser, v, hv, hs, he, hmay⟩ := hok
  refine rmapResplit_rule hw ?_ ?_
  · intro hnil
    have hmem : v ∈ overlapping s.tree step.start.asU64 (step.start.asU64 + step.len) :=
      (mem_overlapping_iff hw).mpr ⟨hv, by omega, by omega⟩
    rw [hnil] at hmem
    cases hmem
  intro lo hi hspan
  refine Ends.ofPanicBind fun e hnew => Ends.onTreeBind fun r t' hr => ends_ofExcept.mpr ?_
  rw [new_eq_some huser] at hnew
  cases hnew
  obtain ⟨rfl, hrew⟩ := mprotectRangeWithPkey_within hw
    (by show _ < step.start.asU64 + step.len; omega)
    hv hs he hmay hr
  exact ⟨(), rfl, rfl, ⟨lo, hi, t', hspan, hrew, rfl⟩⟩

/-- A step leaves the ranges behind it in one VMA each. -/
theorem StepOk.rewritten (hw : t.WellFormed) (hfit : t.All Vma.FileFits) {step' : MprotectStep}
    (hok : StepOk t step')
    (hrew : Rewritten t step.prot (some step.pkey) step.start (step.start.asU64 + step.len) t')
    (hlt : step.start.asU64 + step.len ≤ step'.start.asU64) : StepOk t' step' := by
  obtain ⟨hpos, huser, v, hv, hs, he, hmay⟩ := hok
  have hkeep := keepsContent_prot step.prot (some step.pkey) step.start
    (step.start.asU64 + step.len)
  have hresh := hrew.reshape hw
  have hw' := hresh.wellFormed hkeep.fills hw
  obtain ⟨u, hu, h1, h2⟩ := hresh.covers hkeep hw hfit hrew.range hv hs
    (show _ < step'.start.asU64 + step'.len by omega) he (.inr hlt)
  -- both VMAs show the same at the start of the step
  have hview := hresh.view_prot hw hfit step'.start
  rw [view_of_get? MergeView.content hw' hu (Vma.contains_iff.mpr ⟨h1, by omega⟩),
    view_of_get? MergeView.content hw hv (Vma.contains_iff.mpr ⟨hs, by omega⟩)] at hview
  have hmay' : u.mayProt = v.mayProt := congrArg Content.mayProt (Option.some_inj.mp hview)
  exact ⟨hpos, huser, u, hu, h1, h2, by rwa [hmay']⟩

variable {steps : List MprotectStep}

/-- The steps are applied in order, and none of them fails. -/
theorem mprotectApplyAll_rule {J : AddressSpace → List MprotectStep → Prop}
    (hstep : ∀ s step rest, J s (step :: rest) →
      (mprotectApply step).Ends s fun r s' => r = .ok () ∧ J s' rest)
    (error : Option Error) (applied : List MprotectStep)
    (hJ : J s steps) :
    (mprotectApplyAll error applied steps).Ends s fun _ s' => J s' [] := by
  induction steps generalizing applied s with
  | nil => exact ends_pure.mpr hJ
  | cons step rest ih =>
  refine Ends.bind (R := fun r s' => r = .ok (.ok ()) ∧ J s' rest)
    (ends_attempt.mpr ((hstep s step rest hJ).mono fun r s' h => ⟨by rw [h.1], h.2⟩)) ?_ ?_
  · rintro a s' ⟨ha, hJ'⟩
    cases ha
    exact ih (applied ++ [step]) hJ'
  · rintro e s' ⟨he, -⟩
    cases he

/-! ### The walk -/

/-- What the walk over `[addr, end)` decided for one VMA of the tree. -/
structure StepIn (t : VmaTree) (addr «end» : ℕ) (step : MprotectStep) : Prop where
  pos : 0 < step.len
  le_start : addr ≤ step.start.asU64
  end_le : step.start.asU64 + step.len ≤ «end»
  inside : ∃ v, t.map.get? v.start = some v ∧ v.start.asU64 ≤ step.start.asU64 ∧
    step.start.asU64 + step.len ≤ v.end.asU64 ∧ bitsContain v.mayProt step.prot = true
  first : step.start.asU64 = addr ∨
    ∃ v, t.map.get? v.start = some v ∧ step.start.asU64 = v.end.asU64
  last : step.start.asU64 + step.len = «end» ∨
    ∃ v, t.map.get? v.start = some v ∧ step.start.asU64 + step.len = v.end.asU64

theorem StepIn.stepOk {stop : UserVirtAddr} (h : StepIn t addr stop.asU64 step) : StepOk t step :=
  ⟨h.pos, lt_of_le_of_lt h.end_le stop.isUser, h.inside⟩

/-- A step starts and ends where a VMA or the range does. -/
theorem StepIn.ends {stop : ℕ} (h : StepIn t addr stop step) {P : ℕ → Prop} (hs : P addr)
    (he : P stop) (hv : ∀ v, t.map.get? v.start = some v → P v.end.asU64) :
    P step.start.asU64 ∧ P (step.start.asU64 + step.len) := by
  constructor
  · rcases h.first with heq | ⟨v, hg, heq⟩
    · rwa [heq]
    · rw [heq]
      exact hv v hg
  · rcases h.last with heq | ⟨v, hg, heq⟩
    · rwa [heq]
    · rw [heq]
      exact hv v hg

/-- The address lies in the range of the step. -/
def MprotectStep.Covers (step : MprotectStep) (va : UserVirtAddr) : Prop :=
  step.start.asU64 ≤ va.asU64 ∧ va.asU64 < step.start.asU64 + step.len

instance (step : MprotectStep) (va : UserVirtAddr) : Decidable (step.Covers va) :=
  inferInstanceAs (Decidable (_ ∧ _))

/-- Each step starts where the one before ends. -/
def Consecutive : ℕ → List MprotectStep → Prop
  | _, [] => True
  | cursor, step :: rest => step.start.asU64 = cursor ∧ Consecutive (cursor + step.len) rest

/-- How far the steps reach. -/
def reach (steps : List MprotectStep) : ℕ := (steps.map MprotectStep.len).sum

theorem Consecutive.le_start (h : Consecutive cursor steps)
    (hmem : step ∈ steps) : cursor ≤ step.start.asU64 := by
  induction steps generalizing cursor with
  | nil => cases hmem
  | cons first rest ih =>
  obtain ⟨rfl, hrest⟩ := h
  rcases mem_cons.mp hmem with rfl | hmem
  · exact le_rfl
  · exact (Nat.le_add_right _ _).trans (ih hrest hmem)

/-- The VMA at the start of the step was not refused: the step reaches to the end of the VMA or of
the range, with the protection and the key that the caller decides for the VMA. -/
def Decided (env : Env) (p : MprotectPolicy) (s : AddressSpace) («end» : ℕ)
    (step : MprotectStep) : Prop :=
  ∃ v, s.tree.findContaining step.start = some v ∧
    mprotectRefusal env p s.mdwe step.start.asU64 «end» v = .ok () ∧
    step.start.asU64 + step.len = min v.end.asU64 «end» ∧ step.prot = p.protFor v ∧
    step.pkey = p.keyFor v

/-- Why the walk stops at an address: it is not mapped, or its VMA is refused. -/
def StopsAt (env : Env) (p : MprotectPolicy) (s : AddressSpace) («end» : ℕ) (err : Error)
    (va : UserVirtAddr) : Prop :=
  match s.tree.findContaining va with
  | none => err = .noMem
  | some v => mprotectRefusal env p s.mdwe va.asU64 «end» v = .error err

/-- What the walk from `cursor` has found: steps that follow one another, and cover the range
exactly when there was no error. -/
structure Walked (env : Env) (p : MprotectPolicy) (s : AddressSpace) (addr «end» cursor : ℕ)
    (steps : List MprotectStep) (error : Option Error) : Prop where
  consecutive : Consecutive cursor steps
  stepIn : ∀ step ∈ steps, StepIn s.tree addr «end» step
  decided : ∀ step ∈ steps, Decided env p s «end» step
  reach_le : cursor + reach steps ≤ «end»
  complete : error = none ↔ cursor + reach steps = «end»
  stops : ∀ err, error = some err → ∃ va, va.asU64 = cursor + reach steps ∧
    StopsAt env p s «end» err va

/-- The VMAs in front of the walk. -/
def ahead (t : VmaTree) (cursor : ℕ) : List Vma := t.iter.filter fun v => cursor < v.end.asU64

theorem ahead_lt (hv : t.Has v) (hlt : cursor < v.end.asU64) :
    (ahead t v.end.asU64).length < (ahead t cursor).length := by
  have heq : ahead t v.end.asU64 = (ahead t cursor).filter fun w => v.end.asU64 < w.end.asU64 := by
    rw [ahead, ahead, filter_filter]
    refine filter_congr fun w _ => ?_
    simp only [← Bool.decide_and, decide_eq_decide]
    omega
  rw [heq]
  refine length_filter_lt_length_iff_exists.mpr ⟨v, ?_, by simp⟩
  exact mem_filter.mpr ⟨mem_values_iff.mpr ⟨_, hv⟩, by simpa using hlt⟩

/-- The VMA the walk meets reaches down to the cursor exactly if it contains it. -/
theorem vmaFrom_iff (hw : t.WellFormed) {cursor : UserVirtAddr} :
    vmaFrom t cursor = some v ∧ v.start.asU64 ≤ cursor.asU64 ↔
      t.findContaining cursor = some v := by
  constructor
  · rintro ⟨h, hs⟩
    have habove : vmaFrom.above t cursor = some v → t.Has v ∧ cursor.asU64 < v.end.asU64 := by
      intro h
      rw [vmaFrom.above] at h
      cases hg : t.map.get? cursor with
      | some w =>
        rw [hg] at h
        obtain rfl : w = v := Option.some_inj.mp h
        exact ⟨hw.has hg, by rw [← hw.keyed hg]; exact hw.nonempty hg⟩
      | none =>
      rw [hg] at h
      obtain ⟨⟨k, w⟩, hn, rfl⟩ := Option.map_eq_some_iff.mp h
      obtain ⟨hget, hlt, -⟩ := next?_eq_some_iff.mp hn
      rw [← hw.keyed hget] at hlt
      exact absurd (lt_iff.mp hlt) (by simp only at hs; omega)
    have hhas : t.Has v ∧ cursor.asU64 < v.end.asU64 := by
      rw [vmaFrom] at h
      cases hf : t.map.floor? cursor with
      | none =>
        rw [hf] at h
        exact habove h
      | some =>
      rw [hf] at h
      simp only at h
      split_ifs at h with hend
      · cases h
        exact ⟨hw.has (floor?_eq_some_iff.mp hf).1, hend⟩
      · exact habove h
    exact (findContaining_eq_some_iff hw).mpr ⟨hhas.1, Vma.contains_iff.mpr ⟨hs, hhas.2⟩⟩
  · intro h
    have hc := Vma.contains_iff.mp ((findContaining_eq_some_iff hw).mp h).2
    rw [findContaining] at h
    rw [vmaFrom]
    cases hf : t.map.floor? cursor with
    | none =>
      rw [hf] at h
      cases h
    | some =>
    rw [hf] at h
    dsimp only at h ⊢
    split_ifs at h
    cases h
    exact ⟨if_pos hc.2, hc.1⟩

variable {env : Env} {p : MprotectPolicy}

theorem mayProt_of_mprotectRefusal {mdwe : MdweRequest}
    (h : mprotectRefusal env p mdwe cursor stop v = .ok ()) :
    bitsContain v.mayProt (p.protFor v) = true := by
  by_contra hno
  rw [mprotectRefusal] at h
  simp [hno, bind, Except.bind] at h

theorem Walked.nil (h : cursor = stop) : Walked env p s addr stop cursor [] none :=
  ⟨trivial, by simp, by simp, by simpa [reach] using h.le, by simpa [reach] using h, by simp⟩

/-- **The walk ends, with steps that lie in the range one after the other, each inside one
VMA.** -/
theorem mprotectSteps_spec (env : Env) (p : MprotectPolicy)
    (hw : s.tree.WellFormed) {stop cursor : UserVirtAddr} {fuel : ℕ} (acc : List MprotectStep)
    (haddr : addr ≤ cursor.asU64) (hle : cursor.asU64 ≤ stop.asU64)
    (hcur : cursor.asU64 = addr ∨ cursor.asU64 = stop.asU64 ∨
      ∃ v, s.tree.Has v ∧ cursor.asU64 = v.end.asU64)
    (hfuel : (ahead s.tree cursor.asU64).length < fuel ∨ cursor.asU64 = stop.asU64) :
    ∃ found error, mprotectSteps env p s stop fuel cursor acc = .ok (acc ++ found, error) ∧
      found.length ≤ fuel ∧ Walked env p s addr stop.asU64 cursor.asU64 found error := by
  induction fuel generalizing cursor acc with
  | zero =>
    exact ⟨[], none, by rw [append_nil]; rfl, le_rfl,
      .nil (hfuel.resolve_left (Nat.not_lt_zero _))⟩
  | succ fuel ih =>
  rw [mprotectSteps]
  by_cases hlt : cursor.asU64 < stop.asU64
  · have hstop : ∀ err, StopsAt env p s stop.asU64 err cursor →
        ∃ found error, Except.ok (ε := Panic) (acc, some err) = .ok (acc ++ found, error) ∧
          found.length ≤ fuel + 1 ∧ Walked env p s addr stop.asU64 cursor.asU64 found error :=
      fun err herr => ⟨[], some err, by rw [append_nil], Nat.zero_le _, trivial, by simp, by simp,
        hle, by simp [reach, hlt.ne], fun e he => ⟨cursor, rfl, Option.some_inj.mp he ▸ herr⟩⟩
    rw [if_pos hlt]
    cases hf : s.tree.findContaining cursor with
    | none =>
      -- a gap: the VMA that is met starts behind the cursor
      have hnone : StopsAt env p s stop.asU64 .noMem cursor := by
        rw [StopsAt, hf]
      cases hv : vmaFrom s.tree cursor with
      | none => exact hstop _ hnone
      | some v =>
      have hgap : v.start.asU64 > cursor.asU64 := by
        refine not_le.mp fun hs => ?_
        rw [(vmaFrom_iff hw).mp ⟨hv, hs⟩] at hf
        cases hf
      simp only [hgap, if_true]
      exact hstop _ hnone
    | some v =>
    obtain ⟨hv, hs⟩ := (vmaFrom_iff hw).mpr hf
    obtain ⟨hget, hc⟩ := (findContaining_eq_some_iff hw).mp hf
    have hcv := (Vma.contains_iff.mp hc).2
    rw [hv]
    dsimp only
    rw [if_neg (by omega)]
    cases hr : mprotectRefusal env p s.mdwe cursor.asU64 stop.asU64 v with
    | error => exact hstop _ (by rw [StopsAt, hf]; exact hr)
    | ok _ =>
    -- the step ends where the VMA does, or the range
    have hmin : (min v.end stop).asU64 = min v.end.asU64 stop.asU64 :=
      Monotone.map_min fun _ _ h => h
    set stepEnd := min v.end stop with hse
    have hnext : stepEnd.asU64 = v.end.asU64 ∨ stepEnd.asU64 = stop.asU64 :=
      (min_choice v.end.asU64 stop.asU64).imp hmin.trans hmin.trans
    obtain ⟨found, error, hrun, hlen, hfound⟩ := ih (acc ++ [⟨cursor,
      stepEnd.asU64 - cursor.asU64, p.protFor v, p.keyFor v⟩]) (by omega) (by omega)
      (.inr (hnext.symm.imp_right fun h => ⟨v, hget, h⟩)) (hnext.imp_left fun h => by
        have := ahead_lt hget hcv
        rw [h]
        omega)
    refine ⟨_ :: found, error, by rw [hrun, append_assoc]; rfl, by simpa using hlen, ?_⟩
    have hreach : cursor.asU64 + reach (⟨cursor, stepEnd.asU64 - cursor.asU64,
        p.protFor v, p.keyFor v⟩ :: found) = stepEnd.asU64 + reach found := by
      simp only [reach, map_cons, sum_cons]
      omega
    refine ⟨⟨rfl, ?_⟩, forall_mem_cons.mpr ⟨?_, hfound.stepIn⟩,
      forall_mem_cons.mpr ⟨⟨v, hf, hr, ?_, rfl, rfl⟩, hfound.decided⟩, ?_, ?_, ?_⟩
    · rw [Nat.add_sub_of_le (by omega)]
      exact hfound.consecutive
    · refine ⟨by simp only; omega, haddr, by simp only; omega, ⟨v, hget,
        by simp only; omega, by simp only; omega, mayProt_of_mprotectRefusal hr⟩, ?_, ?_⟩
      · exact hcur.imp_right fun h => h.resolve_left hlt.ne
      · exact hnext.symm.imp (fun h => by simp only; omega)
          fun h => ⟨v, hget, by simp only; omega⟩
    · simp only
      omega
    · exact hreach ▸ hfound.reach_le
    · exact hreach ▸ hfound.complete
    · exact hreach ▸ hfound.stops
  · rw [if_neg hlt]
    exact ⟨[], none, by rw [append_nil], Nat.zero_le _, .nil (by omega)⟩

theorem mprotectSteps_walked (env : Env) (p : MprotectPolicy)
    (hw : s.tree.WellFormed) {addr stop : UserVirtAddr} (hle : addr.asU64 ≤ stop.asU64) :
    ∃ steps error, mprotectSteps env p s stop (s.tree.iter.length + 1) addr [] =
        .ok (steps, error) ∧ steps.length ≤ s.tree.iter.length + 1 ∧
      Walked env p s addr.asU64 stop.asU64 addr.asU64 steps error :=
  mprotectSteps_spec env p hw [] le_rfl hle (.inl rfl)
    (.inl (Nat.lt_succ_of_le (length_filter_le _ _)))

/-- **What every step keeps, `mprotect` keeps.**  The number counts the steps still to come. -/
theorem mprotectUserWithSecurity_rule {addr : UserVirtAddr} {len : ℕ}
    {s0 : AddressSpace} (hw : s0.tree.WellFormed)
    (hfit : s0.tree.All Vma.FileFits) {I : AddressSpace → ℕ → Prop}
    (hinit : ∀ n, n ≤ s0.tree.iter.length + 1 → I s0 n)
    (hstep : ∀ s step n s', addr.asU64 % PAGE_SIZE_BYTES = 0 → len % PAGE_SIZE_BYTES = 0 →
      StepIn s0.tree addr.asU64 (addr.asU64 + len) step → s.tree.WellFormed →
      s.tree.All Vma.FileFits →
      (∀ va, view MergeView.content s.tree va = view MergeView.content s0.tree va) →
      I s (n + 1) → Applied s step s' → I s' n) :
    (mprotectUserWithSecurity env addr len p).Ends s0 fun _ s' => ∃ n, I s' n := by
  have hdone : ∃ n, I s0 n := ⟨0, hinit 0 (Nat.zero_le _)⟩
  refine Ends.ofExceptBind (fun u hlen => ?_) fun e _ => hdone
  refine Ends.ofExceptBind (fun u' halign => ?_) fun e _ => hdone
  refine Ends.ofExceptBind (fun e hend => ?_) fun e _ => hdone
  refine Ends.getBind (Ends.ofPanicBind fun q hq => ?_)
  have he := of_endOf hend
  obtain ⟨steps, error, hsteps, hlen', hwalk⟩ :=
    mprotectSteps_walked env p hw (show addr.asU64 ≤ e.asU64 by omega)
  cases hsteps.symm.trans hq
  -- the steps to come lie in one VMA each, since the steps before end where they start
  have hrun := mprotectApplyAll_rule (J := fun s rest => s.tree.WellFormed ∧
    s.tree.All Vma.FileFits ∧
    (∀ va, view MergeView.content s.tree va = view MergeView.content s0.tree va) ∧
    (∀ step ∈ rest, StepOk s.tree step ∧ StepIn s0.tree addr.asU64 (addr.asU64 + len) step) ∧
    (∃ cursor, Consecutive cursor rest) ∧ I s rest.length)
    ?_ error [] ⟨hw, hfit, fun _ => rfl, fun step hstep =>
      ⟨(hwalk.stepIn step hstep).stepOk, by rw [← he]; exact hwalk.stepIn step hstep⟩,
      ⟨_, hwalk.consecutive⟩, hinit _ hlen'⟩
  · exact hrun.mono fun r s' h => ⟨_, h.2.2.2.2.2⟩
  rintro s step rest ⟨hws, hfits, hview, hsteps, ⟨cursor, rfl, hrest⟩, hI⟩
  obtain ⟨hok, hin⟩ := hsteps step (by simp)
  refine (mprotectApply_spec hws hok).mono fun r s' h => ⟨h.1, ?_⟩
  obtain ⟨lo, hi, t', hspan, hrew, rfl⟩ := h.2.exists_tree
  have hresh := hrew.reshape hws
  have hkeep := keepsContent_prot step.prot (some step.pkey) step.start
    (step.start.asU64 + step.len)
  refine ⟨hresh.wellFormed hkeep.fills hws, hresh.fileFits hkeep hws hfits, fun va => ?_, ?_,
    ⟨_, hrest⟩, ?_⟩
  · exact (hresh.view_prot hws hfits va).trans (hview va)
  · intro step' hstep'
    obtain ⟨hok', hin'⟩ := hsteps step' (mem_cons_of_mem _ hstep')
    exact ⟨hok'.rewritten hws hfits hrew (hrest.le_start hstep'), hin'⟩
  · exact hstep s step rest.length _ (of_validateAligned halign) (of_validateLen hlen).2 hin hws
      hfits hview hI h.2

end AddressSpace

end Oxide
