/-
What `mprotect` does to each address.

The first pass returns its steps before any of them is applied. Applied one after the other they
write exactly what they say: the coalescings on the way move the boundaries of the VMAs and no
attribute of an address.

* `mprotectRangeWithPkey_attrs`: an admitted call writes the protection and the key of the
  addresses of its range, and nothing else;
* `mprotectApplyAll_run`: the steps of a walk are all applied;
* `mprotectUser_exact`: **`mprotect` is exact at every address.**
-/
import Oxide.MprotectWalk

namespace Oxide

open List TreeOp

/-- The attributes of a VMA that each of its addresses has. -/
structure Attrs where
  prot : VmaProt
  pkey : BitVec 8
  mayProt : VmaProt
  flags : VmaFlags
  anonName : Option String
  uffd : Option Arc
  mempolicy : Option MemPolicy

/-- Another protection and key are written. -/
def Attrs.protect (prot : VmaProt) (pkey : BitVec 8) (a : Attrs) : Attrs := { a with prot, pkey }

/-- What the addresses of a VMA show. -/
def Vma.attrs (v : Vma) : Attrs :=
  ⟨v.prot, v.pkey, v.mayProt, v.flags, v.anonName, v.uffd, v.mempolicy⟩

variable {t t' : VmaTree} {start e va : UserVirtAddr} {prot : VmaProt}

namespace VmaTree

/-- Only VMAs with equal attributes are coalesced. -/
def MergeView.attrs : MergeView Attrs where
  obs v _ := v.attrs
  absorb_left _ := rfl
  absorb_right hm _ _ := by
    simp only [Vma.attrs, ← hm.prot, ← hm.pkey, ← hm.mayProt, ← hm.flags, ← hm.anonName,
      ← hm.uffd, ← hm.mempolicy]
    rfl

/-! ### One range -/

/-- A VMA that the loop passes over was absorbed by another. -/
theorem mem_taken_or {ab : Vma → Vma → Bool} {vs : List Vma} {v : Vma} (hv : v ∈ vs) :
    v ∈ taken ab vs ∨ ∃ u, ab u v = true := by
  induction vs using taken.induct ab with
  | case1 => cases hv
  | case2 => exact .inl hv
  | case3 u w rest hab ih =>
    rw [taken, if_pos hab]
    rcases mem_cons.mp hv with rfl | hv
    · exact .inl (by simp)
    rcases mem_cons.mp hv with rfl | hv
    · exact .inr ⟨u, hab⟩
    · exact (ih hv).imp_left (mem_cons_of_mem u)
  | case4 u w rest hab ih =>
  rw [taken, if_neg hab]
  rcases mem_cons.mp hv with rfl | hv
  · exact .inl (by simp)
  · exact (ih hv).imp_left (mem_cons_of_mem u)

/-- **An admitted call writes the protection and the key of its range, and nothing else.** -/
theorem mprotectRangeWithPkey_attrs (hw : t.WellFormed) (pkey : BitVec 8)
    (hcheck : t.mprotectCheck start e prot = .ok ()) :
    ∃ t', t.mprotectRangeWithPkey start e prot (some pkey) = .ok (.ok (), t') ∧ t'.WellFormed ∧
      ∀ va, view MergeView.attrs t' va =
        if start.asU64 ≤ va.asU64 ∧ va.asU64 < e.asU64 then
          (view MergeView.attrs t va).map (Attrs.protect prot pkey)
        else view MergeView.attrs t va := by
  obtain ⟨t', hrun, hl⟩ := mprotectRangeWithPkey_spec hw start e prot (some pkey)
  obtain ⟨hlt, ho⟩ := hl.overlaid hcheck
  rw [hcheck] at hrun
  refine ⟨t', hrun, ho.wellFormed, fun va => ?_⟩
  rw [ho.view_eq, overlay]
  cases hf : find? _ _ with
  | some v =>
    have hv := (mem_collected_iff hw).mp (taken_subset _ _ (mem_of_find?_eq_some hf))
    have hc : v.contains va = true := by simpa using find?_some hf
    rw [view_of_get? MergeView.attrs hw hv.1 hc]
    simp only [pieceView]
    by_cases h1 : va.asU64 < start.asU64
    · rw [if_pos h1, if_neg (by omega)]
      rfl
    rw [if_neg h1]
    by_cases h2 : va.asU64 < e.asU64
    · rw [if_pos h2, if_pos ⟨by omega, h2⟩]
      rfl
    · rw [if_neg h2, if_neg (by omega)]
      rfl
  | none =>
  -- an address of the range that the loop has passed over has the attributes already
  show view MergeView.attrs t va = _
  split_ifs with hin
  · cases hv : t.findContaining va with
    | none => rw [view, hv]; rfl
    | some v =>
    obtain ⟨hget, hc⟩ := (findContaining_eq_some_iff hw).mp hv
    obtain ⟨hc1, hc2⟩ := Vma.contains_iff.mp hc
    have hmem : v ∈ t.collected start e :=
      (mem_collected_iff hw).mpr ⟨hget, UserVirtAddr.lt_iff.mpr (by omega), by omega⟩
    obtain ⟨u, hab⟩ := (mem_taken_or hmem).resolve_left fun h =>
      absurd hc (by simpa using find?_eq_none.mp hf v h)
    have hm := Vma.mergeableWithNext_iff.mp hab
    have hprot : prot = v.prot := hm.prot
    have hpkey : pkey = v.pkey := hm.pkey
    rw [view, hv, hprot, hpkey]
    rfl
  · rfl

end VmaTree

namespace AddressSpace

open Prog VmaTree

/-! ### The steps -/

variable {cursor : ℕ} {steps : List MprotectStep} {step : MprotectStep}

theorem Consecutive.covered_iff (h : Consecutive cursor steps) :
    (∃ step ∈ steps, step.Covers va) ↔ cursor ≤ va.asU64 ∧ va.asU64 < cursor + reach steps := by
  induction steps generalizing cursor with
  | nil => simp [reach]
  | cons step rest ih =>
  obtain ⟨rfl, hrest⟩ := h
  rw [exists_mem_cons_iff, ih hrest, MprotectStep.Covers, reach, reach, map_cons, sum_cons]
  omega

variable {s : AddressSpace}

/-- Every address of the step is mapped, and may be given the protection. -/
def Permitted (t : VmaTree) (step : MprotectStep) : Prop :=
  ∀ va, step.Covers va →
    ∃ a, view MergeView.attrs t va = some a ∧ bitsContain a.mayProt step.prot = true

theorem StepOk.permitted (hw : t.WellFormed) (h : StepOk t step) : Permitted t step := by
  obtain ⟨-, -, v, hv, hs, he, hmay⟩ := h
  intro va ⟨h1, h2⟩
  exact ⟨_, view_of_get? MergeView.attrs hw hv (Vma.contains_iff.mpr ⟨by omega, by omega⟩), hmay⟩

/-- What a step has done. -/
def Written (t : VmaTree) (step : MprotectStep) (t' : VmaTree) : Prop :=
  ∀ va, view MergeView.attrs t' va =
    if step.Covers va then (view MergeView.attrs t va).map (Attrs.protect step.prot step.pkey)
    else view MergeView.attrs t va

theorem Permitted.written {step' : MprotectStep} (h : Permitted t step) (hw : Written t step' t') :
    Permitted t' step := by
  intro va hc
  obtain ⟨a, ha, hmay⟩ := h va hc
  rw [hw va, ha]
  split_ifs
  · exact ⟨_, rfl, hmay⟩
  · exact ⟨a, rfl, hmay⟩

/-- A change of the tree is made whether or not there are edges around it. -/
theorem rmapResplit_run {α : Type} {op : Vm Error α} {a : α}
    (hop : ∀ st : AddressSpace, st.tree = s.tree → op st = .ok (.ok a, { st with tree := t' }))
    (lo hi : ℕ) : ∃ s', rmapResplit lo hi op s = .ok (.ok a, s') ∧ s'.tree = t' := by
  have hrun : ∃ x y, rmapResplit lo hi op s = (if x > y then op else do
      modify (detachSpan x y)
      let a ← op
      modify (attachSpan x y)
      return a) s := ⟨_, _, rfl⟩
  obtain ⟨x, y, hrun⟩ := hrun
  rw [hrun]
  split_ifs
  · exact ⟨_, hop s rfl, rfl⟩
  · simp only [Bind.bind, Prog.modify, hop (detachSpan x y s) rfl]
    exact ⟨_, rfl, rfl⟩

/-- **A permitted step is applied.** -/
theorem mprotectApply_run (hw : s.tree.WellFormed) (hpos : 0 < step.len)
    (huser : step.start.asU64 + step.len < USER_VA_END) (hp : Permitted s.tree step) :
    ∃ s', mprotectApply step s = .ok (.ok (), s') ∧ s'.tree.WellFormed ∧
      Written s.tree step s'.tree := by
  have hlt : step.start.asU64 < (⟨_, huser⟩ : UserVirtAddr).asU64 := by
    show _ < step.start.asU64 + step.len
    omega
  have hcheck : s.tree.mprotectCheck step.start ⟨_, huser⟩ step.prot = .ok () := by
    refine mprotectCheck_ok hw hlt fun va h1 h2 => ?_
    obtain ⟨a, ha, hmay⟩ := hp va ⟨h1, h2⟩
    obtain ⟨v, hv, rfl⟩ := Option.map_eq_some_iff.mp ha
    exact ⟨v, hv, hmay⟩
  obtain ⟨t', hrun, hw', hview⟩ := mprotectRangeWithPkey_attrs hw step.pkey hcheck
  have hop : ∀ st : AddressSpace, st.tree = s.tree → (do
      let e ← ofPanic
        (expect (UserVirtAddr.new (step.start.asU64 + step.len)) "validated user range")
      let r ← onTree fun t => t.mprotectRangeWithPkey step.start e step.prot (some step.pkey)
      Prog.ofExcept r : Vm Error Unit) st = .ok (.ok (), { st with tree := t' }) := by
    intro st hst
    rw [UserVirtAddr.new_eq_some huser]
    simp only [Bind.bind, ofPanic, expect, onTree, ofStep, hst, hrun, Except.map]
    rfl
  obtain ⟨s', hs', rfl⟩ := rmapResplit_run hop step.start.asU64 (step.start.asU64 + step.len)
  exact ⟨s', hs', hw', hview⟩

/-- The steps write the addresses they cover. -/
structure WrittenAll (t : VmaTree) (steps : List MprotectStep) (t' : VmaTree) : Prop where
  covered : ∀ step ∈ steps, ∀ va, step.Covers va → ∃ a, view MergeView.attrs t va = some a ∧
    view MergeView.attrs t' va = some (a.protect step.prot step.pkey)
  others : ∀ va, (∀ step ∈ steps, ¬ step.Covers va) →
    view MergeView.attrs t' va = view MergeView.attrs t va

/-- The steps to come do not cover what the first has written. -/
theorem Written.cons (h : Written t step t') (hp : Permitted t step) {t'' : VmaTree}
    (hrest : Consecutive (step.start.asU64 + step.len) steps) (hall : WrittenAll t' steps t'') :
    WrittenAll t (step :: steps) t'' := by
  have hapart : ∀ va, step.Covers va → ∀ step' ∈ steps, ¬ step'.Covers va := by
    intro va hc step' hmem hc'
    have := (hrest.covered_iff.mp ⟨step', hmem, hc'⟩).1
    have := hc.2
    omega
  constructor
  · intro step' hmem va hc
    rcases mem_cons.mp hmem with rfl | hmem
    · obtain ⟨a, ha, -⟩ := hp va hc
      refine ⟨a, ha, ?_⟩
      rw [hall.others va (hapart va hc), h va, if_pos hc, ha]
      rfl
    · obtain ⟨a, ha, ha'⟩ := hall.covered step' hmem va hc
      rw [h va, if_neg fun hc' => hapart va hc' step' hmem hc] at ha
      exact ⟨a, ha, ha'⟩
  · intro va hno
    rw [hall.others va fun step' hmem => hno step' (mem_cons_of_mem step hmem), h va,
      if_neg (hno step (by simp))]

/-- **Permitted steps are all applied.** -/
theorem mprotectApplyAll_run (error : Option Error) (applied : List MprotectStep)
    (hw : s.tree.WellFormed) (hcons : Consecutive cursor steps)
    (hok : ∀ step ∈ steps, 0 < step.len ∧ step.start.asU64 + step.len < USER_VA_END ∧
      Permitted s.tree step) :
    ∃ s', mprotectApplyAll error applied steps s = .ok (.ok ⟨applied ++ steps, error⟩, s') ∧
      WrittenAll s.tree steps s'.tree := by
  induction steps generalizing applied s cursor with
  | nil => exact ⟨s, by rw [append_nil]; rfl, by simp, fun _ _ => rfl⟩
  | cons step rest ih =>
  obtain ⟨rfl, hrest⟩ := hcons
  obtain ⟨hpos, huser, hp⟩ := hok step (by simp)
  obtain ⟨s1, hs1, hw1, hwritten⟩ := mprotectApply_run hw hpos huser hp
  obtain ⟨s', hs', hall⟩ := ih (applied ++ [step]) hw1 hrest fun step' hmem => by
    obtain ⟨h1, h2, h3⟩ := hok step' (mem_cons_of_mem step hmem)
    exact ⟨h1, h2, h3.written hwritten⟩
  refine ⟨s', ?_, hwritten.cons hp hrest hall⟩
  rw [mprotectApplyAll]
  simp only [Bind.bind, Prog.attempt, hs1, Except.map]
  rw [hs', append_assoc]
  rfl

/-! ### The call -/

/-- What a call that was not refused returns and does: the steps are those of the walk over the
range, up to the first address that is not mapped or refused; they are written, and nothing else;
and they cover the range exactly when there is no error. -/
structure ExactAt (env : Env) (p : MprotectPolicy) (s : AddressSpace) (addr : UserVirtAddr)
    (len : ℕ) (outcome : MprotectOutcome) (t' : VmaTree) : Prop where
  consecutive : Consecutive addr.asU64 outcome.steps
  decided : ∀ step ∈ outcome.steps, Decided env p s (addr.asU64 + len) step
  stops : ∀ err, outcome.error = some err → ∃ va, va.asU64 = addr.asU64 + reach outcome.steps ∧
    StopsAt env p s (addr.asU64 + len) err va
  written : WrittenAll s.tree outcome.steps t'
  complete : outcome.error = none ↔ ∀ va : UserVirtAddr, addr.asU64 ≤ va.asU64 →
    va.asU64 < addr.asU64 + len → ∃ step ∈ outcome.steps, step.Covers va

/-- The checks of the arguments, before the address space is looked at. -/
def rangeCheck (addr : UserVirtAddr) (len : ℕ) : Except Error Unit := do
  validateLen len
  validateAligned addr
  let _ ← endOf addr len

theorem mprotectUserWithSecurity_exact (env : Env) (p : MprotectPolicy) (hw : s.tree.WellFormed)
    (addr : UserVirtAddr) (len : ℕ) :
    match rangeCheck addr len with
    | .error e => mprotectUserWithSecurity env addr len p s = .ok (.error e, s)
    | .ok () => ∃ outcome s', mprotectUserWithSecurity env addr len p s = .ok (.ok outcome, s') ∧
        ExactAt env p s addr len outcome s'.tree := by
  rw [mprotectUserWithSecurity, rangeCheck]
  cases hlen : validateLen len with
  | error => rfl
  | ok =>
  cases halign : validateAligned addr with
  | error => rfl
  | ok =>
  cases hend : endOf addr len with
  | error => rfl
  | ok «end» =>
  have he := of_endOf hend
  obtain ⟨steps, error, hsteps, -, hwalk⟩ :=
    mprotectSteps_walked env p hw (show addr.asU64 ≤ «end».asU64 by omega)
  obtain ⟨s', hs', hwritten⟩ := mprotectApplyAll_run error [] hw hwalk.consecutive
      fun step hmem => by
    have hok := (hwalk.stepIn step hmem).stepOk
    exact ⟨hok.pos, hok.user, hok.permitted hw⟩
  refine ⟨⟨steps, error⟩, s', ?_, hwalk.consecutive, he ▸ hwalk.decided, he ▸ hwalk.stops,
    hwritten, ?_⟩
  · simp only [Bind.bind, Prog.ofExcept, Prog.get, hsteps]
    exact hs'
  rw [hwalk.complete]
  constructor
  · intro hreach va h1 h2
    exact hwalk.consecutive.covered_iff.mpr ⟨h1, by omega⟩
  intro hcov
  by_contra hne
  have hle := hwalk.reach_le
  -- the address where the steps stop
  have hva := hwalk.consecutive.covered_iff.mp (hcov ⟨addr.asU64 + reach steps,
    by have := «end».isUser; omega⟩ (Nat.le_add_right _ _) (by simp only; omega))
  exact lt_irrefl _ hva.2

/-- **`mprotect` is exact at every address**: it is refused only for its length, its alignment or
its end, and otherwise an address inside the steps it returns has the protection and the key that
were decided for its VMA, every other attribute and every other address is as before, and the steps
cover the range exactly when there is no error. -/
theorem mprotectUser_exact (env : Env) (hw : s.tree.WellFormed) (addr : UserVirtAddr) (len : ℕ)
    (requested : VmaProt) (readImpliesExec : Bool) (keyFor : Vma → BitVec 8) :
    match rangeCheck addr len with
    | .error e =>
      mprotectUser env addr len requested readImpliesExec keyFor s = .ok (.error e, s)
    | .ok () => ∃ outcome s',
      mprotectUser env addr len requested readImpliesExec keyFor s = .ok (.ok outcome, s') ∧
        ExactAt env ⟨requested, readImpliesExec, fun _ _ => .ok (), keyFor⟩ s addr len outcome
          s'.tree :=
  mprotectUserWithSecurity_exact env _ hw addr len

/-- An address space of two pages, one of them locked. -/
def pairSpace : AddressSpace := { new ⟨0⟩ 0x100000 true .empty with tree := lockedPair }

/-- Both pages are made read-only. -/
theorem lockedPair_mprotectUser_exact : pairSpace.tree.WellFormed ∧
    ∃ outcome s', mprotectUser .plain (pageAddr 1) 8192 VmaProt.READ false Vma.pkey pairSpace =
        .ok (.ok outcome, s') ∧
      ExactAt .plain ⟨VmaProt.READ, false, fun _ _ => .ok (), Vma.pkey⟩ pairSpace (pageAddr 1) 8192
        outcome s'.tree := by
  have h := mprotectUser_exact (s := pairSpace) .plain lockedPair_wellFormed (pageAddr 1) 8192
    VmaProt.READ false Vma.pkey
  rw [show rangeCheck (pageAddr 1) 8192 = .ok () by decide +kernel] at h
  exact ⟨lockedPair_wellFormed, h⟩

end AddressSpace

end Oxide
