/-
The userfaultfd charges of `mremap`.

* `relocate_settles`: from the placement of the destination on, every way out of a move releases
  the charge;
* `charges_released_iff`: **a call releases what it has charged exactly when it does not charge,
  or comes as far as the move**: the checks in between return with the charge standing.
-/
import Oxide.Mremap
import Oxide.VmaRangeLoop

namespace Oxide

namespace UffdCall

/-- Whether the call charges the monitor. -/
def begins (ctx : Arc) (call : UffdCall) : Bool := call = .changeBegin ctx

/-- Whether the call releases a charge of the monitor. -/
def releases (ctx : Arc) : UffdCall → Bool
  | changeBegin _ => false
  | changeComplete c _ _ _ => c = ctx
  | changeAbort c => c = ctx

end UffdCall

/-- Every charge of the monitor has been released. -/
def Charged.Released (c : Charged) (ctx : Arc) : Prop :=
  c.calls.countP (UffdCall.begins ctx) = c.calls.countP (UffdCall.releases ctx)

namespace AddressSpace

open Prog

variable {ε α β : Type} {c : Charged} {watch : Option RemapWatch} {env : Env} {mover : Mover}
  {old : UserVirtAddr} {oldSize newSize : ℕ} {maymove fixed dontunmap : Bool}
  {newAddr : Option UserVirtAddr}

/-- The call that takes the charge of a move. -/
def chargeOf (watch : Option RemapWatch) : List UffdCall :=
  (watch.map fun w => UffdCall.changeBegin w.ctx).toList

theorem remapWatch_eq (c : Charged) :
    (remapWatch env old : ChargedVm ε _) c = .ok (.ok (c.space.watchOf env old),
      { c with calls := c.calls ++ chargeOf (c.space.watchOf env old) }) := by
  simp only [remapWatch, Bind.bind, Prog.get]
  cases c.space.watchOf env old with
  | none => simp [Pure.pure, chargeOf]
  | some => rfl

/-- Behind the calls made before, one has released the charge of the move. -/
def Settled (watch : Option RemapWatch) (calls : List UffdCall) (c : Charged) : Prop :=
  ∃ es, c.calls = calls ++ es ∧ ∀ ctx, es.countP (UffdCall.begins ctx) = 0 ∧
    es.countP (UffdCall.releases ctx) = if watch.map RemapWatch.ctx = some ctx then 1 else 0

/-- A charge that is settled is released. -/
theorem Settled.released (h : Settled watch (chargeOf watch) c) (ctx : Arc) : c.Released ctx := by
  obtain ⟨es, hes, hcount⟩ := h
  obtain ⟨hb, hr⟩ := hcount ctx
  rw [Charged.Released, hes, List.countP_append, List.countP_append, hb, hr]
  cases watch with
  | none => simp [chargeOf]
  | some => simp [chargeOf, UffdCall.begins, UffdCall.releases]

theorem remapFailed_settles (c : Charged) :
    (remapFailed watch).Ends c fun _ c' => Settled watch c.calls c' := by
  cases watch with
  | none => exact ends_pure.mpr ⟨[], by simp, by simp⟩
  | some =>
    refine ends_modify.mpr ⟨_, rfl, fun ctx => ?_⟩
    simp [UffdCall.begins, UffdCall.releases]

theorem uncharged_calls (m : Vm ε α) (c : Charged) :
    (uncharged m).Ends c fun _ c' => c'.calls = c.calls :=
  (uncharged_ends fun _ _ _ => trivial).mono fun _ _ h => h.1

/-- The step was passed, or failed with the charge released. -/
def Passed (watch : Option RemapWatch) (calls : List UffdCall) (c : Charged) :
    Except Error α → Prop
  | .ok _ => c.calls = calls
  | .error _ => Settled watch calls c

/-- A step that cannot fail and calls nobody. -/
theorem passed_uncharged {m : Vm Error α} (hm : m.Ends c.space fun r _ => ∃ a, r = .ok a) :
    (uncharged m).Ends c fun r c' => Passed watch c.calls c' r := by
  refine (uncharged_ends hm).mono fun r c' h => ?_
  obtain ⟨hcalls, a, rfl⟩ := h
  exact hcalls

theorem ignore_ok (m : Vm Error α) (s : AddressSpace) :
    (m.ignore : Vm Error Unit).Ends s fun r _ => ∃ a, r = .ok a := by
  intro r s' h
  obtain ⟨p, -, hp⟩ := Except.map_eq_ok.mp h
  exact ⟨(), (Prod.mk.inj hp).1.symm⟩

/-- A step that calls nobody is passed, or fails with the charge released. -/
theorem passed_orRelease {m : ChargedVm Error α} (hm : m.Ends c fun _ c' => c'.calls = c.calls) :
    (orRelease watch m).Ends c fun r c' => Passed watch c.calls c' r := by
  refine Ends.bind (ends_attempt.mpr (hm.mono fun r c' h => ⟨r, rfl, h⟩))
    (R := fun r c' => ∃ r', r = .ok r' ∧ c'.calls = c.calls) ?_ ?_
  · rintro r c' ⟨r', hr, hcalls⟩
    cases r with
    | ok => exact ends_pure.mpr hcalls
    | error =>
      rw [← hcalls]
      exact Ends.bind (remapFailed_settles c') (fun _ _ h => ends_fail.mpr h) fun _ _ h => h
  · rintro e c' ⟨r', hr, -⟩
    cases hr

/-- What follows a step that was passed settles the charge. -/
theorem Passed.bind {m : ChargedVm Error α} {f : α → ChargedVm Error β}
    (hm : m.Ends c fun r c' => Passed watch c.calls c' r)
    (hf : ∀ a c', c'.calls = c.calls → (f a).Ends c' fun _ c'' => Settled watch c'.calls c'') :
    (m >>= f).Ends c fun _ c' => Settled watch c.calls c' := by
  refine Ends.bind hm (fun a c' h => ?_) fun _ _ h => h
  have hcalls : c'.calls = c.calls := h
  rw [← hcalls]
  exact hf a c' hcalls

theorem remapDone_settles (source to' len : ℕ) (c : Charged) :
    (remapDone watch source to' len).Ends c fun _ c' => Settled watch c.calls c' := by
  cases watch with
  | none => exact ends_pure.mpr ⟨[], by simp, by simp⟩
  | some =>
  refine Passed.bind (passed_uncharged ?_) fun _ c' _ => ends_modify.mpr ⟨_, rfl, fun ctx => ?_⟩
  · rw [setUffd]
    split
    · exact Ends.modifyBind (ends_onTree.mpr fun a _ _ => ⟨a, rfl⟩)
    · exact ends_pure.mpr ⟨(), rfl⟩
  · simp [UffdCall.begins, UffdCall.releases]

/-- **From the placement of the destination on, every way out releases the charge.** -/
theorem relocate_settles (src : Vma) (oldSize newSize : ℕ) (hint : Option UserVirtAddr)
    (fixed keep : Bool) (c : Charged) :
    (relocate env mover src old oldSize newSize hint fixed keep watch).Ends c
      fun _ c' => Settled watch c.calls c' := by
  refine Passed.bind ?_ fun _ c _ => Passed.bind
    (passed_orRelease (uncharged_calls _ c)) fun newVa c _ => ?_
  · cases fixed with
    | false => exact ends_pure.mpr rfl
    | true =>
    cases hint with
    | none => exact ends_pure.mpr rfl
    | some => exact passed_orRelease (ends_ofExcept.mpr rfl)
  cases mover.movePages old.asU64 newVa.asU64 (min oldSize newSize) with
  | error =>
    exact Passed.bind (passed_uncharged (ignore_ok _ _)) fun _ c _ =>
      Ends.bind (remapFailed_settles c) (fun _ _ h => ends_fail.mpr h) fun _ _ h => h
  | ok _ =>
  refine Passed.bind (passed_uncharged ?_) fun _ c _ =>
    Ends.bind (remapDone_settles _ _ _ c) (fun _ _ h => ends_pure.mpr h) fun _ _ h => h
  unfold when
  split_ifs
  · exact ignore_ok _ _
  · exact ends_pure.mpr ⟨(), rfl⟩

/-- The call charges the monitor of its source. -/
def ChargesMove (env : Env) (s : AddressSpace) (old : UserVirtAddr) (oldSize newSize : ℕ)
    (maymove fixed dontunmap : Bool) : Prop :=
  (s.watchOf env old).isSome ∧ old.asU64 % PAGE_SIZE_BYTES = 0 ∧ newSize ≠ 0 ∧
    old.asU64 + oldSize < 2 ^ 64 ∧
    if dontunmap then maymove ∧ newSize = oldSize
    else (newSize ≥ oldSize ∨ fixed) ∧ (maymove ∨ fixed)

/-- The call comes as far as the move: what it moves is in the source, there is something to move
(of a shared mapping, a copy), and it is not told to leave the source as it is. -/
def ReachesMove (old : UserVirtAddr) (oldSize newSize : ℕ) (fixed dontunmap : Bool) (src : Vma) :
    Prop :=
  if dontunmap then oldSize ≠ 0 ∧ old.asU64 + oldSize ≤ src.end.asU64
  else ¬ (newSize = oldSize ∧ fixed = false) ∧ old.asU64 + min newSize oldSize ≤ src.end.asU64 ∧
    (oldSize ≠ 0 ∨ src.flags &&& VmaFlags.SHARED ≠ 0)

variable {s : AddressSpace} {p : Prop} [Decidable p] {e : ε} {Q : Except ε β → Charged → Prop}

theorem ends_requireBind {f : Unit → ChargedVm ε β} : (Prog.require p e >>= f).Ends c Q ↔
    (p → (f ()).Ends c Q) ∧ (¬ p → Q (.error e) c) := by
  rw [Prog.require]
  split_ifs with hp
  · exact ⟨fun h => ⟨fun _ => h, fun hn => absurd hp hn⟩, fun h => h.1 hp⟩
  · exact (ends_of_eq rfl).trans ⟨fun h => ⟨fun h' => absurd h' hp, fun _ => h⟩, fun h => h.2 hp⟩

theorem ends_requireBind_bind {f : Unit → ChargedVm ε α} {g : α → ChargedVm ε β} :
    ((Prog.require p e >>= f) >>= g).Ends c Q ↔
      (p → (f () >>= g).Ends c Q) ∧ (¬ p → Q (.error e) c) := by
  rw [← ends_requireBind (f := fun u => f u >>= g)]
  by_cases hp : p
  · rw [Prog.require, if_pos hp]
    rfl
  · rw [Prog.require, if_neg hp]
    rfl

theorem ends_watchIfBind {b : Bool} {f : Option RemapWatch → ChargedVm ε β}
    (hw : watch = if b then s.watchOf env old else none) :
    (remapWatchIf b env old >>= f).Ends ⟨s, []⟩ Q ↔ (f watch).Ends ⟨s, chargeOf watch⟩ Q := by
  subst hw
  cases b with
  | false => rfl
  | true =>
    simp only [remapWatchIf, if_true, Ends, Bind.bind, remapWatch_eq, List.nil_append]

theorem clone_shared (v : Vma) :
    v.clone.flags &&& VmaFlags.SHARED = v.flags &&& VmaFlags.SHARED := by
  rw [Vma.clone, bitsDifference, BitVec.and_assoc]
  exact congrArg (v.flags &&& ·) (by decide)

/-- A charge alone is released when there is none. -/
theorem released_chargeOf_iff :
    (∀ ctx, (⟨s, chargeOf watch⟩ : Charged).Released ctx) ↔ watch = none := by
  cases watch with
  | none => simp [chargeOf, Charged.Released]
  | some w =>
    simp only [reduceCtorEq, iff_false, not_forall]
    exact ⟨w.ctx, by simp [chargeOf, Charged.Released, UffdCall.begins, UffdCall.releases]⟩

theorem relocate_released (src : Vma) (oldSize newSize : ℕ) (hint : Option UserVirtAddr)
    (fixed keep : Bool) :
    (relocate env mover src old oldSize newSize hint fixed keep watch).Ends
      ⟨s, chargeOf watch⟩ fun _ c => ∀ ctx, c.Released ctx :=
  (relocate_settles src oldSize newSize hint fixed keep _).mono fun _ _ h => h.released

/-- Once the source is checked, the charge stays when there is nothing to do. -/
theorem resize_released_iff (s : AddressSpace) (env : Env) (mover : Mover) (src : Vma)
    (old : UserVirtAddr) (newAddr : Option UserVirtAddr)
    (hw : watch ≠ none → (newSize ≥ oldSize ∨ fixed) ∧ (maymove ∨ fixed)) :
    ((resize env mover src old oldSize newSize maymove fixed newAddr watch).Ends
      ⟨s, chargeOf watch⟩ fun _ c => ∀ ctx, c.Released ctx) ↔
    (watch ≠ none → ¬ (newSize = oldSize ∧ fixed = false)) := by
  rw [resize]
  by_cases hshrink : newSize < oldSize ∧ fixed = false
  · have hnone : watch = none := by
      by_contra hne
      rcases (hw hne).1 with h | h
      · omega
      · exact absurd (hshrink.2.symm.trans h) (by simp)
    subst hnone
    have hcalls : ∀ c : Charged, c.calls = [] → ∀ ctx, c.Released ctx := by
      intro c hc ctx
      rw [Charged.Released, hc]
      rfl
    rw [if_pos hshrink]
    exact iff_of_true (Ends.bind (uncharged_calls _ _) (fun _ c h => ends_pure.mpr (hcalls c h))
      fun _ c h => hcalls c h) fun h => absurd rfl h
  rw [if_neg hshrink]
  by_cases hsame : newSize = oldSize ∧ fixed = false
  · rw [if_pos hsame]
    refine ends_pure.trans (released_chargeOf_iff.trans ?_)
    exact ⟨fun h hne => absurd h hne, fun h => by_contra fun hne => h hne hsame⟩
  rw [if_neg hsame]
  refine iff_of_true (ends_requireBind.mpr ⟨fun _ => relocate_released _ _ _ _ _ _, ?_⟩)
    fun _ => hsame
  exact fun hmay => released_chargeOf_iff.mpr (by_contra fun hne => hmay (hw hne).2)

/-- **A call releases what it has charged exactly when it does not charge, or comes as far as the
move.** -/
theorem charges_released_iff :
    ((mremapFullWithMove env mover old oldSize newSize maymove fixed dontunmap newAddr).Ends ⟨s, []⟩
      fun _ c => ∀ ctx, c.Released ctx) ↔
    (ChargesMove env s old oldSize newSize maymove fixed dontunmap →
      ∀ v, s.tree.findContaining old = some v →
        ReachesMove old oldSize newSize fixed dontunmap v) := by
  have hnil : ∀ ctx, (⟨s, []⟩ : Charged).Released ctx := fun _ => rfl
  -- the source is the mapping that the monitor was looked up in
  have hunmapped : s.tree.findContaining old = none → s.watchOf env old = none := by
    intro hv
    simp [watchOf, hv]
  rw [mremapFullWithMove, ends_requireBind, and_iff_left fun _ => hnil]
  by_cases hvalid : old.asU64 % PAGE_SIZE_BYTES = 0 ∧ newSize ≠ 0
  case neg =>
    exact iff_of_true (fun h => absurd h hvalid) fun hc => absurd ⟨hc.2.1, hc.2.2.1⟩ hvalid
  rw [forall_prop_of_true hvalid]
  by_cases hend : old.asU64 + oldSize < 2 ^ 64
  case neg =>
    rw [show endOfRaw old oldSize = .error .inval from if_neg hend]
    exact iff_of_true ((ends_of_eq rfl).mpr hnil) fun hc => absurd hc.2.2.2.1 hend
  rw [show endOfRaw old oldSize = .ok (old.asU64 + oldSize) from if_pos hend]
  simp only [ChargesMove, ReachesMove, hvalid, hend, true_and, ne_eq, not_false_eq_true]
  cases dontunmap with
  | true =>
    show Ends (Prog.require _ _ >>= _) (⟨s, []⟩ : Charged) _ ↔ _
    rw [ends_requireBind, and_iff_left fun _ => hnil]
    show (_ → Ends (remapWatchIf true env old >>= _) (⟨s, []⟩ : Charged) _) ↔ _
    rw [ends_watchIfBind rfl]
    cases hv : s.tree.findContaining old with
    | none =>
      exact iff_of_true (fun _ => ends_fail.mpr (released_chargeOf_iff.mpr (hunmapped hv)))
        fun _ _ h => absurd h (by simp)
    | some =>
    rw [ends_requireBind]
    simp only [if_true, relocate_released, released_chargeOf_iff, Option.some.injEq,
      forall_eq', Option.isSome_iff_ne_none]
    tauto
  | false =>
  obtain ⟨w, hw⟩ : ∃ w, w = if (newSize ≥ oldSize || fixed) && (maymove || fixed) then
    s.watchOf env old else none := ⟨_, rfl⟩
  show Ends (remapWatchIf _ env old >>= _) (⟨s, []⟩ : Charged) _ ↔ _
  rw [ends_watchIfBind hw]
  have hcharges : (s.watchOf env old).isSome ∧ (newSize ≥ oldSize ∨ fixed) ∧
      (maymove ∨ fixed) ↔ w ≠ none := by
    by_cases hb : (newSize ≥ oldSize ∨ fixed) ∧ (maymove ∨ fixed)
    · rw [hw, if_pos (by simpa using hb), Option.isSome_iff_ne_none, and_iff_left hb]
    · rw [hw, if_neg (by simpa using hb)]
      exact iff_of_false (fun h => hb h.2) fun h => h rfl
  cases hv : s.tree.findContaining old with
  | none =>
    refine iff_of_true (ends_fail.mpr (released_chargeOf_iff.mpr (by_contra fun hne => ?_)))
      fun _ _ h => absurd h (by simp)
    have := (hcharges.mpr hne).1
    rw [hunmapped hv] at this
    cases this
  | some v =>
    have hrest := resize_released_iff s env mover v.clone old newAddr
      fun hne => (hcharges.mpr hne).2
    simp only [Option.some.injEq, forall_eq', Bool.false_eq_true, if_false]
    rw [hcharges]
    unfold when
    by_cases hgrow : (fixed || newSize > oldSize) = true
    · have hcov : endOfRaw old (min newSize oldSize) = .ok (old.asU64 + min newSize oldSize) :=
        if_pos (by omega)
      rw [if_pos hgrow, hcov]
      show Ends ((Prog.require _ _ >>= fun _ => Prog.require _ _) >>= _) _ _ ↔ _
      rw [ends_requireBind_bind, ends_requireBind, hrest, clone_shared, released_chargeOf_iff]
      constructor
      · intro h hne
        have hin := by_contra fun hin => hne (h.2 hin)
        have hkind := by_contra fun hkind => hne ((h.1 hin).2 hkind)
        exact ⟨(h.1 hin).1 hkind hne, hin, hkind⟩
      · intro h
        exact ⟨fun _ => ⟨fun _ hne => (h hne).1, fun hkind => by_contra fun hne =>
          hkind (h hne).2.2⟩, fun hin => by_contra fun hne => hin (h hne).2.1⟩
    -- a call that neither grows nor is fixed and charges asks for the size there is
    rw [if_neg hgrow]
    refine hrest.trans (imp_congr_right fun hne => ⟨fun h => absurd ?_ h, fun h => h.1⟩)
    have hmoves := (hcharges.mpr hne).2.1
    simp only [Bool.or_eq_true, decide_eq_true_eq, not_or, Bool.not_eq_true] at hgrow
    rw [hgrow.1] at hmoves ⊢
    exact ⟨by have := hmoves.resolve_right (by simp); omega, rfl⟩

/-- Four anonymous pages, watched by a monitor. -/
def watchedVma : Vma :=
  { TreeOp.plainVma (TreeOp.pageAddr 1) (TreeOp.pageAddr 5) (6 ||| VmaFlags.UFFD_MISSING)
      .anonymous with uffd := some ⟨9⟩ }

def watchedSpace : AddressSpace :=
  { new ⟨0⟩ 0x100000 true .empty with tree := VmaTree.new.store watchedVma, hasUffd := true }

/-- Every monitor tracks moves. -/
def trackingEnv : Env := { Env.plain with wantsRemap := fun _ => true }

/-- Asked to give the mapping the size it has, the call returns with the monitor charged. -/
theorem same_size_stays_charged :
    mremapFullWithMove trackingEnv ⟨fun _ _ _ => .ok (), fun _ _ => .ok ()⟩
      (TreeOp.pageAddr 1) 16384
        16384 true false false none ⟨watchedSpace, []⟩ =
      .ok (.ok (TreeOp.pageAddr 1), ⟨watchedSpace, [.changeBegin ⟨9⟩]⟩) ∧
    ¬ (⟨watchedSpace, [.changeBegin ⟨9⟩]⟩ : Charged).Released ⟨9⟩ := by
  have hraw : endOfRaw (TreeOp.pageAddr 1) 16384 = .ok ((TreeOp.pageAddr 1).asU64 + 16384) :=
    if_pos (by decide)
  constructor
  · rw [mremapFullWithMove, hraw]
    rfl
  · simp [Charged.Released, UffdCall.begins, UffdCall.releases]

end AddressSpace

end Oxide
