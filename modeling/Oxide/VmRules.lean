/-
Rules for the operations of an address space.

Each rule says what an operation can leave behind, in terms of the moves of the tree
(`Reshape`, `Inserted`) and of the edges (`detachSpan`, `attachSpan`, `attachVma`). An invariant
of the address space is then checked against these few shapes, not against the code.

* `rmapResplit_rule`: a change of the tree between detaching and re-attaching;
* `munmap_rule`: nothing, or a removal with its edges replaced;
* `MmapCall.run_ends`: nothing, or the new mapping published in its place;
* `markAnonPage_rule`, `prepareAnonVma_rule`: one VMA rewritten in place;
* `forkTree_rule`: the insertions that build the tree of a child.
-/
import Oxide.RmapSpan
import Oxide.MmSystem

namespace Oxide

open Except

variable {s : AddressSpace} {start va : UserVirtAddr} {e len : ℕ}

/-- The reverse map of the object behind a backing. -/
def VmaBacking.owner (objects : Arc → Option Arc) : VmaBacking → Option Arc
  | .file object _ => objects object
  | _ => none

variable {env : Env} {t : VmaTree}

namespace AddressSpace

open Prog VmaTree

/-! ### Arguments -/

variable {u : Unit}

theorem of_validateLen (h : validateLen len = .ok u) : 0 < len ∧ len % PAGE_SIZE_BYTES = 0 := by
  rw [validateLen] at h
  split_ifs at h with hc
  omega

theorem of_validateAligned (h : validateAligned va = .ok u) : va.asU64 % PAGE_SIZE_BYTES = 0 := by
  rw [validateAligned] at h
  split_ifs at h with hc
  exact beq_iff_eq.mp hc

theorem of_endOfRaw (h : endOfRaw start len = .ok e) : e = start.asU64 + len := by
  rw [endOfRaw] at h
  split_ifs at h
  exact (Except.ok.inj h).symm

theorem of_endOf {e : UserVirtAddr} (h : endOf start len = .ok e) :
    e.asU64 = start.asU64 + len := by
  obtain ⟨x, hr, h⟩ := bind_eq_ok.mp h
  obtain rfl := of_endOfRaw hr
  rw [UserVirtAddr.new] at h
  split_ifs at h with hu
  · rw [← Except.ok.inj h]

/-- Only a fixed mapping replaces a range, and it replaces its own. -/
theorem of_place_replaced {align : ℕ} {placement : MmapPlacement} {e : UserVirtAddr}
    (h : s.place align placement len = .ok (start, some e)) :
    placement = .fixed start ∧ e.asU64 = start.asU64 + len := by
  cases placement with
  | fixed =>
    obtain ⟨e', hexact, h⟩ := bind_eq_ok.mp h
    obtain ⟨rfl, he⟩ := Prod.mk.inj (Except.ok.inj h)
    cases he
    obtain ⟨_, -, hend⟩ := bind_eq_ok.mp hexact
    split_ifs at hend
    exact ⟨rfl, of_endOf (mapError_eq_ok.mp hend)⟩
  | fixedNoReplace =>
    obtain ⟨_, -, h⟩ := bind_eq_ok.mp h
    split_ifs at h
    simp [pure, Except.pure] at h
  | advisory =>
    simp only [place] at h
    split at h
    · simp at h
    · simp at h
  | advisoryAligned =>
  simp only [place] at h
  split at h
  · simp at h
  · simp at h

/-! ### Removal -/

/-- `rmap_resplit`, case by case: no VMA meets the range, or the edges of the span are replaced
around a change that succeeds. -/
theorem rmapResplit_rule {α : Type} {op : Vm Error α} {st : AddressSpace} {s : ℕ}
    {Q : Except Error α → AddressSpace → Prop} (hw : st.tree.WellFormed)
    (hout : overlapping st.tree s e = [] → op.Ends st Q)
    (hin : ∀ lo hi, Span st.tree s e lo hi → op.Ends (detachSpan lo hi st) fun r st' =>
      ∃ a, r = .ok a ∧ Q (.ok a) (attachSpan lo hi st')) :
    (rmapResplit s e op).Ends st Q := by
  refine Ends.getBind ?_
  cases hsp : superRange st.tree s e with
  | mk lo hi =>
  show Ends (if lo > hi then op else _) st Q
  rcases superRange_spec hw hsp with ⟨hnil, hlt⟩ | ⟨-, hspan⟩
  · rw [if_pos hlt]
    exact hout hnil
  rw [if_neg (by have := hspan.lt; omega)]
  refine Ends.modifyBind (Ends.bind (hin lo hi hspan) ?_ ?_)
  · rintro a s' ⟨a', ha, hQ⟩
    cases ha
    exact Ends.modifyBind (ends_pure.mpr hQ)
  · rintro e s' ⟨a', ha, -⟩
    cases ha

/-- What `munmap` leaves. -/
theorem munmap_rule {addr : UserVirtAddr}
    {Q : Except Error Unit → AddressSpace → Prop} (hw : s.tree.WellFormed)
    (hrefused : ∀ e, Q (.error e) s)
    (hmissed : ∀ t' a, 0 < len → addr.asU64 % PAGE_SIZE_BYTES = 0 → len % PAGE_SIZE_BYTES = 0 →
      overlapping s.tree addr.asU64 (addr.asU64 + len) = [] →
      Reshape (fun _ => none) addr (addr.asU64 + len) s.tree t' →
      Q (.ok ()) { s with tree := t', accounting := a })
    (hremoved : ∀ lo hi t' a, 0 < len → addr.asU64 % PAGE_SIZE_BYTES = 0 →
      len % PAGE_SIZE_BYTES = 0 → Span s.tree addr.asU64 (addr.asU64 + len) lo hi →
      Reshape (fun _ => none) addr (addr.asU64 + len) s.tree t' →
      Q (.ok ()) { attachSpan lo hi { detachSpan lo hi s with tree := t' } with accounting := a }) :
    (munmap env addr len).Ends s Q := by
  refine Ends.ofExceptBind (fun u hlen => ?_) fun e _ => hrefused e
  refine Ends.ofExceptBind (fun u' halign => ?_) fun e _ => hrefused e
  refine Ends.ofExceptBind (fun e hend => ?_) fun e _ => hrefused e
  obtain rfl := of_endOfRaw hend
  obtain ⟨hpos, hlen'⟩ := of_validateLen hlen
  have halign' := of_validateAligned halign
  refine Ends.getBind (Ends.requireBind (fun _ => ?_) fun _ => hrefused _)
  refine Ends.requireBind (fun _ => ?_) fun _ => hrefused _
  refine Ends.bind (R := fun r s' => ∃ removed, r = .ok removed ∧
    ∀ a, Q (.ok ()) { s' with accounting := a }) (rmapResplit_rule hw ?_ ?_) ?_ ?_
  · intro hnil
    rw [ends_onTree]
    intro removed t' hrem
    exact ⟨removed, rfl, fun a => hmissed t' a hpos halign' hlen' hnil
      (removeRangeRawEnd_reshape hw hrem)⟩
  · intro lo hi hspan
    rw [ends_onTree]
    intro removed t' hrem
    exact ⟨removed, rfl, removed, rfl, fun a => hremoved lo hi t' a hpos halign' hlen' hspan
      (removeRangeRawEnd_reshape hw hrem)⟩
  · rintro removed s' ⟨_, -, hQ⟩
    exact ends_modify.mpr (hQ _)
  · rintro e s' ⟨_, hr, -⟩
    cases hr

/-! ### Mapping -/

/-- The VMA of a new mapping, as it is inserted. -/
def mappedVma (s : AddressSpace) (start «end» : UserVirtAddr) (prot mayProt : VmaProt)
    (flags : VmaFlags) (backing : VmaBacking) (anonVma : Option Arc) : Vma :=
  Vma.clone
    { start, «end», prot, mayProt, pkey := 0, flags := s.futureFlags flags, backing, rss := 0,
      anonVma, anonPages := false, fileRmap := backing.owner s.rmaps.fileRmap, anonName := none,
      uffd := none, mempolicy := none, mappingOrigin := none }

/-- The family of a new mapping: anonymous memory gets a new one. -/
def NewFamily (r : Rmaps) (backing : VmaBacking) (av : Option Arc) (r' : Rmaps) : Prop :=
  if backing = .anonymous then av = some r.newAnon.1 ∧ r' = r.newAnon.2 else av = none ∧ r' = r

/-- The tree in which the new mapping is inserted. -/
def Cleared (s : AddressSpace) (start : UserVirtAddr) (len : ℕ) (replaced : Option UserVirtAddr)
    (t : VmaTree) : Prop :=
  match replaced with
  | none => t = s.tree
  | some _ => Reshape (fun _ => none) start (start.asU64 + len) s.tree t

variable {replaced : Option UserVirtAddr}

/-- The tree is the old one, or a range was removed from it. -/
theorem Cleared.cases (h : s.Cleared start len replaced t) :
    t = s.tree ∨ replaced ≠ none ∧
      Reshape (fun _ => none) start (start.asU64 + len) s.tree t := by
  cases replaced with
  | none => exact .inl h
  | some => exact .inr ⟨by simp, h⟩

theorem Cleared.wellFormed
    (h : s.Cleared start len replaced t) (hw : s.tree.WellFormed) : t.WellFormed := by
  rcases h.cases with rfl | ⟨-, h⟩
  · exact hw
  · exact h.wellFormed (keepsContent_none _ _).fills hw

/-- The end of whole pages. -/
theorem end_aligned (hs : start.asU64 % PAGE_SIZE_BYTES = 0) (hlen : len % PAGE_SIZE_BYTES = 0) :
    (start.asU64 + len) % PAGE_SIZE_BYTES = 0 := by
  rw [Nat.add_mod, hs, hlen]
  rfl

theorem mappedVma_whole {e : UserVirtAddr} {prot mayProt : VmaProt} {flags : VmaFlags}
    {backing : VmaBacking} {av : Option Arc} (hs : start.asU64 % PAGE_SIZE_BYTES = 0)
    (hlen : len % PAGE_SIZE_BYTES = 0) (he : e.asU64 = start.asU64 + len)
    (hfits : ∀ f off, backing = .file f off → off.toNat + len ≤ 2 ^ 64) :
    (s.mappedVma start e prot mayProt flags backing av).Whole := by
  refine ⟨hs, he ▸ end_aligned hs hlen, fun f off hb => ?_⟩
  show off.toNat + (e.asU64 - start.asU64) ≤ 2 ^ 64
  have := hfits f off hb
  omega

theorem endOf_eq {e : UserVirtAddr} (h : e.asU64 = start.asU64 + len) :
    endOf start len = .ok e := by
  have := e.asU64_lt
  rw [endOf, endOfRaw, if_pos (by omega), ← h]
  simp only [bind, Except.bind, UserVirtAddr.new_eq_some e.isUser]

/-- The arguments of `mmap`. -/
structure MmapCall where
  env : Env
  placement : MmapPlacement
  len : ℕ
  prot : VmaProt
  mayProt : VmaProt
  flags : VmaFlags
  backing : VmaBacking
  mdwe : MdweMode

namespace MmapCall

variable (c : MmapCall) (s : AddressSpace)

def run : Vm MmapError UserVirtAddr :=
  mmapWithMayAtInnerLocked c.env c.placement c.len c.prot c.mayProt c.flags c.backing c.mdwe

def granule : ℕ := AddressSpace.granule c.env c.placement c.backing

/-- The checks of a `MAP_FIXED` mapping over `[start, e)` pass. -/
structure Replaces (start e : UserVirtAddr) : Prop where
  len_ok : validateLen c.len = .ok ()
  placed : s.place c.granule c.placement c.len = .ok (start, some e)
  admitted : s.admitMapping c.env c.mdwe start e c.prot c.mayProt (s.futureFlags c.flags)
    c.backing = .ok ()
  unsealed : s.tree.anySealed start e = false
  splits : s.tree.refusesSplit c.env start e = false

/-- The new mapping has its place in `t`, free or cleared for it. -/
structure Ready (start e : UserVirtAddr) (replaced : Option UserVirtAddr) (t : VmaTree) : Prop where
  pos : 0 < c.len
  pages : c.len % PAGE_SIZE_BYTES = 0
  placed : s.place c.granule c.placement c.len = .ok (start, replaced)
  end_eq : e.asU64 = start.asU64 + c.len
  cleared : s.Cleared start c.len replaced t
  removed : replaced ≠ none → c.Replaces s start e ∧
    ∃ removed, s.tree.removeRange start e = .ok (removed, t)

/-- The ends of `mmap`: nothing but a family without edges is left by an error, and a new mapping
is published in its place. -/
inductive Ended : Except MmapError UserVirtAddr → AddressSpace → Prop
  | refused {err r} (family : r = s.rmaps ∨ r = s.rmaps.newAnon.2)
      (checked : ∀ start e, ¬ c.Replaces s start e) : Ended (.error err) { s with rmaps := r }
  | published {start e : UserVirtAddr} {replaced t t' a av r v}
      (ready : c.Ready s start e replaced t) (family : NewFamily s.rmaps c.backing av r)
      (inserted : Inserted t (s.mappedVma start e c.prot c.mayProt c.flags c.backing av) t')
      (found : t'.findContaining start = some v) :
      Ended (.ok start) { s with
        tree := t', accounting := a, rmaps := r.attachVma s.selfWeak v start.asU64 e.asU64 }

variable {c} {s}

/-- The end of the transaction: the new VMA is published, unless it does not fit in a tree that no
range was cleared in. -/
theorem publish_ends {e : UserVirtAddr} {a : VmAccounting} (hw : s.tree.WellFormed)
    (h : c.Ready s start e replaced t) (hkept : replaced = none → a = s.accounting) :
    (newWithMay start e c.prot c.mayProt (s.futureFlags c.flags) c.backing >>= fun added =>
      (publish added).mapError MmapError.vmm >>= fun _ => pure start).Ends
        { s with tree := t, accounting := a } (c.Ended s) := by
  have hwt := h.cleared.wellFormed hw
  refine Ends.ofStepBind fun added s2 hstep => ?_
  obtain ⟨av, r, hfam, hclone, hs, hae, rfl⟩ : ∃ av r, NewFamily s.rmaps c.backing av r ∧
      added.clone = s.mappedVma start e c.prot c.mayProt c.flags c.backing av ∧
      added.start = start ∧ added.end = e ∧
      s2 = { s with tree := t, accounting := a, rmaps := r } := by
    obtain ⟨env, placement, len, prot, mayProt, flags, backing, mdwe⟩ := c
    cases backing with
    | anonymous =>
      cases hstep
      exact ⟨_, _, ⟨rfl, rfl⟩, rfl, rfl, rfl, rfl⟩
    | _ =>
      cases hstep
      exact ⟨none, s.rmaps, by exact ⟨rfl, rfl⟩, rfl, rfl, rfl, rfl⟩
  refine Ends.bind (R := fun r s' => c.Ended s (r.map fun _ => start) s') (ends_mapError.mpr ?_)
    (fun _ s' h => ends_pure.mpr h) fun _ s' h => h
  refine Ends.onTreeBind fun r t' hins => ?_
  rw [hclone] at hins
  rcases insert_run hwt hins with ⟨rfl, rfl, hfit⟩ | ⟨rfl, -⟩
  · refine Ends.ofExceptBind (fun _ h => nomatch h) fun _ _ => ?_
    cases replaced with
    | none =>
      obtain rfl : t' = s.tree := h.cleared
      obtain rfl := hkept rfl
      refine .refused ?_ fun _ _ hchecks => nomatch h.placed.symm.trans hchecks.placed
      rw [NewFamily] at hfam
      split_ifs at hfam
      · exact .inr hfam.2
      · exact .inl hfam.2
    | some =>
    obtain ⟨-, _, hrun⟩ := h.removed (by simp)
    obtain ⟨_, _, hrun', hl⟩ := removeRange_spec hw start e
    cases hrun'.symm.trans hrun
    have hne : start.asU64 < e.asU64 := by have := h.pos; have := h.end_eq; omega
    exact absurd ((hl.overlaid hne).2.fits hw rfl rfl hne) (hfit hne)
  have hin := insert_inserted hwt hins
  obtain ⟨v, hfind⟩ := hin.exists_find hwt
  refine Ends.ofExceptBind (fun _ _ => Ends.modifyBind (ends_modify.mpr ?_)) fun _ h => nomatch h
  rw [attachNew, hs, hae]
  have hfind' : t'.findContaining start = some v := hfind
  simp only [hfind']
  exact .published h hfam hin hfind

/-- **`mmap`, run to its end.** -/
theorem run_ends (hw : s.tree.WellFormed) : c.run.Ends s (c.Ended s) := by
  refine Ends.ofExceptBind (fun u hlen => ?_) fun _ herr => .refused (.inl rfl) fun _ _ h => by
    rw [h.len_ok] at herr
    exact nomatch herr
  have hlen' := mapError_eq_ok.mp hlen
  obtain ⟨hpos, hpages⟩ := of_validateLen hlen'
  refine Ends.getBind (Ends.ofExceptBind (fun q hplace => ?_) fun _ herr => .refused (.inl rfl)
    fun _ _ h => nomatch herr.symm.trans h.placed)
  obtain ⟨start, replaced⟩ := q
  -- a mapping replaces the range it was placed at, so a check that fails there refuses it
  have hat : ∀ {start' e'}, c.Replaces s start' e' →
      start' = start ∧ endOf start c.len = .ok e' := by
    intro start' e' h
    obtain ⟨rfl, hr⟩ := Prod.mk.inj (Except.ok.inj (hplace.symm.trans h.placed))
    exact ⟨rfl, endOf_eq (of_place_replaced h.placed).2⟩
  refine Ends.ofExceptBind (fun e hend => ?_) fun _ herr => .refused (.inl rfl) fun _ _ h => by
    rw [(hat h).2] at herr
    exact nomatch herr
  have hend' := mapError_eq_ok.mp hend
  have he := of_endOf hend'
  have hno : ¬ c.Replaces s start e → ∀ start e, ¬ c.Replaces s start e := by
    intro hno start' e' h
    obtain ⟨rfl, hend''⟩ := hat h
    cases hend'.symm.trans hend''
    exact hno h
  refine Ends.ofExceptBind (fun u hadm => ?_) fun _ herr => .refused (.inl rfl) (hno fun h => by
    rw [h.admitted] at herr
    exact nomatch herr)
  cases replaced with
  | none => exact publish_ends hw ⟨hpos, hpages, hplace, he, rfl, nofun⟩ fun _ => rfl
  | some e' =>
  obtain rfl : e' = e := UserVirtAddr.eq_iff.mpr ((of_place_replaced hplace).2.trans he.symm)
  refine Ends.bind (R := fun r s1 => match r with
    | .error err => c.Ended s (.error err) s1
    | .ok _ => ∃ t a removed, s1 = { s with tree := t, accounting := a } ∧
      c.Replaces s start e' ∧ s.tree.removeRange start e' = .ok (removed, t))
    (ends_mapError.mpr (Ends.getBind (Ends.requireBind (fun hseal => ?_) fun hseal =>
      .refused (.inl rfl) (hno fun h => hseal h.unsealed)))) ?_ fun _ _ h => h
  · exact Ends.requireBind (fun hsplit => Ends.onTreeBind fun removed t hrem => ends_modify.mpr
      ⟨t, _, removed, rfl, ⟨hlen', hplace, mapError_eq_ok.mp hadm, hseal, hsplit⟩, hrem⟩)
      fun hsplit => .refused (.inl rfl) (hno fun h => hsplit h.splits)
  rintro _ _ ⟨t, a, removed, rfl, hchecks, hrem⟩
  have hresh := removeRangeRawEnd_reshape hw hrem
  rw [he] at hresh
  exact publish_ends hw ⟨hpos, hpages, hplace, he, hresh, fun _ => ⟨hchecks, removed, hrem⟩⟩ nofun

end MmapCall

end AddressSpace

namespace MmSystem

open Prog VmaTree

/-! ### Faults and forks -/

theorem updateVma_updated (hw : t.WellFormed) {v : Vma} (f : Vma → Vma)
    (hfind : t.findContaining va = some v) (hs : (f v).start = v.start) (he : (f v).end = v.end) :
    Updated t v (f v) (updateVma va f t) where
  stored := ((findContaining_eq_some_iff hw).mp hfind).1
  start_eq := hs
  end_eq := he
  map_eq := by rw [updateVma, hfind, mapReinsert_map]

theorem markAnonPage_rule {ε : Type}
    {P : AddressSpace → Prop} (hw : s.tree.WellFormed) (hnone : P s)
    (hmarked : ∀ v t', s.tree.findContaining va = some v →
      Updated s.tree v { v with anonPages := true } t' → P { s with tree := t' }) :
    (markAnonPage va : Vm ε Unit).Ends s fun _ s' => P s' := by
  refine ends_modify.mpr ?_
  cases hfind : s.tree.findContaining va with
  | none =>
    rwa [updateVma, hfind]
  | some v =>
    exact hmarked v _ hfind (updateVma_updated hw (fun v => { v with anonPages := true }) hfind rfl
      rfl)

theorem prepareAnonVma_rule
    {Q : Except Error Arc → AddressSpace → Prop} (hw : s.tree.WellFormed)
    (hmissing : ∀ e, Q (.error e) s)
    (hfound : ∀ v av, s.tree.findContaining va = some v → v.anonVma = some av → Q (.ok av) s)
    (hnew : ∀ v t', s.tree.findContaining va = some v → v.anonVma = none →
      Updated s.tree v { v with anonVma := some s.rmaps.newAnon.1 } t' →
      Q (.ok s.rmaps.newAnon.1) { s with
        tree := t'
        rmaps := s.rmaps.newAnon.2.attachAnon s.rmaps.newAnon.1 s.selfWeak v.start.asU64
          v.end.asU64 }) :
    (prepareAnonVma va).Ends s Q := by
  refine Ends.getBind ?_
  cases hfind : s.tree.findContaining va with
  | none => exact ends_fail.mpr (hmissing _)
  | some v =>
  cases hav : v.anonVma with
  | some av =>
    simp only [hav]
    exact ends_pure.mpr (hfound v av hfind hav)
  | none =>
  simp only [hav]
  exact Ends.modifyBind (ends_pure.mpr (hnew v _ hfind hav (updateVma_updated hw
    (fun v => { v with anonVma := some s.rmaps.newAnon.1 }) hfind rfl rfl)))

/-- What a fault does: nothing, a leaf without a family, the first touch of a page, or a private
copy. -/
theorem handlePageFault_cases {mm : Arc} {access : FaultAccess} {o : FaultAnswers}
    {w w' : MmSystem} (h : w.handlePageFault env mm va access o = .ok w') :
    w' = w ∨ w' = w.setLeaf mm (pageOf va) ⟨none⟩ ∨
    (∃ s v av, w.space mm = some s ∧ s.tree.findContaining va = some v ∧ v.anonVma = some av ∧
      ((w.setLeaf mm (pageOf va) ⟨some (av, pageIndex v va)⟩).onSpace mm
        (markAnonPage va : Vm Error Unit)).map Prod.snd = .ok w') ∨
    (∃ s v r w1, w.space mm = some s ∧ s.tree.findContaining va = some v ∧
      w.onSpace mm (prepareAnonVma va) = .ok (r, w1) ∧
      ((∃ av, r = some (.ok av) ∧
        ((w1.setLeaf mm (pageOf va) ⟨some (av, pageIndex v va)⟩).onSpace mm
          (markAnonPage va : Vm Error Unit)).map Prod.snd = .ok w') ∨ w' = w1)) := by
  have hsame : ∀ {w1 : MmSystem}, Except.ok (ε := Panic) w1 = .ok w' → w' = w1 :=
    fun h => (Except.ok.inj h).symm
  rw [handlePageFault] at h
  split_ifs at h with hleaf hwrite
  · -- a write to a present leaf
    rw [handleWriteProtection] at h
    cases hv : (w.space mm).bind fun s => s.tree.findContaining va with
    | none =>
      rw [hv] at h
      exact .inl (hsame h)
    | some v =>
    obtain ⟨s, hs, hfind⟩ := Option.bind_eq_some_iff.mp hv
    simp only [hv] at h
    split_ifs at h with hkeep hpriv
    · exact .inl (hsame h)
    · obtain ⟨⟨r, w1⟩, hq, h⟩ := bind_eq_ok.mp h
      refine .inr (.inr (.inr ⟨s, v, r, w1, hs, hfind, hq, ?_⟩))
      dsimp only at h
      split at h
      · exact .inl ⟨_, rfl, h⟩
      · exact .inr (hsame h)
    · exact .inr (.inl (hsame h))
  · exact .inl (hsame h)
  -- an absent leaf
  rw [handleNotPresent] at h
  cases hv : (w.space mm).bind fun s => s.tree.findContaining va with
  | none =>
    rw [hv] at h
    exact .inl (hsame h)
  | some v =>
  obtain ⟨s, hs, hfind⟩ := Option.bind_eq_some_iff.mp hv
  have hfill : Except.ok (ε := Panic) (if o.filled then w.setLeaf mm (pageOf va) ⟨none⟩ else w) =
      .ok w' → w' = w ∨ w' = w.setLeaf mm (pageOf va) ⟨none⟩ := by
    intro h
    rw [hsame h]
    split
    · exact .inr rfl
    · exact .inl rfl
  simp only [hv] at h
  by_cases hadm : (!o.admitted || !v.prot.permits access) = true
  · rw [if_pos hadm] at h
    exact .inl (hsame h)
  rw [if_neg hadm] at h
  cases hb : v.backing with
  | anonymous =>
    simp only [hb, handleAnonymousNotPresent] at h
    cases hav : v.anonVma with
    | none =>
      rw [hav] at h
      exact .inl (hsame h)
    | some av =>
    simp only [hav] at h
    split_ifs at h
    · exact .inl (hsame h)
    · exact .inr (.inr (.inl ⟨s, v, av, hs, hfind, hav, h⟩))
  | _ =>
  rw [hb] at h
  rcases hfill h with h | h
  · exact .inl h
  · exact .inr (.inl h)

/-- The tree of a child is built by insertions. -/
theorem forkTree_rule {J : VmaTree → List Vma → Prop}
    (hstep : ∀ t done v t', t.WellFormed → J t done → Inserted t (childVma v) t' →
      J t' (done ++ [v])) (vmas : List Vma) (done : List Vma) (hw : t.WellFormed)
    (hJ : J t done) :
    (forkTree vmas).Ends t fun r t' => r = .ok () → t'.WellFormed ∧ J t' (done ++ vmas) := by
  induction vmas generalizing done t with
  | nil =>
    refine ends_pure.mpr fun _ => ⟨hw, ?_⟩
    rwa [List.append_nil]
  | cons v vmas ih =>
  refine Ends.bind (R := fun r t' => r = .ok () → t'.WellFormed ∧ J t' (done ++ [v])) ?_ ?_ ?_
  · refine Ends.ofStepBind fun r t' hins => ends_ofExcept.mpr fun hr => ?_
    cases r with
    | error => simp [Except.mapError] at hr
    | ok =>
      have hin := insert_inserted hw hins
      exact ⟨hin.wellFormed, hstep t done v t' hw hJ hin⟩
  · intro u t' h
    obtain ⟨hw', hJ'⟩ := h rfl
    refine (ih (done ++ [v]) hw' hJ').mono fun r t'' hr hok => ?_
    rw [← List.append_cons done v vmas] at hr
    exact hr hok
  · intro e t' _ h
    cases h

end MmSystem

end Oxide
