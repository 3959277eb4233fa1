/-
The byte counters of an address space agree with its tree.

The counters are kept at scattered places: insertion, removal of fragments, exchange of locked
bytes. `Ledger` says that each is the number of bytes of its VMAs and that no subtraction has
wrapped. Every operation keeps it except one: `try_grow_stack` extends a VMA downwards and
leaves the counters as they are.

* `Charged`: the counters of some sums, with the rules for charging and releasing a VMA;
* `mmapWithMayAtInnerLocked_ledger`, `munmapLocked_ledger`, …: each operation keeps the ledger;
* `MmOp.accounted_iff`: **the counters are right in every state of a run exactly when no
  `try_grow_stack` of the run extends a VMA**.
-/
import Oxide.VmaExtent
import Oxide.Mremap

namespace Oxide

open VmaTree OrdMap

variable {s s' : AddressSpace} {α ε : Type} {e start va : UserVirtAddr} {p : Vma → Bool}
  {clear set : VmaFlags} {t t' : VmaTree} {c maxGrow maxSize n : ℕ}

/-! ### Counters -/

namespace VmAccounting

theorem all_attribute : Attribute fun _ => true where
  fragment _ _ _ := rfl
  absorb _ := rfl
  shared _ := rfl

theorem committed_attribute : Attribute committed where
  fragment v a b := by
    cases hb : v.backing <;> simp [committed, Vma.cloneSubrange, VmaBacking.rebase, hb]
  absorb _ := rfl
  shared {l r} hm := by
    rcases VmaBacking.continuesTo_iff.mp hm.backing with ⟨hl, hr⟩ | ⟨f, off, off', hl, hr, -⟩
    · simp [committed, hl, hr]
    · simp [committed, hl, hr, hm.flags]

theorem locked_attribute : Attribute locked where
  fragment _ _ _ := rfl
  absorb _ := rfl
  shared hm := by rw [locked, locked, hm.flags]

/-- The attributes the counters look at. -/
inductive Counted : (Vma → Bool) → Prop
  | all : Counted fun _ => true
  | committed : Counted committed
  | locked : Counted locked

theorem Counted.attribute (h : Counted p) : Attribute p := by
  cases h with
  | all => exact all_attribute
  | committed => exact committed_attribute
  | locked => exact locked_attribute

theorem shared_bit (flags : VmaFlags) : bitsContain flags VmaFlags.SHARED = flags.getLsbD 0 :=
  bitsContain_twoPow flags (by decide : 0 < 32)

theorem locked_bit (flags : VmaFlags) : bitsContain flags VmaFlags.LOCKED = flags.getLsbD 4 :=
  bitsContain_twoPow flags (by decide : 4 < 32)

/-- A rewrite keeps the counted attributes if it keeps the backing and the two flags. -/
theorem Counted.rewrite (hp : Counted p) {v w : Vma} (hb : w.backing = v.backing)
    (hs : w.flags.getLsbD 0 = v.flags.getLsbD 0) (hl : w.flags.getLsbD 4 = v.flags.getLsbD 4) :
    p w = p v := by
  cases hp with
  | all => rfl
  | committed => simp only [VmAccounting.committed, hb, shared_bit, hs]
  | locked => rw [VmAccounting.locked, VmAccounting.locked, locked_bit, locked_bit, hl]

/-- The bytes of a VMA with the attribute. -/
def charge (p : Vma → Bool) (v : Vma) : ℕ := extent p 0 USER_VA_END v

theorem charge_eq {v : Vma} (hne : v.start.asU64 < v.end.asU64) (p : Vma → Bool) :
    charge p v = if p v then bytes v else 0 := by
  have hb : bytes v = v.end.asU64 - v.start.asU64 := Vma.toNat_bits_sub hne.le
  have he : min v.end.asU64 USER_VA_END = v.end.asU64 := min_eq_left v.end.isUser.le
  rw [charge, extent, hb, he, Nat.max_zero]

theorem fetchAdd_of_lt (h : c + n < 2 ^ 64) : fetchAdd c n = c + n := Nat.mod_eq_of_lt h

theorem fetchSub_add (h : c + n < 2 ^ 64) : fetchSub (c + n) n = c := by
  rw [fetchSub]
  omega

/-- The counters are the sums `f`, and no subtraction has wrapped. -/
structure Charged (a : VmAccounting) (f : (Vma → Bool) → ℕ) : Prop where
  virtual_eq : a.virtualBytes = f fun _ => true
  committed_eq : a.committedVirtualBytes = f committed
  locked_eq : a.lockedVirtualBytes = f locked
  unwrapped : a.wrapped = false

variable {a : VmAccounting} {f : (Vma → Bool) → ℕ} {v : Vma}

variable {g : (Vma → Bool) → ℕ}

theorem Charged.congr (h : a.Charged f)
    (hg : ∀ {p}, Counted p → g p = f p) : a.Charged g where
  virtual_eq := h.virtual_eq.trans (hg .all).symm
  committed_eq := h.committed_eq.trans (hg .committed).symm
  locked_eq := h.locked_eq.trans (hg .locked).symm
  unwrapped := h.unwrapped

theorem Charged.addVma (h : a.Charged f) (hne : v.start.asU64 < v.end.asU64)
    (hlt : ∀ {p}, Counted p → f p + charge p v < 2 ^ 64) :
    (a.addVma v).Charged fun p => f p + charge p v where
  virtual_eq := by
    have hlt' := hlt .all
    show fetchAdd a.virtualBytes (bytes v) = _
    rw [charge_eq hne, if_pos rfl, h.virtual_eq, fetchAdd_of_lt]
    rwa [charge_eq hne] at hlt'
  committed_eq := by
    have hlt' := hlt .committed
    show (if committed v then fetchAdd a.committedVirtualBytes (bytes v) else _) = _
    rw [charge_eq hne] at hlt' ⊢
    by_cases hc : committed v = true
    · rw [if_pos hc] at hlt' ⊢
      rw [if_pos hc, h.committed_eq, fetchAdd_of_lt hlt']
    · rw [if_neg hc, if_neg hc, h.committed_eq, Nat.add_zero]
  locked_eq := by
    have hlt' := hlt .locked
    show (if locked v then fetchAdd a.lockedVirtualBytes (bytes v) else _) = _
    rw [charge_eq hne] at hlt' ⊢
    by_cases hc : locked v = true
    · rw [if_pos hc] at hlt' ⊢
      rw [if_pos hc, h.locked_eq, fetchAdd_of_lt hlt']
    · rw [if_neg hc, if_neg hc, h.locked_eq, Nat.add_zero]
  unwrapped := h.unwrapped

/-- Releasing a VMA that is charged takes its bytes away, and wraps nothing. -/
theorem Charged.removeVma (h : a.Charged fun p => f p + charge p v)
    (hne : v.start.asU64 < v.end.asU64)
    (hlt : ∀ {p}, Counted p → f p + charge p v < 2 ^ 64) : (a.removeVma v).Charged f := by
  have hv := h.virtual_eq
  have hc := h.committed_eq
  have hl := h.locked_eq
  have hlt1 := hlt .all
  have hlt2 := hlt .committed
  have hlt3 := hlt .locked
  simp only [charge_eq hne, if_true] at hv hc hl hlt1 hlt2 hlt3
  refine ⟨?_, ?_, ?_, ?_⟩
  · show fetchSub a.virtualBytes (bytes v) = _
    rw [hv, fetchSub_add hlt1]
  · show (if committed v then fetchSub a.committedVirtualBytes (bytes v) else _) = _
    by_cases hcv : committed v = true
    · rw [if_pos hcv] at hc hlt2 ⊢
      rw [hc, fetchSub_add hlt2]
    · rw [if_neg hcv] at hc ⊢
      omega
  · show (if locked v then fetchSub a.lockedVirtualBytes (bytes v) else _) = _
    by_cases hlv : locked v = true
    · rw [if_pos hlv] at hl hlt3 ⊢
      rw [hl, fetchSub_add hlt3]
    · rw [if_neg hlv] at hl ⊢
      omega
  -- no counter is below what is taken from it
  have h2 : committed v = true → ¬ a.committedVirtualBytes < bytes v := by
    intro hcv
    rw [if_pos hcv] at hc
    omega
  have h3 : locked v = true → ¬ a.lockedVirtualBytes < bytes v := by
    intro hlv
    rw [if_pos hlv] at hl
    omega
  show (a.wrapped || decide (a.virtualBytes < bytes v) ||
    (committed v && decide (a.committedVirtualBytes < bytes v)) ||
    (locked v && decide (a.lockedVirtualBytes < bytes v))) = false
  rw [h.unwrapped]
  cases hcv : committed v <;> cases hlv : locked v <;>
    simp only [hlv] at h2 h3 <;> simp [*]

theorem Charged.removeAll (ws : List Vma) (hne : ∀ w ∈ ws, w.start.asU64 < w.end.asU64)
    (h : a.Charged fun p => f p + (ws.map (charge p)).sum)
    (hlt : ∀ {p}, Counted p → f p + (ws.map (charge p)).sum < 2 ^ 64) :
    (ws.foldl VmAccounting.removeVma a).Charged f := by
  induction ws generalizing a with
  | nil => simpa using h
  | cons w ws ih =>
  simp only [List.map_cons, List.sum_cons] at h hlt
  have hw : (a.removeVma w).Charged fun p => f p + (ws.map (charge p)).sum := by
    refine Charged.removeVma (h.congr fun {p} _ => (by omega)) (hne w (by simp)) fun {p} hp => ?_
    have := hlt hp
    omega
  refine ih (fun x hx => hne x (List.mem_cons_of_mem w hx)) hw fun {p} hp => ?_
  have := hlt hp
  omega

/-- Exchanging the locked bytes of a range. -/
theorem Charged.replaceLockedRange (h : a.Charged f) {old new : ℕ}
    (hv : (g fun _ => true) = f fun _ => true) (hc : g committed = f committed)
    (hl : g locked + old = f locked + new) (hlt : g locked < 2 ^ 64) :
    (a.replaceLockedRange old new).Charged g := by
  have hlocked := h.locked_eq
  rw [VmAccounting.replaceLockedRange]
  split_ifs with h1 h2
  · exact ⟨h.virtual_eq.trans hv.symm, h.committed_eq.trans hc.symm, by omega, h.unwrapped⟩
  · refine ⟨h.virtual_eq.trans hv.symm, h.committed_eq.trans hc.symm, ?_, h.unwrapped⟩
    show fetchAdd a.lockedVirtualBytes (new - old) = _
    rw [fetchAdd_of_lt (by omega)]
    omega
  refine ⟨h.virtual_eq.trans hv.symm, h.committed_eq.trans hc.symm, ?_, ?_⟩
  · show fetchSub a.lockedVirtualBytes (old - new) = _
    rw [fetchSub]
    omega
  · have : ¬ a.lockedVirtualBytes < old - new := by omega
    simp [h.unwrapped, this]

end VmAccounting

namespace AddressSpace

open Prog VmAccounting

/-- The bytes of the tree with an attribute. -/
def bytesOf (t : VmaTree) (p : Vma → Bool) : ℕ := t.tally (charge p)

/-- The counters agree with a well-formed tree. -/
structure Ledger (s : AddressSpace) : Prop where
  wellFormed : s.tree.WellFormed
  charged : s.accounting.Charged (bytesOf s.tree)

theorem bytesOf_lt (hw : t.WellFormed) (p : Vma → Bool) : bytesOf t p < 2 ^ 64 :=
  lt_of_le_of_lt (tally_extent_le hw p 0 USER_VA_END) (by rw [USER_VA_END]; omega)

theorem Ledger.of_eq (h : s.Ledger) (ht : s'.tree = s.tree) (ha : s'.accounting = s.accounting) :
    s'.Ledger :=
  ⟨by rw [ht]; exact h.wellFormed, by rw [ha, ht]; exact h.charged⟩

/-! ### Mapping -/

/-- Releasing what a removal returned settles the ledger. -/
theorem Ledger.removed (h : s.Ledger) {removed : List Vma} (hr : Removed s.tree removed t') :
    Ledger { s with
      tree := t', accounting := removed.foldl VmAccounting.removeVma s.accounting } := by
  have hsum : ∀ {p}, Counted p → bytesOf t' p + (removed.map (charge p)).sum = bytesOf s.tree p :=
    fun hp => hr.extent_eq hp.attribute 0 USER_VA_END
  refine ⟨hr.wellFormed, Charged.removeAll removed hr.nonempty (h.charged.congr hsum) ?_⟩
  intro p hp
  rw [hsum hp]
  exact bytesOf_lt h.wellFormed p

variable (env : Env)

section

variable (start stop : UserVirtAddr)

theorem replaceRange_ledger : (replaceRange env start stop).Keeps Ledger := by
  intro s hs
  refine Ends.getBind (Ends.requireBind (fun _ => ?_) fun _ => hs)
  refine Ends.requireBind (fun _ => ?_) fun _ => hs
  refine Ends.onTreeBind fun removed t' hrem => ?_
  rw [ends_modify]
  exact hs.removed (removeRangeRawEnd_extent hs.wellFormed hrem)

theorem newWithMay_ledger (prot mayProt : VmaProt) (flags : VmaFlags) (backing : VmaBacking) :
    (newWithMay start stop prot mayProt flags backing : Vm ε Vma).Keeps Ledger := by
  refine Keeps.ofStep fun s v s' hs h => ?_
  cases backing with
  | anonymous =>
    cases h
    exact hs.of_eq rfl rfl
  | _ =>
    cases h
    exact hs

theorem attachNew_eq (s : AddressSpace) :
    ∃ rmaps, attachNew start stop s = { s with rmaps := rmaps } := by
  rw [attachNew]
  split
  · exact ⟨_, rfl⟩
  · exact ⟨s.rmaps, rfl⟩

end

theorem charge_clone (hp : Counted p) (v : Vma) : charge p v.clone = charge p v :=
  extent_congr _ _ (hp.rewrite rfl (by simp [Vma.clone, bitsDifference, VmaFlags.UFFD_MASK,
    VmaFlags.UFFD_MISSING, VmaFlags.UFFD_WP, VmaFlags.UFFD_MINOR]) (by simp [Vma.clone,
    bitsDifference, VmaFlags.UFFD_MASK, VmaFlags.UFFD_MISSING, VmaFlags.UFFD_WP,
    VmaFlags.UFFD_MINOR])) rfl rfl

theorem publish_ledger (added : Vma) : (publish added).Keeps Ledger := by
  intro s hs
  refine Ends.onTreeBind fun r t' hins => ?_
  cases r with
  | error =>
    -- a refused insertion leaves the tree
    refine Ends.ofExceptBind (fun _ h => absurd h (by simp [Except.mapError])) fun _ _ => ?_
    rcases insert_run hs.wellFormed hins with ⟨-, rfl, -⟩ | ⟨h, -⟩
    · exact hs
    · cases h
  | ok =>
  refine Ends.ofExceptBind (fun _ _ => Ends.modifyBind ?_)
    fun _ h => absurd h (by simp [Except.mapError])
  rw [ends_modify]
  obtain ⟨hw', hne, hext⟩ := insert_extent hs.wellFormed hins
  have hsum : ∀ {p}, Counted p → bytesOf t' p = bytesOf s.tree p + charge p added := by
    intro p hp
    rw [← charge_clone hp]
    exact hext hp.attribute 0 USER_VA_END
  have hne' : added.start.asU64 < added.end.asU64 := hne
  have hch : (s.accounting.addVma added).Charged (bytesOf t') := by
    refine (hs.charged.addVma hne' fun {p} hp => ?_).congr hsum
    rw [← hsum hp]
    exact bytesOf_lt hw' p
  obtain ⟨rmaps, hr⟩ := attachNew_eq added.start added.end
    { s with tree := t', accounting := s.accounting.addVma added }
  rw [hr]
  exact ⟨hw', hch⟩

/-- **Every form of `mmap` keeps the ledger.** -/
theorem mmapWithMayAtInnerLocked_ledger (placement : MmapPlacement) (len : ℕ)
    (prot mayProt : VmaProt) (flags : VmaFlags) (backing : VmaBacking) (mdwe : MdweMode) :
    (mmapWithMayAtInnerLocked env placement len prot mayProt flags backing mdwe).Keeps Ledger := by
  refine (Keeps.ofExcept _).bind fun _ => Keeps.get.bind fun s => ?_
  refine (Keeps.ofExcept _).bind fun ⟨start, replaceEnd⟩ => (Keeps.ofExcept _).bind fun stop => ?_
  refine (Keeps.ofExcept _).bind fun _ => ?_
  refine Keeps.bind ?_ fun _ => (newWithMay_ledger _ _ _ _ _ _).bind fun added =>
    ((publish_ledger added).mapError _).bind fun _ => Keeps.pure _
  cases replaceEnd with
  | none => exact Keeps.pure ()
  | some e => exact (replaceRange_ledger env start e).mapError _

/-! ### Unmapping and protection -/

/-- Around a change of the tree, `rmap_resplit` touches only the reverse maps. -/
theorem rmapResplit_ends {op : Vm Error α} {st : AddressSpace} {s e : ℕ}
    {Q : Except Error α → AddressSpace → Prop}
    (hQ : ∀ r s' rmaps, Q r s' → Q r { s' with rmaps := rmaps })
    (hop : ∀ rmaps, op.Ends { st with rmaps := rmaps } Q) : (rmapResplit s e op).Ends st Q := by
  refine Ends.getBind ?_
  rcases superRange st.tree s e with ⟨lo, hi⟩
  show Ends (if lo > hi then op else _) st Q
  split_ifs
  · exact hop st.rmaps
  · refine Ends.modifyBind (Ends.bind (hop _) (fun a s' hs' => ?_) fun e s' hs' => hs')
    refine Ends.modifyBind (ends_pure.mpr ?_)
    exact hQ _ _ _ hs'

variable (addr : UserVirtAddr)

theorem munmapLocked_ledger (stop : ℕ) : (munmapLocked env addr stop).Keeps Ledger := by
  intro s hs
  refine Ends.getBind (Ends.requireBind (fun _ => ?_) fun _ => hs)
  refine Ends.requireBind (fun _ => ?_) fun _ => hs
  -- between the removal and the release the counters are those of the old tree
  refine Ends.bind (R := fun r s' => ∃ removed, r = .ok removed ∧
      Removed s.tree removed s'.tree ∧ s'.accounting = s.accounting) ?_ ?_ ?_
  · refine rmapResplit_ends (fun r s' rmaps h => h) fun rmaps => ?_
    rw [ends_onTree]
    intro removed t' hrem
    exact ⟨removed, rfl, removeRangeRawEnd_extent hs.wellFormed hrem, rfl⟩
  · rintro removed s' ⟨_, hr, hrem, hacc⟩
    cases hr
    rw [ends_modify, hacc]
    exact (hs.removed hrem).of_eq rfl rfl
  · rintro e s' ⟨_, hr, -⟩
    cases hr

theorem munmap_ledger (len : ℕ) : (munmap env addr len).Keeps Ledger :=
  (Keeps.ofExcept _).bind fun _ => (Keeps.ofExcept _).bind fun _ =>
    (Keeps.ofExcept _).bind fun stop => munmapLocked_ledger env addr stop

/-- A coalescing loop that keeps the counted attributes keeps the ledger. -/
theorem Ledger.coalesces (hs : s.Ledger) {rewrite : Vma → Vma}
    (h : Coalesces rewrite start e s.tree t')
    (hkeep : ∀ {p}, Counted p → ∀ m, p (rewrite m) = p m) : Ledger { s with tree := t' } :=
  ⟨h.wellFormed', hs.charged.congr fun hp => h.extent_eq hp.attribute (.inl (hkeep hp))⟩

theorem mprotectApply_ledger (step : MprotectStep) : (mprotectApply step).Keeps Ledger := by
  intro s hs
  refine rmapResplit_ends (fun r s' rmaps h => h.of_eq rfl rfl) fun rmaps => ?_
  have hs' : Ledger { s with rmaps := rmaps } := hs.of_eq rfl rfl
  refine Ends.ofPanicBind fun e _ => Ends.onTreeBind fun r t' h => ends_ofExcept.mpr ?_
  rw [mprotectRangeWithPkey] at h
  split at h
  · cases h
    exact hs'
  rename_i hc
  obtain ⟨t1, hloop, h⟩ := Except.bind_eq_ok.mp h
  cases h
  exact hs'.coalesces ⟨protRewrite_keepsRange _ _, hs.wellFormed, check_range hc, _, _, _,
    fun h => (Except.ok.inj h).symm, hloop⟩ fun hp m => hp.rewrite rfl rfl rfl

theorem mprotectApplyAll_ledger (error : Option Error) (applied steps : List MprotectStep) :
    (mprotectApplyAll error applied steps).Keeps Ledger := by
  induction steps generalizing applied with
  | nil => exact Keeps.pure _
  | cons step rest ih =>
  refine (mprotectApply_ledger step).attempt.bind fun r => ?_
  cases r with
  | error => exact Keeps.pure _
  | ok => exact ih _

/-- **`mprotect` keeps the ledger**, also when it stops half way. -/
theorem mprotectUserWithSecurity_ledger (len : ℕ) (p : MprotectPolicy) :
    (mprotectUserWithSecurity env addr len p).Keeps Ledger :=
  (Keeps.ofExcept _).bind fun _ => (Keeps.ofExcept _).bind fun _ =>
    (Keeps.ofExcept _).bind fun _ => Keeps.get.bind fun _ => (Keeps.ofPanic _).bind fun _ =>
      mprotectApplyAll_ledger _ _ _

/-! ### Locking -/

/-- Flags that only concern locking. -/
structure LockFlags where
  flags : VmaFlags
  within : bitsDifference flags VmaFlags.LOCKED_MASK = 0

theorem LockFlags.bit_zero (f : LockFlags) : f.flags.getLsbD 0 = false := by
  have h := congrArg (fun x => x.getLsbD 0) f.within
  simpa [bitsDifference, VmaFlags.LOCKED_MASK, VmaFlags.LOCKED, VmaFlags.LOCKONFAULT] using h

theorem bytesOf_split (t : VmaTree) (p : Vma → Bool) {lo hi : ℕ} (h : lo ≤ hi)
    (hhi : hi ≤ USER_VA_END) :
    bytesOf t p = t.tally (extent p 0 lo) + t.tally (extent p lo hi) +
      t.tally (extent p hi USER_VA_END) := by
  rw [← tally_add, ← tally_add, bytesOf]
  congr 1
  funext v
  rw [charge, extent, extent, extent, extent]
  cases p v with
  | false => rfl
  | true =>
  -- cutting the range of addresses is cutting the range of the VMA
  simp only [if_true, min_comm v.end.asU64, max_comm v.start.asU64]
  rw [clip_add (Nat.zero_le lo) h, clip_add (Nat.zero_le hi) hhi]

theorem lockedBytes_eq (start stop : ℕ) (t : VmaTree) :
    lockedBytes start stop t = t.tally (extent locked start stop) := by
  rw [lockedBytes, tally, total, VmaTree.iter]
  induction t.map.values with
  | nil => rfl
  | cons v vs ih =>
  rw [List.map_cons, List.sum_cons, ← ih, List.filter_cons, extent]
  cases hl : locked v with
  | false => simp
  | true =>
    by_cases hr : v.end.asU64 > start ∧ v.start.asU64 < stop
    · simp [hr]
    · have h0 : min v.end.asU64 stop - max v.start.asU64 start = 0 := by omega
      rw [if_pos rfl, h0, if_neg (by simpa using hr), Nat.zero_add]

/-- The flag writer moves no bytes of `p` outside its range, and none at all if its rewrite
keeps `p`. -/
theorem updateFlagsRange_extent (hw : t.WellFormed)
    (h : t.updateFlagsRange start e set clear = .ok t') :
    t'.WellFormed ∧ ∀ {p}, Attribute p → ∀ lo hi,
      ((∀ m, p (flagsRewrite set clear m) = p m) ∨ hi ≤ start.asU64 ∨ e.asU64 ≤ lo) →
      t'.tally (extent p lo hi) = t.tally (extent p lo hi) := by
  rw [VmaTree.updateFlagsRange] at h
  split_ifs at h with hr
  · cases h
    exact ⟨hw, fun _ _ _ _ => rfl⟩
  · have hloop : Coalesces (flagsRewrite set clear) start e t t' :=
      ⟨flagsRewrite_keepsRange set clear, hw, by omega, _, _, _, by simp, h⟩
    exact ⟨hloop.wellFormed', fun hp lo hi => hloop.extent_eq hp⟩

/-- A flag write that leaves `SHARED` alone leaves the charged attributes alone. -/
theorem flagsRewrite_committed (hset : set.getLsbD 0 = false) (hclear : clear.getLsbD 0 = false)
    (m : Vma) : committed (flagsRewrite set clear m) = committed m := by
  have hbit : (flagsRewrite set clear m).flags.getLsbD 0 = m.flags.getLsbD 0 := by
    rw [flagsRewrite]
    simp only [bitsDifference]
    split_ifs <;>
      simp only [BitVec.getLsbD_and, BitVec.getLsbD_or, BitVec.getLsbD_not, hset, hclear] <;> simp
  have hback : (flagsRewrite set clear m).backing = m.backing := rfl
  simp only [committed, hback, shared_bit, hbit]

/-- **A flag write that leaves `SHARED` alone keeps the ledger**: the locked bytes are exchanged
for what the range holds afterwards. -/
theorem updateFlagsRange_ledger (start : UserVirtAddr) (len : ℕ) (hset : set.getLsbD 0 = false)
    (hclear : clear.getLsbD 0 = false) :
    (updateFlagsRange start len set clear : Vm ε Unit).Keeps Ledger := by
  rw [updateFlagsRange]
  split
  · exact Keeps.pure ()
  rename_i e _
  intro s hs
  refine Ends.getBind (Ends.onTreeBind fun _ t' h => ends_modify.mpr ?_)
  obtain ⟨_, hup, ht⟩ := Except.map_eq_ok.mp h
  cases ht
  obtain ⟨hw', hext⟩ := updateFlagsRange_extent hs.wellFormed hup
  have he : e.asU64 ≤ USER_VA_END := e.isUser.le
  refine ⟨hw', hs.charged.replaceLockedRange (hext all_attribute 0 USER_VA_END (.inl fun _ => rfl))
    (hext committed_attribute 0 USER_VA_END (.inl (flagsRewrite_committed hset hclear)))
    ?_ (bytesOf_lt hw' locked)⟩
  rw [lockedBytes_eq, lockedBytes_eq]
  rcases le_total start.asU64 e.asU64 with hle | hle
  · -- only the part of the locked bytes inside the range has moved
    have hlow := hext locked_attribute 0 start.asU64 (.inr (.inl le_rfl))
    have hhigh := hext locked_attribute e.asU64 USER_VA_END (.inr (.inr le_rfl))
    show bytesOf t' locked + _ = bytesOf s.tree locked + t'.tally _
    rw [bytesOf_split t' locked hle he, bytesOf_split s.tree locked hle he]
    omega
  rw [VmaTree.updateFlagsRange] at hup
  split_ifs at hup with hr
  · rw [Except.ok.inj hup]
  · omega

theorem lockWalk_ledger (s stop : ℕ) (add : LockFlags) (vs : List Vma) (tmp : ℕ)
    (spans : List LockedSpan) : (lockWalk s stop add.flags vs tmp spans).Keeps Ledger := by
  have hclear : (bitsDifference VmaFlags.LOCKED_MASK add.flags).getLsbD 0 = false := by
    simp [bitsDifference, VmaFlags.LOCKED_MASK, VmaFlags.LOCKED, VmaFlags.LOCKONFAULT]
  induction vs generalizing tmp spans with
  | nil => exact Keeps.pure _
  | cons v rest ih =>
  refine Keeps.ite (Keeps.pure _) (Keeps.ite (ih _ _) (Keeps.ite ?_ (ih _ _)))
  split
  · exact (updateFlagsRange_ledger _ _ add.bit_zero hclear).bind fun _ => ih _ _
  · exact ih _ _

theorem applyVmaLockFlags_ledger (start : UserVirtAddr) (len : ℕ) (add : LockFlags) :
    (applyVmaLockFlags start len add.flags).Keeps Ledger := by
  exact Keeps.ite (Keeps.ite (Keeps.pure _) (Keeps.get.bind fun _ => lockWalk_ledger _ _ add _ _ _))
    (Keeps.pure _)

theorem setMlockFuture_ledger (enabled onfault : Bool) :
    (modify (setMlockFuture enabled onfault) : Vm ε Unit).Keeps Ledger :=
  Keeps.modify fun _ h => h.of_eq rfl rfl

theorem applyMlockallFlags_ledger (future current onfault : Bool) :
    (applyMlockallFlags future current onfault).Keeps Ledger := by
  refine (setMlockFuture_ledger future onfault).bind fun _ => Keeps.ite (Keeps.pure _) ?_
  refine Keeps.get.bind fun s => Keeps.foldlM (fun spans v => ?_) _ _
  refine Keeps.ite (Keeps.pure _) (Keeps.bind (Keeps.when ?_) fun _ => Keeps.pure _)
  refine updateFlagsRange_ledger _ _ ?_ ?_
  · cases onfault <;> decide
  · cases onfault <;> decide

theorem munlockAll_ledger : munlockAll.Keeps Ledger := by
  refine (setMlockFuture_ledger false false).bind fun _ => Keeps.get.bind fun s => ?_
  refine Keeps.foldlM (fun cleared v => ?_) _ _
  exact Keeps.ite ((updateFlagsRange_ledger _ _ (by decide) (by decide)).bind fun _ => Keeps.pure _)
    (Keeps.pure _)

/-! ### Moving and growing -/

theorem uffdRewrite_counted (hp : Counted p) (ctx : Option Arc) (modes : VmaFlags) (m : Vma) :
    p (uffdRewrite ctx modes m) = p m := by
  cases ctx <;> refine hp.rewrite rfl ?_ ?_ <;>
    simp [uffdRewrite, bitsDifference, VmaFlags.UFFD_MASK, VmaFlags.UFFD_MISSING,
      VmaFlags.UFFD_WP, VmaFlags.UFFD_MINOR]

theorem setUffdRange_ledger (start e : UserVirtAddr) (ctx : Option Arc) (modes : VmaFlags) :
    (onTree (fun t => (t.setUffdRange start e ctx modes).map ((), ·)) : Vm ε Unit).Keeps
      Ledger := by
  intro s hs
  rw [ends_onTree]
  intro _ t' h
  rw [setUffdRange] at h
  split_ifs at h with hr
  · cases h
    exact hs
  obtain ⟨_, hloop, ht⟩ := Except.map_eq_ok.mp h
  cases ht
  exact hs.coalesces
    ⟨uffdRewrite_keepsRange ctx modes, hs.wellFormed, by omega, _, _, _, by simp, hloop⟩
    fun hp m => uffdRewrite_counted hp ctx modes m

theorem setUffd_ledger (start stop : ℕ) (ctx : Arc) (modes : VmaFlags) :
    (setUffd start stop ctx modes : Vm ε Unit).Keeps Ledger := by
  rw [setUffd]
  split
  · exact (Keeps.modify fun _ h => h.of_eq rfl rfl).bind fun _ => setUffdRange_ledger _ _ _ _
  · exact Keeps.pure ()

theorem clearUffd_ledger (start stop : ℕ) : (clearUffd start stop : Vm ε Unit).Keeps Ledger := by
  rw [clearUffd]
  split
  · exact setUffdRange_ledger _ _ _ _
  · exact Keeps.pure ()

theorem remapFailed_ledger (watch : Option RemapWatch) :
    (remapFailed watch).Keeps fun c => c.space.Ledger := by
  cases watch with
  | none => exact Keeps.pure ()
  | some => exact Keeps.call _

theorem remapDone_ledger (watch : Option RemapWatch) (source to' len : ℕ) :
    (remapDone watch source to' len).Keeps fun c => c.space.Ledger := by
  cases watch with
  | none => exact Keeps.pure ()
  | some => exact (Keeps.uncharged (setUffd_ledger _ _ _ _)).bind fun _ => Keeps.call _

theorem orRelease_ledger {watch : Option RemapWatch} {m : ChargedVm Error α}
    (hm : m.Keeps fun c => c.space.Ledger) :
    (orRelease watch m).Keeps fun c => c.space.Ledger := by
  refine hm.attempt.bind fun r => ?_
  cases r with
  | ok => exact Keeps.pure _
  | error => exact (remapFailed_ledger watch).bind fun _ => Keeps.fail _

theorem relocate_ledger (mover : Mover) (src : Vma) (old : UserVirtAddr) (oldSize newSize : ℕ)
    (hint : Option UserVirtAddr) (fixed keep : Bool) (watch : Option RemapWatch) :
    (relocate env mover src old oldSize newSize hint fixed keep watch).Keeps
      fun c => c.space.Ledger := by
  refine Keeps.bind ?_ fun _ => (orRelease_ledger (Keeps.uncharged ((Keeps.ofExcept _).bind
    fun _ => (mmapWithMayAtInnerLocked_ledger _ _ _ _ _ _ _ _).mapError _))).bind fun newVa => ?_
  · split
    · exact orRelease_ledger (Keeps.ofExcept _)
    · exact Keeps.pure ()
  split
  · exact (Keeps.uncharged (munmapLocked_ledger _ _ _).ignore).bind fun _ =>
      (remapFailed_ledger _).bind fun _ => Keeps.fail _
  · exact (Keeps.uncharged (Keeps.when (munmapLocked_ledger _ _ _).ignore)).bind fun _ =>
      (remapDone_ledger _ _ _ _).bind fun _ => Keeps.pure _

theorem remapWatchIf_ledger (moves : Bool) (old : UserVirtAddr) :
    (remapWatchIf moves env old : ChargedVm ε _).Keeps fun c => c.space.Ledger := by
  refine Keeps.ite (Keeps.get.bind fun _ => ?_) (Keeps.pure _)
  split
  · exact Keeps.pure _
  · exact (Keeps.call _).bind fun _ => Keeps.pure _

/-- **`mremap` keeps the ledger.** -/
theorem mremapFullWithMove_ledger (mover : Mover) (old : UserVirtAddr) (oldSize newSize : ℕ)
    (maymove fixed dontunmap : Bool) (newAddr : Option UserVirtAddr) :
    (mremapFullWithMove env mover old oldSize newSize maymove fixed dontunmap newAddr).Keeps
      fun c => c.space.Ledger := by
  refine (Keeps.require _ _).bind fun _ => (Keeps.ofExcept _).bind fun oldEnd =>
    Keeps.get.bind fun c => Keeps.ite ((Keeps.require _ _).bind fun _ =>
      (remapWatchIf_ledger env true old).bind fun watch => ?_)
      ((remapWatchIf_ledger env _ old).bind fun watch => ?_)
  · split
    · exact Keeps.fail _
    · exact (Keeps.require _ _).bind fun _ => relocate_ledger _ _ _ _ _ _ _ _ _ _
  split
  · exact Keeps.fail _
  refine Keeps.bind (Keeps.when ?_) fun _ => Keeps.ite ?_ (Keeps.ite (Keeps.pure _) ?_)
  · exact (Keeps.ofExcept _).bind fun _ => (Keeps.require _ _).bind fun _ => Keeps.require _ _
  · refine (Keeps.uncharged ?_).bind fun _ => Keeps.pure _
    split
    · exact (munmapLocked_ledger _ _ _).ignore
    · exact Keeps.pure ()
  · exact (Keeps.require _ _).bind fun _ => relocate_ledger _ _ _ _ _ _ _ _ _ _

/-- The limits let the stack VMA above `va` grow, and the VMA below it leaves room. -/
def GrowsStack (s : AddressSpace) (va : UserVirtAddr) (maxSize maxGrow : ℕ) : Prop :=
  ∃ v, s.tree.findGrowsdownAbove va STACK_GROW_MAX = some v ∧
    v.end.asU64 - (growStart va).asU64 ≤ maxSize ∧
    v.start.asU64 - (growStart va).asU64 ≤ maxGrow ∧
    (growStart va).asU64 < v.start.asU64 ∧
    ∀ l, s.tree.map.prev? v.start = some l → l.2.end.asU64 ≤ (growStart va).asU64

theorem findGrowsdownAbove_some (hw : t.WellFormed) {maxGap : ℕ} {v : Vma}
    (h : t.findGrowsdownAbove va maxGap = some v) :
    t.Has v ∧ bitsContain v.flags VmaFlags.GROWSDOWN = true := by
  rw [findGrowsdownAbove] at h
  cases hf : (t.map.get? va).map (va, ·) <|> t.map.next? va with
  | none => simp [hf] at h
  | some e =>
  obtain ⟨k, w⟩ := e
  have hk : t.map.get? k = some w := by
    cases hg : t.map.get? va with
    | none =>
      rw [hg] at hf
      exact (next?_eq_some_iff.mp hf).1
    | some u =>
    rw [hg] at hf
    cases hf
    exact hg
  simp only [hf, bind, Option.bind] at h
  split_ifs at h with h1
  cases h
  exact ⟨hw.has hk, by simpa using h1⟩

theorem growStart_aligned (va : UserVirtAddr) : (growStart va).asU64 % PAGE_SIZE_BYTES = 0 := by
  show (va.asU64 - va.asU64 % PAGE_SIZE_BYTES) % PAGE_SIZE_BYTES = 0
  rw [PAGE_SIZE_BYTES]
  omega

/-- When the limits let it, the VMA grows and nothing else changes. -/
theorem GrowsStack.tryGrowStack_eq (hw : s.tree.WellFormed) (h : s.GrowsStack va maxSize maxGrow) :
    ∃ v, s.tree.Has v ∧ (growStart va).asU64 < v.start.asU64 ∧
      (s.tree.without v.start).Fits { v with start := growStart va } ∧
      (tryGrowStack va maxSize maxGrow : Vm ε Bool) s = .ok (.ok true, { s with
        tree := (s.tree.without v.start).store { v with start := growStart va } }) := by
  obtain ⟨v, hv, h1, h2, h3, h4⟩ := h
  obtain ⟨hg, hflag⟩ := findGrowsdownAbove_some hw hv
  have hprev : ¬ ((s.tree.map.prev? v.start).any fun l =>
      decide (l.2.end.asU64 > (growStart va).asU64)) = true := by
    cases hp : s.tree.map.prev? v.start with
    | none => simp
    | some l =>
      have := h4 l hp
      simpa using this
  have hext : s.tree.extendGrowsdownStart v.start (growStart va) =
      (.ok (), (s.tree.without v.start).store { v with start := growStart va }) := by
    rw [extendGrowsdownStart, if_neg (by omega), if_neg (by simp [growStart_aligned]),
      if_neg hprev, mapTake_of_get? hg]
    simp only [hflag]
    rfl
  have hprog : (tryGrowStack va maxSize maxGrow : Vm ε Bool) s =
      (do let r ← onTree fun t => .ok (t.extendGrowsdownStart v.start (growStart va))
          return r.toBool : Vm ε Bool) s := by
    unfold tryGrowStack
    simp only [Bind.bind, Prog.get, hv]
    rw [if_neg (not_lt.mpr h1)]
    exact congrFun (if_neg (not_lt.mpr h2)) s
  refine ⟨v, hg, h3, ?_, ?_⟩
  · rcases extendGrowsdownStart_run hw v.start (growStart va) with
      ⟨herr, -⟩ | ⟨w, hwg, -, -, hfit, -⟩
    · rw [hext] at herr
      cases herr
    · obtain rfl : w = v := Option.some_inj.mp (hwg.symm.trans hg)
      exact hfit
  · rw [hprog]
    simp only [onTree, ofStep, Bind.bind, hext]
    rfl

theorem tryGrowStack_of_not_grows (hw : s.tree.WellFormed) (h : ¬ s.GrowsStack va maxSize maxGrow) :
    (tryGrowStack va maxSize maxGrow : Vm ε Bool).Ends s fun _ s' => s' = s := by
  refine Ends.getBind ?_
  cases hv : s.tree.findGrowsdownAbove va STACK_GROW_MAX with
  | none => exact ends_pure.mpr rfl
  | some v =>
  show Ends (if _ then _ else if _ then _ else _) s _
  split_ifs with h1 h2
  · exact ends_pure.mpr rfl
  · exact ends_pure.mpr rfl
  refine Ends.onTreeBind fun r t' hr => ends_pure.mpr ?_
  have hr' := Except.ok.inj hr
  -- a growth would meet all four conditions
  rcases extendGrowsdownStart_run hw v.start (growStart va) with
    ⟨-, hsame⟩ | ⟨w, hg, -, h3, hfit, -⟩
  · rw [hr'] at hsame
    rw [show t' = s.tree from hsame]
  exact absurd ⟨v, hv, not_lt.mp h1, not_lt.mp h2, h3, fun l hl => by
    obtain ⟨lk, lv⟩ := l
    obtain ⟨hlg, hlt, -⟩ := prev?_eq_some_iff.mp hl
    have hvg := (findGrowsdownAbove_some hw hv).1
    obtain rfl : w = v := Option.some_inj.mp (hg.symm.trans hvg)
    have hd := hfit lk lv (by rwa [get?_without_of_ne hlt.ne])
    have hend := hw.end_le hlg hvg hlt
    have hne := hw.nonempty hlg
    have hne' := hw.nonempty hvg
    rcases hd with hd | hd
    · exact hd
    · have hd' : w.end.asU64 ≤ lv.start.asU64 := hd
      omega⟩ h

/-- **A growth breaks the ledger**: the tree has more bytes than before, the counter has not. -/
theorem Ledger.not_of_growth (h : s.Ledger) {v : Vma} (hv : s.tree.Has v)
    {newStart : UserVirtAddr} (hlt : newStart.asU64 < v.start.asU64)
    (hfit : (s.tree.without v.start).Fits { v with start := newStart }) :
    s.accounting.virtualBytes ≠
      bytesOf ((s.tree.without v.start).store { v with start := newStart }) fun _ => true := by
  have hne := h.wellFormed.nonempty hv
  have hne' : newStart.asU64 < v.end.asU64 := by omega
  have hout := tally_without (charge fun _ => true) hv
  have hput := tally_store (charge fun _ => true) (h.wellFormed.without v.start) hfit hne'
  have h1 : charge (fun _ => true) v = v.end.asU64 - v.start.asU64 :=
    (charge_eq hne _).trans (Vma.toNat_bits_sub hne.le)
  have h2 : charge (fun _ => true) { v with start := newStart } =
      v.end.asU64 - newStart.asU64 :=
    (charge_eq hne' _).trans (Vma.toNat_bits_sub hne'.le)
  rw [h.charged.virtual_eq, bytesOf, bytesOf]
  omega

/-! ### Runs -/

/-- The counters are the sums over the VMAs of the tree, and no subtraction has wrapped. -/
structure Accounted (s : AddressSpace) : Prop where
  virtual_eq : s.accounting.virtualBytes = (s.tree.iter.map bytes).sum
  committed_eq : s.accounting.committedVirtualBytes = ((s.tree.iter.filter committed).map bytes).sum
  locked_eq : s.accounting.lockedVirtualBytes = ((s.tree.iter.filter locked).map bytes).sum
  unwrapped : s.accounting.wrapped = false

theorem bytesOf_eq (hw : t.WellFormed) (p : Vma → Bool) :
    bytesOf t p = ((t.iter.filter p).map bytes).sum := by
  have hne : ∀ v ∈ t.map.values, v.start.asU64 < v.end.asU64 := by
    intro v hv
    obtain ⟨k, hk⟩ := mem_values_iff.mp hv
    exact hw.nonempty hk
  rw [bytesOf, tally, total, VmaTree.iter]
  revert hne
  induction t.map.values with
  | nil => exact fun _ => rfl
  | cons v vs ih =>
  intro hne
  rw [List.map_cons, List.sum_cons, ih fun w h => hne w (List.mem_cons_of_mem v h),
    charge_eq (hne v (by simp)), List.filter_cons]
  cases p v with
  | false => simp
  | true => simp

theorem ledger_iff : s.Ledger ↔ s.tree.WellFormed ∧ s.Accounted := by
  constructor
  · intro ⟨hw, h1, h2, h3, h4⟩
    refine ⟨hw, ?_, ?_, ?_, h4⟩
    · rw [h1, bytesOf_eq hw]
      simp
    · rw [h2, bytesOf_eq hw]
    · rw [h3, bytesOf_eq hw]
  intro ⟨hw, h1, h2, h3, h4⟩
  refine ⟨hw, ?_, ?_, ?_, h4⟩
  · rw [h1, bytesOf_eq hw]
    simp
  · rw [h2, bytesOf_eq hw]
  · rw [h3, bytesOf_eq hw]

end AddressSpace

/-- An operation on one address space. -/
inductive MmOp
  | mmap (hint : Option UserVirtAddr) (len : ℕ) (prot : VmaProt) (flags : VmaFlags)
      (backing : VmaBacking) (fixed : Bool)
  | mmapWithMay (hint : Option UserVirtAddr) (len : ℕ) (prot mayProt : VmaProt)
      (flags : VmaFlags) (backing : VmaBacking) (fixed : Bool)
  | mmapWithMayAt (placement : MmapPlacement) (len : ℕ) (prot mayProt : VmaProt)
      (flags : VmaFlags) (backing : VmaBacking)
  | mmapWithMayAtAdmitted (placement : MmapPlacement) (len : ℕ) (prot mayProt : VmaProt)
      (flags : VmaFlags) (backing : VmaBacking) (admission : MdweAdmission)
  | munmap (addr : UserVirtAddr) (len : ℕ)
  | mprotect (addr : UserVirtAddr) (len : ℕ) (policy : AddressSpace.MprotectPolicy)
  | updateLockFlags (start : UserVirtAddr) (len : ℕ) (set clear : AddressSpace.LockFlags)
  | applyVmaLockFlags (start : UserVirtAddr) (len : ℕ) (add : AddressSpace.LockFlags)
  | applyMlockallFlags (future current onfault : Bool)
  | munlockAll
  | mremap (mover : AddressSpace.Mover) (old : UserVirtAddr) (oldSize newSize : ℕ)
      (maymove fixed dontunmap : Bool) (newAddr : Option UserVirtAddr)
  | tryGrowStack (va : UserVirtAddr) (maxSize maxGrow : ℕ)
  | setUffd (start «end» : ℕ) (ctx : Arc) (modes : VmaFlags)
  | clearUffd (start «end» : ℕ)
  | mdweSet (request : MdweRequest)
  | setMmapLayout (base : ℕ) (topDown : Bool)

namespace MmOp

open AddressSpace Prog

/-- The state an operation leaves, whatever it returns. -/
def run (env : Env) (op : MmOp) (s : AddressSpace) : Except Panic AddressSpace :=
  match op with
  | mmap hint len prot flags backing fixed =>
    (AddressSpace.mmap env hint len prot flags backing fixed s).map Prod.snd
  | mmapWithMay hint len prot mayProt flags backing fixed =>
    (AddressSpace.mmapWithMay env hint len prot mayProt flags backing fixed s).map Prod.snd
  | mmapWithMayAt placement len prot mayProt flags backing =>
    (AddressSpace.mmapWithMayAt env placement len prot mayProt flags backing s).map Prod.snd
  | mmapWithMayAtAdmitted placement len prot mayProt flags backing admission =>
    (AddressSpace.mmapWithMayAtAdmitted env placement len prot mayProt flags backing admission
      s).map Prod.snd
  | munmap addr len => (AddressSpace.munmap env addr len s).map Prod.snd
  | mprotect addr len policy =>
    (mprotectUserWithSecurity env addr len policy s).map Prod.snd
  | updateLockFlags start len set clear =>
    ((updateFlagsRange start len set.flags clear.flags : Vm Empty Unit) s).map Prod.snd
  | applyVmaLockFlags start len add =>
    (AddressSpace.applyVmaLockFlags start len add.flags s).map Prod.snd
  | applyMlockallFlags future current onfault =>
    (AddressSpace.applyMlockallFlags future current onfault s).map Prod.snd
  | munlockAll => (AddressSpace.munlockAll s).map Prod.snd
  | mremap mover old oldSize newSize maymove fixed dontunmap newAddr =>
    (mremapFullWithMove env mover old oldSize newSize maymove fixed dontunmap newAddr
      ⟨s, []⟩).map fun p => p.2.space
  | tryGrowStack va maxSize maxGrow =>
    ((AddressSpace.tryGrowStack va maxSize maxGrow : Vm Empty Bool) s).map Prod.snd
  | setUffd start e ctx modes =>
    ((AddressSpace.setUffd start e ctx modes : Vm Empty Unit) s).map Prod.snd
  | clearUffd start e => ((AddressSpace.clearUffd start e : Vm Empty Unit) s).map Prod.snd
  | mdweSet request => .ok (s.mdweSet request)
  | setMmapLayout base topDown => .ok (s.setMmapLayout base topDown)

/-- The operation is a `try_grow_stack` that extends a VMA of the state. -/
def Grows (s : AddressSpace) : MmOp → Prop
  | tryGrowStack va maxSize maxGrow => s.GrowsStack va maxSize maxGrow
  | _ => False

/-- The property holds in the initial state and in every state the run goes through. -/
abbrev Throughout (P : AddressSpace → Prop) : AddressSpace → List (Env × MmOp) → Prop :=
  Run.AlwaysOk (fun s op => op.2.run op.1 s) P

/-- No operation of the run is a `try_grow_stack` that extends a VMA. -/
abbrev NeverGrows : AddressSpace → List (Env × MmOp) → Prop :=
  Run.MeetsOk (fun s op => op.2.run op.1 s) fun s op => ¬ op.2.Grows s

variable {m : Vm ε α}

theorem exists_of_run (h : (m s).map Prod.snd = .ok s') : ∃ r, m s = .ok (r, s') := by
  obtain ⟨q, hm, rfl⟩ := Except.map_eq_ok.mp h
  exact ⟨q.1, hm⟩

theorem ledger_of_keeps (h : m.Keeps Ledger) (hs : s.Ledger)
    (hr : (m s).map Prod.snd = .ok s') : s'.Ledger := by
  obtain ⟨r, hm⟩ := exists_of_run hr
  exact h s hs r s' hm

variable {op : MmOp}

/-- One operation that grows no stack keeps the ledger. -/
theorem run_ledger {env : Env} (hs : s.Ledger) (hg : ¬ op.Grows s)
    (h : op.run env s = .ok s') : s'.Ledger := by
  have hmmap := mmapWithMayAtInnerLocked_ledger env
  cases op
  case tryGrowStack =>
    have hsame := tryGrowStack_of_not_grows (ε := Empty) hs.wellFormed hg
    obtain ⟨r, hr⟩ := exists_of_run h
    rwa [hsame r s' hr]
  case mdweSet =>
    rw [← Except.ok.inj h]
    exact hs.of_eq rfl rfl
  case setMmapLayout =>
    rw [← Except.ok.inj h]
    exact hs.of_eq rfl rfl
  case mremap =>
    obtain ⟨p, hp, rfl⟩ := Except.map_eq_ok.mp h
    exact mremapFullWithMove_ledger _ _ _ _ _ _ _ _ _ _ hs _ _ hp
  all_goals refine ledger_of_keeps ?_ hs h
  case mmap => exact (Keeps.ofExcept _).bind fun _ => (hmmap _ _ _ _ _ _ _).mapError _
  case mmapWithMay => exact (Keeps.ofExcept _).bind fun _ => (hmmap _ _ _ _ _ _ _).mapError _
  case mmapWithMayAt => apply hmmap
  case mmapWithMayAtAdmitted => apply hmmap
  case munmap => apply munmap_ledger
  case mprotect => apply mprotectUserWithSecurity_ledger
  case updateLockFlags set clear => exact updateFlagsRange_ledger _ _ set.bit_zero clear.bit_zero
  case applyVmaLockFlags => apply applyVmaLockFlags_ledger
  case applyMlockallFlags => apply applyMlockallFlags_ledger
  case munlockAll => exact munlockAll_ledger
  case setUffd => apply setUffd_ledger
  case clearUffd => apply clearUffd_ledger

/-- An operation that grows a stack ends, in a state whose counters are short. -/
theorem run_of_grows (env : Env) (hs : s.Ledger) (hg : op.Grows s) :
    ∃ s', op.run env s = .ok s' ∧ ¬ s'.Accounted := by
  cases op with
  | tryGrowStack va =>
    obtain ⟨v, hv, hlt, hfit, heq⟩ := hg.tryGrowStack_eq hs.wellFormed
    refine ⟨_, by rw [run, heq]; rfl, ?_⟩
    intro hacc
    have hne := hs.wellFormed.nonempty hv
    have hne' : (growStart va).asU64 < v.end.asU64 := by omega
    have hw' := (hs.wellFormed.without v.start).store hne' hfit
    exact hs.not_of_growth hv hlt hfit (ledger_iff.mpr ⟨hw', hacc⟩).charged.virtual_eq
  | _ => exact hg.elim

variable {P : AddressSpace → Prop} {ops : List (Env × MmOp)}

/-- **The counters are right in every state of a run exactly when no stack growth of the run
extends a VMA.** -/
theorem accounted_iff (selfWeak : Arc) (mmapBase : ℕ) (mmapTopdown : Bool) (rmaps : Rmaps)
    (ops : List (Env × MmOp)) :
    Throughout Accounted (AddressSpace.new selfWeak mmapBase mmapTopdown rmaps) ops ↔
      NeverGrows (AddressSpace.new selfWeak mmapBase mmapTopdown rmaps) ops :=
  Run.alwaysOk_iff_meetsOk (I := Ledger) (fun _ hs => (ledger_iff.mp hs).2)
    (fun _ _ _ hs hg hrun => run_ledger hs hg hrun)
    (fun _ op hs hg => run_of_grows op.1 hs (not_not.mp hg))
    (ledger_iff.mpr ⟨WellFormed.new, rfl, rfl, rfl, rfl⟩)

/-- Map one stack page, let it grow by a page, unmap both pages. -/
def growThenUnmap : List (Env × MmOp) :=
  [(.plain, mmapWithMayAt (.fixed ⟨0x8000, by decide⟩) 0x1000 VmaProt.READ VmaProt.READ
      VmaFlags.GROWSDOWN .anonymous),
    (.plain, tryGrowStack ⟨0x7000, by decide⟩ 0x100000 0x100000),
    (.plain, munmap ⟨0x7000, by decide⟩ 0x2000)]

/-- The state at the end of a run. -/
def runAll (s : AddressSpace) (ops : List (Env × MmOp)) : Except Panic AddressSpace :=
  ops.foldlM (fun s op => op.2.run op.1 s) s

/-- **The unmapping subtracts two pages where one was added**: the tree is empty and the counter
has wrapped. -/
theorem growThenUnmap_wraps :
    ¬ Throughout Accounted (.new ⟨0⟩ 0x100000 true .empty) growThenUnmap ∧
    (runAll (.new ⟨0⟩ 0x100000 true .empty) growThenUnmap).map (fun s =>
        (s.tree.iter.length, s.accounting.virtualBytes, s.accounting.wrapped)) =
      .ok (0, 2 ^ 64 - 0x1000, true) := by
  have hend : (runAll (.new ⟨0⟩ 0x100000 true .empty) growThenUnmap).map (fun s =>
        (s.tree.iter.length, s.accounting.virtualBytes, s.accounting.wrapped)) =
      .ok (0, 2 ^ 64 - 0x1000, true) := by rfl
  refine ⟨?_, hend⟩
  intro h
  cases hr : runAll (.new ⟨0⟩ 0x100000 true .empty) growThenUnmap with
  | error => simp [hr, Except.map] at hend
  | ok =>
  simp only [hr, Except.map, Except.ok.injEq, Prod.mk.injEq] at hend
  have hw := (h.last hr).unwrapped
  cases hend.2.2.symm.trans hw

end MmOp

end Oxide
