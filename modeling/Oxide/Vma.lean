/-
Virtual memory areas.

A `Vma` is the descriptor of one mapped range of user addresses: its bounds, its rights and
flags, and the object behind it (`VmaBacking`). This file models the two operations from
which every change of a mapping is built, and what the fault handlers compute from a VMA:

* `Vma.cloneSubrange`: the fragment of a VMA left by a split;
* `Vma.mergeableWithNext`: whether two abutting VMAs may be coalesced;
* `Vma.location`: the place in the backing object an address resolves to;
* `location_cloneSubrange_iff`: exactly when a fragment resolves its addresses as the whole did.

Design notes: a refcounted object is represented by its identity (`Arc`), which is all that
`Arc::ptr_eq` and the handlers use. Machine words are `BitVec`s; sums wrap as they do in the
release profile, which is built without overflow checks.
-/
import Mathlib.Data.BitVec
import Mathlib.Tactic.Ring
import Oxide.Word

namespace Oxide

open BitVec

variable {a b : UserVirtAddr}

/-- First address above the user half. -/
def USER_VA_END : ℕ := 0x0000800000000000

/-- A user virtual address: a raw word below `USER_VA_END`. -/
structure UserVirtAddr where
  asU64 : ℕ
  isUser : asU64 < USER_VA_END

namespace UserVirtAddr

theorem asU64_injective : Function.Injective UserVirtAddr.asU64 := by
  rintro ⟨a, ha⟩ ⟨b, hb⟩ h
  cases h
  rfl

instance : LinearOrder UserVirtAddr := LinearOrder.lift' asU64 asU64_injective

theorem lt_iff : a < b ↔ a.asU64 < b.asU64 := Iff.rfl

theorem le_iff : a ≤ b ↔ a.asU64 ≤ b.asU64 := Iff.rfl

theorem eq_iff : a = b ↔ a.asU64 = b.asU64 := asU64_injective.eq_iff.symm

/-- Construct from a raw word; `none` at or above `USER_VA_END`. -/
def new (raw : ℕ) : Option UserVirtAddr :=
  if h : raw < USER_VA_END then some ⟨raw, h⟩ else none

theorem new_eq_some {raw : ℕ} (h : raw < USER_VA_END) : new raw = some ⟨raw, h⟩ := dif_pos h

/-- The address as a machine word. -/
def bits (a : UserVirtAddr) : BitVec 64 := BitVec.ofNat 64 a.asU64

theorem asU64_lt (a : UserVirtAddr) : a.asU64 < 2 ^ 47 := a.isUser

end UserVirtAddr

/-- Identity of a refcounted object; `Arc::ptr_eq` is equality of identities. -/
structure Arc where
  ptr : ℕ
  deriving DecidableEq

/-- Protection bits `READ`, `WRITE`, `EXEC`. -/
abbrev VmaProt := BitVec 8

namespace VmaProt

def READ : VmaProt := 1 <<< 0
def WRITE : VmaProt := 1 <<< 1
def EXEC : VmaProt := 1 <<< 2

end VmaProt

/-- VMA flag bits. -/
abbrev VmaFlags := BitVec 32

/-- `bitflags` membership: every bit of `other` is set in `self`. -/
def bitsContain {w : ℕ} (self other : BitVec w) : Bool := self &&& other == other

/-- `bitflags` difference: the bits of `self` that are not in `other`. -/
def bitsDifference {w : ℕ} (self other : BitVec w) : BitVec w := self &&& ~~~other

namespace VmaFlags

def SHARED : VmaFlags := 1 <<< 0
def PRIVATE : VmaFlags := 1 <<< 1
def GROWSDOWN : VmaFlags := 1 <<< 3
def LOCKED : VmaFlags := 1 <<< 4
def SEALED : VmaFlags := 1 <<< 5
def DONTFORK : VmaFlags := 1 <<< 6
def WIPEONFORK : VmaFlags := 1 <<< 7
def UFFD_MISSING : VmaFlags := 1 <<< 8
def SYSVSHM : VmaFlags := 1 <<< 15
def LOCKONFAULT : VmaFlags := 1 <<< 16
def UFFD_WP : VmaFlags := 1 <<< 17
def UFFD_MINOR : VmaFlags := 1 <<< 18
def SECRETMEM : VmaFlags := 1 <<< 19

/-- Every userfaultfd registration-mode flag. -/
def UFFD_MASK : VmaFlags := UFFD_MISSING ||| UFFD_WP ||| UFFD_MINOR

/-- The mlock-family flag pair. -/
def LOCKED_MASK : VmaFlags := LOCKED ||| LOCKONFAULT

end VmaFlags

/-- Caching of a device range. -/
inductive PhysCacheMode
  | writeBack
  | device
  | writeCombine
  deriving DecidableEq

/-- What is behind a VMA. -/
inductive VmaBacking
  | anonymous
  | file (backing : Arc) (off : BitVec 64)
  | kernelBytes (data : Arc) (off : BitVec 64)
  | kernelFrame (pa : BitVec 64)
  | kernelPages (pages : Arc) (off : BitVec 64)
  | physRange (basePa : BitVec 64) (cache : PhysCacheMode)
  | special
  deriving DecidableEq

/-- A NUMA policy. -/
structure MemPolicy where
  mode : BitVec 16
  flags : BitVec 16
  nodes : BitVec 64
  userNodes : BitVec 64
  homeNode : BitVec 32
  deriving DecidableEq

/-- A single virtual memory area, covering `start ≤ va < end`. -/
structure Vma where
  start : UserVirtAddr
  «end» : UserVirtAddr
  prot : VmaProt
  mayProt : VmaProt
  pkey : BitVec 8
  flags : VmaFlags
  backing : VmaBacking
  rss : BitVec 64
  anonVma : Option Arc
  anonPages : Bool
  fileRmap : Option Arc
  anonName : Option String
  uffd : Option Arc
  mempolicy : Option MemPolicy
  mappingOrigin : Option UserVirtAddr
  deriving DecidableEq

/-- `u64::saturating_add`. -/
def saturatingAdd (a b : BitVec 64) : BitVec 64 :=
  if a.toNat + b.toNat < 2 ^ 64 then a + b else allOnes 64

/-- `u64::checked_add`. -/
def checkedAdd (a b : BitVec 64) : Option (BitVec 64) :=
  if a.toNat + b.toNat < 2 ^ 64 then some (a + b) else none

/-- A place in a backing object, as the fault handlers address it. -/
inductive Location
  | anonymous
  | file (backing : Arc) (off : BitVec 64)
  | kernelBytes (data : Arc) (off : BitVec 64)
  | kernelFrame (pa : BitVec 64)
  | kernelPages (pages : Arc) (off : BitVec 64)
  | physRange (pa : BitVec 64) (cache : PhysCacheMode)
  | special
  deriving DecidableEq

namespace VmaBacking

variable (b : VmaBacking)

/-- The backing of a fragment that starts `offDelta` bytes into the VMA.  Only the three
offset-addressed variants are rebased. -/
def rebase (offDelta : BitVec 64) : VmaBacking :=
  match b with
  | file backing off => file backing (off + offDelta)
  | kernelBytes data off => kernelBytes data (off + offDelta)
  | kernelPages pages off => kernelPages pages (off + offDelta)
  | other => other

/-- The place the fault handlers reach `vmaOff` bytes into a VMA with this backing: file and
kernel-byte offsets saturate, the other sums are plain. -/
def resolve (vmaOff : BitVec 64) : Location :=
  match b with
  | anonymous => .anonymous
  | file backing off => .file backing (saturatingAdd off vmaOff)
  | kernelBytes data off => .kernelBytes data (saturatingAdd off vmaOff)
  | kernelFrame pa => .kernelFrame (pa + vmaOff)
  | kernelPages pages off => .kernelPages pages (vmaOff + off)
  | physRange basePa cache => .physRange (basePa + vmaOff) cache
  | special => .special

/-- A fragment that starts `delta` bytes into a VMA with this backing resolves its addresses
as the VMA did: the physical variants, which are not rebased, must not be displaced, and the
rebased offset of the saturating variants must not wrap. -/
def FollowsSplit (delta : ℕ) : Prop :=
  match b with
  | file _ off | kernelBytes _ off => off.toNat + delta < 2 ^ 64
  | kernelFrame _ | physRange _ _ => delta = 0
  | anonymous | kernelPages _ _ | special => True

/-- Whether `next` continues this backing `len` bytes on: the backing part of the test for
coalescing.  Only anonymous memory and contiguous ranges of one file continue. -/
def continuesTo (len : BitVec 64) (next : VmaBacking) : Bool :=
  match b, next with
  | anonymous, anonymous => true
  | file ab a, file bb b => ab == bb && checkedAdd a len == some b
  | _, _ => false

end VmaBacking

namespace Vma

/-- Whether the VMA covers `va`. -/
def contains (v : Vma) (va : UserVirtAddr) : Bool :=
  va.asU64 ≥ v.start.asU64 && va.asU64 < v.end.asU64

theorem contains_iff {v : Vma} {va : UserVirtAddr} :
    v.contains va = true ↔ v.start.asU64 ≤ va.asU64 ∧ va.asU64 < v.end.asU64 := by
  simp [contains]

/-- Byte length of the range. -/
def lenBytes (v : Vma) : BitVec 64 := v.end.bits - v.start.bits

/-- The fragment `[newStart, newEnd)` of a VMA, used wherever a range operation splits one. -/
def cloneSubrange (v : Vma) (newStart newEnd : UserVirtAddr) : Vma :=
  let offDelta := newStart.bits - v.start.bits
  { v with start := newStart, «end» := newEnd, backing := v.backing.rebase offDelta, rss := 0 }

/-- A copy for another address space.  The userfaultfd registration is not inherited. -/
def clone (v : Vma) : Vma :=
  { v with flags := bitsDifference v.flags VmaFlags.UFFD_MASK, uffd := none }

/-- Whether `next` may be coalesced into `self`: abutting, equal in every attribute, and
anonymous or contiguous in one file. -/
def mergeableWithNext (self next : Vma) : Bool :=
  self.end == next.start && self.prot == next.prot && self.mayProt == next.mayProt &&
  self.pkey == next.pkey && self.flags == next.flags && self.anonName == next.anonName &&
  self.uffd == next.uffd && self.mempolicy == next.mempolicy &&
  self.backing.continuesTo self.lenBytes next.backing

/-- The survivor of a coalescing: `self` extended over `next`. -/
def absorb (self next : Vma) : Vma := { self with «end» := next.end, rss := self.rss + next.rss }

/-- The place in the backing object that `va` resolves to. -/
def location (v : Vma) (va : UserVirtAddr) : Location :=
  v.backing.resolve (va.bits - v.start.bits)

/-! ### Fragments -/

theorem toNat_bits_sub (h : b.asU64 ≤ a.asU64) : (a.bits - b.bits).toNat = a.asU64 - b.asU64 := by
  have ha := a.asU64_lt
  simp only [UserVirtAddr.bits, toNat_sub, toNat_ofNat]
  omega

theorem toNat_saturatingAdd (a b : BitVec 64) :
    (saturatingAdd a b).toNat = min (a.toNat + b.toNat) (2 ^ 64 - 1) := by
  unfold saturatingAdd
  split_ifs with h
  · rw [toNat_add]
    omega
  · simp only [toNat_allOnes]
    omega

/-- Rebasing a saturating offset is exact when the rebased offset does not wrap, and never
otherwise: a wrapped offset lands near the beginning of the object. -/
theorem saturatingAdd_rebase_iff {off : BitVec 64} {delta rest : BitVec 64}
    (hd : delta.toNat < 2 ^ 47) (hr : rest.toNat < 2 ^ 47) :
    saturatingAdd (off + delta) rest = saturatingAdd off (delta + rest) ↔
      off.toNat + delta.toNat < 2 ^ 64 := by
  rw [← toNat_inj, toNat_saturatingAdd, toNat_saturatingAdd, toNat_add, toNat_add]
  omega

variable {v : Vma} {s e va : UserVirtAddr}

theorem bits_sub_add_bits_sub (a b c : UserVirtAddr) :
    (b.bits - a.bits) + (c.bits - b.bits) = c.bits - a.bits := by
  ring

/-- **A fragment resolves an address as the whole did exactly when its backing follows the
split.** -/
theorem location_cloneSubrange_iff (hs : v.start.asU64 ≤ s.asU64) (hva : s.asU64 ≤ va.asU64) :
    (v.cloneSubrange s e).location va = v.location va ↔
      v.backing.FollowsSplit (s.asU64 - v.start.asU64) := by
  have hd := toNat_bits_sub hs
  have hr := toNat_bits_sub hva
  have hsum := bits_sub_add_bits_sub v.start s va
  have hlt := va.asU64_lt
  unfold location cloneSubrange
  rw [← hsum, ← hd]
  set delta := s.bits - v.start.bits
  set rest := va.bits - s.bits
  -- a plain sum moves by `delta` exactly when `delta` is zero
  have hplain : ∀ pa : BitVec 64, pa + rest = pa + (delta + rest) ↔ delta.toNat = 0 := by
    intro pa
    constructor
    · intro h
      have h0 : delta = 0 := by
        have := add_left_cancel h
        simpa using this.symm
      simp [h0]
    · intro h
      have h0 : delta = 0 := eq_of_toNat_eq (by simpa using h)
      simp [h0]
  cases hb : v.backing with
  | anonymous => simp [VmaBacking.rebase, VmaBacking.resolve, VmaBacking.FollowsSplit]
  | special => simp [VmaBacking.rebase, VmaBacking.resolve, VmaBacking.FollowsSplit]
  | file =>
    simp only [VmaBacking.rebase, VmaBacking.resolve, Location.file.injEq, true_and]
    exact saturatingAdd_rebase_iff (by omega) (by omega)
  | kernelBytes =>
    simp only [VmaBacking.rebase, VmaBacking.resolve, Location.kernelBytes.injEq, true_and]
    exact saturatingAdd_rebase_iff (by omega) (by omega)
  | kernelFrame pa =>
    simp only [VmaBacking.rebase, VmaBacking.resolve, Location.kernelFrame.injEq]
    exact hplain pa
  | kernelPages =>
    simp only [VmaBacking.rebase, VmaBacking.resolve, VmaBacking.FollowsSplit,
      Location.kernelPages.injEq, true_and, iff_true]
    ring
  | physRange pa =>
    simp only [VmaBacking.rebase, VmaBacking.resolve, Location.physRange.injEq, and_true]
    exact hplain pa

/-! ### Coalescing -/

variable {l m r : Vma}

/-- What the test for coalescing has checked. -/
structure Mergeable (l r : Vma) : Prop where
  abut : l.end = r.start
  prot : l.prot = r.prot
  mayProt : l.mayProt = r.mayProt
  pkey : l.pkey = r.pkey
  flags : l.flags = r.flags
  anonName : l.anonName = r.anonName
  uffd : l.uffd = r.uffd
  mempolicy : l.mempolicy = r.mempolicy
  backing : l.backing.continuesTo l.lenBytes r.backing = true

theorem mergeableWithNext_iff : l.mergeableWithNext r = true ↔ Mergeable l r := by
  simp only [mergeableWithNext, Bool.and_eq_true, beq_iff_eq]
  constructor
  · rintro ⟨⟨⟨⟨⟨⟨⟨⟨h1, h2⟩, h3⟩, h4⟩, h5⟩, h6⟩, h7⟩, h8⟩, h9⟩
    exact ⟨h1, h2, h3, h4, h5, h6, h7, h8, h9⟩
  · rintro ⟨h1, h2, h3, h4, h5, h6, h7, h8, h9⟩
    exact ⟨⟨⟨⟨⟨⟨⟨⟨h1, h2⟩, h3⟩, h4⟩, h5⟩, h6⟩, h7⟩, h8⟩, h9⟩

end Vma

namespace VmaBacking

theorem checkedAdd_eq_some_iff {a b c : BitVec 64} :
    checkedAdd a b = some c ↔ a.toNat + b.toNat = c.toNat := by
  unfold checkedAdd
  split_ifs with h
  · rw [Option.some_inj, ← toNat_inj, toNat_add]
    omega
  · simp only [false_iff]
    omega

/-- The backings that continue one another. -/
theorem continuesTo_iff {b b' : VmaBacking} {len : BitVec 64} :
    b.continuesTo len b' = true ↔ (b = .anonymous ∧ b' = .anonymous) ∨
      ∃ f off off', b = .file f off ∧ b' = .file f off' ∧ off.toNat + len.toNat = off'.toNat := by
  cases b <;> cases b' <;> simp [continuesTo, checkedAdd_eq_some_iff]
  intro _
  exact eq_comm

end VmaBacking

namespace Vma

variable {l m r : Vma} {va : UserVirtAddr}

/-- A coalesced VMA resolves the addresses of its right part as the right part did. -/
theorem location_absorb_right (hm : Mergeable l r) (hl : l.start.asU64 ≤ l.end.asU64)
    (hva : r.start.asU64 ≤ va.asU64) : (l.absorb r).location va = r.location va := by
  have habut := UserVirtAddr.eq_iff.mp hm.abut
  unfold location absorb
  rcases VmaBacking.continuesTo_iff.mp hm.backing with ⟨hb, hb'⟩ | ⟨f, off, off', hb, hb', hoff⟩
  · rw [hb, hb']
    rfl
  have hlen := toNat_bits_sub hl
  have h1 := toNat_bits_sub hva
  have h2 := toNat_bits_sub (show l.start.asU64 ≤ va.asU64 by omega)
  simp only [hb, hb', VmaBacking.resolve, Location.file.injEq, true_and]
  rw [← toNat_inj, toNat_saturatingAdd, toNat_saturatingAdd]
  unfold lenBytes at hoff
  omega

/-- After a left coalescing the survivor may absorb exactly what the absorbed VMA could. -/
theorem mergeable_absorb_iff (hm : Mergeable l m) (hl : l.start.asU64 ≤ l.end.asU64)
    (hmid : m.start.asU64 ≤ m.end.asU64) : Mergeable (l.absorb m) r ↔ Mergeable m r := by
  have habut := UserVirtAddr.eq_iff.mp hm.abut
  have hback : (l.absorb m).backing.continuesTo (l.absorb m).lenBytes r.backing = true ↔
      m.backing.continuesTo m.lenBytes r.backing = true := by
    have hlen : (l.absorb m).lenBytes.toNat = l.lenBytes.toNat + m.lenBytes.toNat := by
      unfold lenBytes absorb
      rw [toNat_bits_sub hl, toNat_bits_sub hmid, toNat_bits_sub (by simp only; omega)]
      simp only
      omega
    simp only [VmaBacking.continuesTo_iff, hlen]
    rcases VmaBacking.continuesTo_iff.mp hm.backing with ⟨hb, hb'⟩ | ⟨f, off, off', hb, hb', hoff⟩
    · simp [absorb, hb, hb']
    simp only [absorb, hb, hb', reduceCtorEq, false_and, VmaBacking.file.injEq, false_or]
    constructor
    · rintro ⟨f1, o1, o2, ⟨rfl, rfl⟩, hr, ho⟩
      exact ⟨f, off', o2, ⟨rfl, rfl⟩, hr, by omega⟩
    · rintro ⟨f1, o1, o2, ⟨rfl, rfl⟩, hr, ho⟩
      exact ⟨f, off, o2, ⟨rfl, rfl⟩, hr, by omega⟩
  constructor
  · intro h
    exact ⟨h.abut, hm.prot.symm.trans h.prot, hm.mayProt.symm.trans h.mayProt,
      hm.pkey.symm.trans h.pkey, hm.flags.symm.trans h.flags, hm.anonName.symm.trans h.anonName,
      hm.uffd.symm.trans h.uffd, hm.mempolicy.symm.trans h.mempolicy, hback.mp h.backing⟩
  intro h
  exact ⟨h.abut, hm.prot.trans h.prot, hm.mayProt.trans h.mayProt,
    hm.pkey.trans h.pkey, hm.flags.trans h.flags, hm.anonName.trans h.anonName,
    hm.uffd.trans h.uffd, hm.mempolicy.trans h.mempolicy, hback.mpr h.backing⟩

end Vma

end Oxide
