/-
The two hole searches of `mmap`.

The descending scan keeps the end of the gap it is in and the ascending scan its start. What is
left to find for the rest of the VMAs is a hole below the one or above the other, and the first
address that a scan accepts is the best of all of them.

* `alignDown_isGreatest`, `alignUp_isLeast`: rounding, stated by the multiples on either side;
* `topDownScan_highest`, `bottomUpScan_lowest`: the loops;
* `VmaTree.holeSearch_iff`: both searches are exact, unless the top anchor leaves room beyond the
  user addresses or rounding the floor leaves the word;
* `VmaTree.holeSearch_exact`: **they are exact from any anchor that is a user address.**
-/
import Oxide.AddressSpace
import Oxide.VmaRangeLoop

namespace Oxide

/-! ### Rounding -/

section

variable {addr k : ℕ}

theorem alignDown_eq (h : addr < 2 ^ 64) (hk : k ≤ 64) :
    alignDown addr (2 ^ k) = addr / 2 ^ k * 2 ^ k := by
  have hmask : 2 ^ 64 - 2 ^ k = 2 ^ 64 - ((2 ^ k - 1) + 1) := by
    have := Nat.one_le_two_pow (n := k)
    omega
  have hlow : 2 ^ k - 1 < 2 ^ 64 := by
    have := Nat.pow_le_pow_right (n := 2) (by omega) hk
    omega
  refine Nat.eq_of_testBit_eq fun i => ?_
  rw [alignDown, hmask, Nat.testBit_and, Nat.testBit_two_pow_sub_succ hlow,
    ← Nat.shiftRight_eq_div_pow, ← Nat.shiftLeft_eq,
    Nat.testBit_shiftLeft, Nat.testBit_shiftRight]
  by_cases hki : k ≤ i
  · rw [Nat.add_sub_cancel' hki]
    by_cases hi : i < 64
    · simp [hi, hki]
    · simp [Nat.testBit_lt_two_pow (h.trans_le (Nat.pow_le_pow_right (by omega) (not_lt.mp hi)))]
  · simp [not_le.mp hki]

theorem alignDown_isGreatest (h : addr < 2 ^ 64) (hk : k ≤ 64) :
    IsGreatest {x | 2 ^ k ∣ x ∧ x ≤ addr} (alignDown addr (2 ^ k)) := by
  rw [alignDown_eq h hk]
  refine ⟨⟨Dvd.intro_left _ rfl, Nat.div_mul_le_self _ _⟩, ?_⟩
  rintro x ⟨⟨q, rfl⟩, hle⟩
  rw [mul_comm] at hle ⊢
  exact Nat.mul_le_mul_right _ ((Nat.le_div_iff_mul_le (Nat.two_pow_pos k)).mpr hle)

theorem alignUp_isLeast (h : addr + (2 ^ k - 1) < 2 ^ 64) (hk : k ≤ 64) :
    IsLeast {x | 2 ^ k ∣ x ∧ addr ≤ x} (alignUp addr (2 ^ k)) := by
  have hpos := Nat.two_pow_pos k
  rw [alignUp, Nat.mod_eq_of_lt h, ← alignDown, alignDown_eq h hk]
  refine ⟨⟨Dvd.intro_left _ rfl, ?_⟩, ?_⟩
  · have := Nat.lt_div_mul_add (a := addr + (2 ^ k - 1)) hpos
    omega
  rintro x ⟨⟨q, rfl⟩, hle⟩
  rw [mul_comm _ q]
  refine Nat.mul_le_mul_right _ (Nat.lt_succ_iff.mp ((Nat.div_lt_iff_lt_mul hpos).mpr ?_))
  rw [Nat.succ_mul, mul_comm q]
  omega

/-- An address too close to the end of the word is rounded up to zero. -/
theorem alignUp_wraps (haddr : addr < 2 ^ 64) (hk : k ≤ 64) (h : 2 ^ 64 ≤ addr + (2 ^ k - 1)) :
    alignUp addr (2 ^ k) = 0 := by
  rw [alignUp, ← alignDown, alignDown_eq (by omega) hk, Nat.div_eq_of_lt (by omega), zero_mul]

end

/-! ### Holes -/

/-- `[a, a + len)` is aligned, lies in `[lo, hi)` and meets none of the VMAs. -/
structure Hole (len align lo hi : ℕ) (vs : List Vma) (a : ℕ) : Prop where
  aligned : align ∣ a
  lo_le : lo ≤ a
  le_hi : a + len ≤ hi
  clear : ∀ v ∈ vs, a + len ≤ v.start.asU64 ∨ v.end.asU64 ≤ a

/-- The answer has the property and is best among the addresses that have it, or none has it. -/
def Best (r : ℕ → ℕ → Prop) (P : ℕ → Prop) : Option UserVirtAddr → Prop
  | some a => P a.asU64 ∧ ∀ x, P x → r x a.asU64
  | none => ∀ x, ¬ P x

/-- The answer is the highest address with the property, or there is none. -/
abbrev Highest := Best (· ≤ ·)

/-- The answer is the lowest address with the property, or there is none. -/
abbrev Lowest := Best (· ≥ ·)

section

variable {r : ℕ → ℕ → Prop} {P Q : ℕ → Prop} {o : Option UserVirtAddr} {a : ℕ}

theorem Best.congr (h : ∀ x, P x ↔ Q x) (ho : Best r P o) : Best r Q o :=
  (funext fun x => propext (h x) : P = Q) ▸ ho

theorem Best.new (ha : P a) (huser : a < USER_VA_END) (hbest : ∀ x, P x → r x a) :
    Best r P (UserVirtAddr.new a) := by
  rw [UserVirtAddr.new_eq_some huser]
  exact ⟨ha, hbest⟩

theorem Highest.lt (ho : Highest P o) (ha : P a) : a < USER_VA_END := by
  cases o with
  | none => exact absurd ha (ho a)
  | some b => exact (ho.2 a ha).trans_lt b.isUser

end

variable {len k lo top low mmapTop floor : ℕ} {vs rest : List Vma} {v : Vma}

theorem hole_cons_iff {align hi a : ℕ} :
    Hole len align lo hi (v :: rest) a ↔
      Hole len align lo hi rest a ∧ (a + len ≤ v.start.asU64 ∨ v.end.asU64 ≤ a) := by
  refine ⟨fun h => ⟨⟨h.aligned, h.lo_le, h.le_hi, fun w hw => h.clear w (.tail _ hw)⟩,
    h.clear v (.head _)⟩, fun ⟨h, hv⟩ => ⟨h.aligned, h.lo_le, h.le_hi, fun w hw => ?_⟩⟩
  rcases List.mem_cons.mp hw with rfl | hw
  · exact hv
  · exact h.clear w hw

/-! ### The descending scan -/

/-- What the descending scan has still to find is a hole below `top`. -/
theorem topDownScan_highest (hlen : 0 < len) (hk : k ≤ 64) (htop : top < 2 ^ 64)
    (hle : top ≤ mmapTop) (hne : ∀ v ∈ vs, v.start.asU64 < v.end.asU64)
    (hsorted : vs.Pairwise fun a b => b.end.asU64 ≤ a.start.asU64)
    (hbelow : ∀ v ∈ vs, v.start.asU64 ≤ top ∨ mmapTop ≤ v.start.asU64)
    (huser : ∀ a, Hole len (2 ^ k) MIN_USER_VA top vs a → a < USER_VA_END) :
    Highest (Hole len (2 ^ k) MIN_USER_VA top vs)
      (topDownScan len mmapTop (2 ^ k) top vs) := by
  induction vs generalizing top with
  | nil =>
    obtain ⟨⟨hdvd, hself⟩, hmax⟩ := alignDown_isGreatest (show top - len < 2 ^ 64 by omega) hk
    rw [topDownScan]
    dsimp only
    split_ifs with hroom hmin
    · have hole : Hole len (2 ^ k) MIN_USER_VA top [] (alignDown (top - len) (2 ^ k)) :=
        ⟨hdvd, hmin, by omega, by simp⟩
      exact .new hole (huser _ hole) fun x hx => hmax ⟨hx.aligned, Nat.le_sub_of_add_le hx.le_hi⟩
    · exact fun x hx =>
        hmin (hx.lo_le.trans (hmax ⟨hx.aligned, Nat.le_sub_of_add_le hx.le_hi⟩))
    · exact fun x hx => hroom (by have := hx.lo_le; have := hx.le_hi; omega)
  | cons v rest ih =>
  obtain ⟨⟨hdvd, hself⟩, hmax⟩ := alignDown_isGreatest (show top - len < 2 ^ 64 by omega) hk
  obtain ⟨hv, hrest⟩ := List.pairwise_cons.mp hsorted
  have hvne := hne v (.head _)
  have hvtop := hbelow v (.head _)
  have hne' : ∀ w ∈ rest, w.start.asU64 < w.end.asU64 := fun w hw => hne w (.tail _ hw)
  rw [topDownScan]
  dsimp only
  split_ifs with hout hfit
  · -- the VMA lies outside the window: no hole of the window can meet it
    have hsame : ∀ x, Hole len (2 ^ k) MIN_USER_VA top rest x ↔
        Hole len (2 ^ k) MIN_USER_VA top (v :: rest) x := by
      refine fun x => (hole_cons_iff.trans (and_iff_left_of_imp fun hx => ?_)).symm
      have := hx.lo_le
      have := hx.le_hi
      omega
    exact (ih htop hle hne' hrest (fun w hw => hbelow w (.tail _ hw))
      fun a ha => huser a ((hsame a).mp ha)).congr hsame
  · -- the gap above the VMA holds the mapping
    have hole : Hole len (2 ^ k) MIN_USER_VA top (v :: rest)
        (alignDown (top - len) (2 ^ k)) := by
      refine ⟨hdvd, hfit.2.2, by omega, fun w hw => .inr ?_⟩
      rcases List.mem_cons.mp hw with rfl | hw
      · omega
      · have := hv w hw
        omega
    exact .new hole (huser _ hole) fun x hx => hmax ⟨hx.aligned, Nat.le_sub_of_add_le hx.le_hi⟩
  -- it does not, so what is left lies below the VMA
  have hsame : ∀ x, Hole len (2 ^ k) MIN_USER_VA (max v.start.asU64 MIN_USER_VA) rest x ↔
      Hole len (2 ^ k) MIN_USER_VA top (v :: rest) x := by
    refine fun x => ⟨fun hx => ?_, fun hx => ?_⟩
    · have hx1 := hx.lo_le
      have hx2 := hx.le_hi
      exact hole_cons_iff.mpr ⟨⟨hx.aligned, hx1, by omega, hx.clear⟩, .inl (by omega)⟩
    obtain ⟨hx, hxv⟩ := hole_cons_iff.mp hx
    have hx1 := hx.lo_le
    have hx2 := hx.le_hi
    have hx3 := hmax ⟨hx.aligned, Nat.le_sub_of_add_le hx2⟩
    exact ⟨hx.aligned, hx1, by omega, hx.clear⟩
  have hpage : MIN_USER_VA = 4096 := rfl
  refine (ih (by omega) (by omega) hne' hrest (fun w hw => .inl ?_)
    fun a ha => huser a ((hsame a).mp ha)).congr hsame
  have := hv w hw
  have := hne' w hw
  omega

/-! ### The ascending scan -/

/-- What the ascending scan has still to find is a hole from `low` on. -/
theorem bottomUpScan_lowest (hlen : 0 < len) (hk : k < 64) (hdvd : 2 ^ k ∣ low)
    (hfit : low + len ≤ MMAP_TOP) (hne : ∀ v ∈ vs, v.start.asU64 < v.end.asU64)
    (hsorted : vs.Pairwise fun a b => a.end.asU64 ≤ b.start.asU64) :
    Lowest (Hole len (2 ^ k) low MMAP_TOP vs) (bottomUpScan len (2 ^ k) low vs) := by
  have htop : MMAP_TOP < USER_VA_END := by decide
  induction vs generalizing low with
  | nil =>
    rw [bottomUpScan, if_pos (Nat.le_sub_of_add_le' hfit)]
    exact .new ⟨hdvd, le_rfl, hfit, by simp⟩ (by omega) fun x hx => hx.lo_le
  | cons v rest ih =>
  obtain ⟨hv, hrest⟩ := List.pairwise_cons.mp hsorted
  have hvne := hne v (.head _)
  have hne' : ∀ w ∈ rest, w.start.asU64 < w.end.asU64 := fun w hw => hne w (.tail _ hw)
  rw [bottomUpScan]
  dsimp only
  split_ifs with hpast hroom hend
  · refine (ih hdvd hfit hne' hrest).congr fun x => ?_
    exact (hole_cons_iff.trans (and_iff_left_of_imp fun hx => .inr (hpast.trans hx.lo_le))).symm
  · refine .new ⟨hdvd, le_rfl, hfit, fun w hw => .inl ?_⟩ (by omega) fun x hx => hx.lo_le
    rcases List.mem_cons.mp hw with rfl | hw
    · omega
    · have := hv w hw
      omega
  all_goals
    have hsmall : v.end.asU64 + (2 ^ k - 1) < 2 ^ 64 := by
      have := v.end.asU64_lt
      have := Nat.pow_le_pow_right (n := 2) (by omega) (Nat.le_of_lt_succ hk)
      omega
    obtain ⟨⟨hdvd', hself⟩, hmin⟩ := alignUp_isLeast hsmall hk.le
  · rintro x hx
    obtain ⟨hx, hxv⟩ := hole_cons_iff.mp hx
    have := hx.lo_le
    have := hx.le_hi
    have := hmin ⟨hx.aligned, show v.end.asU64 ≤ x by omega⟩
    omega
  refine (ih hdvd' (by omega) hne' hrest).congr fun x => ⟨fun hx => ?_, fun hx => ?_⟩
  · have := hx.lo_le
    exact hole_cons_iff.mpr ⟨⟨hx.aligned, by omega, hx.le_hi, hx.clear⟩, .inr (by omega)⟩
  · obtain ⟨hx, hxv⟩ := hole_cons_iff.mp hx
    have := hx.lo_le
    exact ⟨hx.aligned, hmin ⟨hx.aligned, by omega⟩, hx.le_hi, hx.clear⟩

/-! ### The searches -/

namespace VmaTree

variable {t : VmaTree}

theorem WellFormed.nonempty_of_mem_iter (hw : t.WellFormed) (hv : v ∈ t.iter) :
    v.start.asU64 < v.end.asU64 := by
  obtain ⟨k, hk⟩ := OrdMap.mem_values_iff.mp hv
  exact hw.nonempty hk

theorem WellFormed.iter_sorted (hw : t.WellFormed) :
    t.iter.Pairwise fun a b => a.end.asU64 ≤ b.start.asU64 := by
  refine List.pairwise_map.mpr (t.map.sorted.imp_of_mem fun ha hb hlt => ?_)
  exact hw.end_le (OrdMap.get?_eq_some_iff_mem.mpr ha) (OrdMap.get?_eq_some_iff_mem.mpr hb) hlt

theorem findHoleAligned_highest (hw : t.WellFormed) (hlen : 0 < len) (hk : k < 64)
    (htop : top < 2 ^ 64)
    (huser : ∀ a, Hole len (2 ^ k) MIN_USER_VA top t.iter a → a < USER_VA_END) :
    Highest (Hole len (2 ^ k) MIN_USER_VA top t.iter) (findHoleAligned t len top (2 ^ k)) := by
  rw [findHoleAligned]
  split_ifs with hsmall
  · intro x hx
    have := hx.lo_le
    have := hx.le_hi
    omega
  have hrev : ∀ x, Hole len (2 ^ k) MIN_USER_VA top t.iter.reverse x ↔
      Hole len (2 ^ k) MIN_USER_VA top t.iter x := fun x =>
    ⟨fun h => ⟨h.aligned, h.lo_le, h.le_hi, by simpa using h.clear⟩,
      fun h => ⟨h.aligned, h.lo_le, h.le_hi, by simpa using h.clear⟩⟩
  exact (topDownScan_highest hlen hk.le htop le_rfl
    (fun _ hv => hw.nonempty_of_mem_iter (List.mem_reverse.mp hv))
    (List.pairwise_reverse.mpr hw.iter_sorted) (fun v _ => le_total _ _)
    fun a ha => huser a ((hrev a).mp ha)).congr hrev

/-- From a rounded floor on, the ascending search finds the lowest hole. -/
theorem findHoleBottomUpAligned_lowest (floor : ℕ) (hw : t.WellFormed) (hlen : 0 < len)
    (hk : k < 64) (hdvd : 2 ^ k ∣ alignUp (max floor MIN_USER_VA) (2 ^ k)) :
    Lowest (Hole len (2 ^ k) (alignUp (max floor MIN_USER_VA) (2 ^ k)) MMAP_TOP t.iter)
      (findHoleBottomUpAligned t len floor (2 ^ k)) := by
  rw [findHoleBottomUpAligned]
  split_ifs with hsmall
  · intro x hx
    have := hx.lo_le
    have := hx.le_hi
    omega
  · exact bottomUpScan_lowest hlen hk hdvd (by omega) (fun _ => hw.nonempty_of_mem_iter)
      hw.iter_sorted

/-- **The searches are exact** where the anchors allow it: no hole of the top-down window starts
beyond the user addresses, and rounding the floor up stays within the word or, the floor being
lost, there is no hole below `MMAP_TOP` at all. -/
theorem holeSearch_iff (hw : t.WellFormed) (hlen : 0 < len) (hk : k < 64) (htop : top < 2 ^ 64)
    (hfloor : floor < 2 ^ 64) :
    Highest (Hole len (2 ^ k) MIN_USER_VA top t.iter) (findHoleAligned t len top (2 ^ k)) ∧
      Lowest (Hole len (2 ^ k) (max floor MIN_USER_VA) MMAP_TOP t.iter)
        (findHoleBottomUpAligned t len floor (2 ^ k)) ↔
    (∀ a, Hole len (2 ^ k) MIN_USER_VA top t.iter a → a < USER_VA_END) ∧
      (max floor MIN_USER_VA + (2 ^ k - 1) < 2 ^ 64 ∨
        ∀ a, ¬ Hole len (2 ^ k) 0 MMAP_TOP t.iter a) := by
  have hpow := Nat.pow_le_pow_right (n := 2) (by omega) (Nat.le_of_lt_succ hk)
  have hsize : MIN_USER_VA < 2 ^ 64 ∧ MMAP_TOP < 2 ^ 63 := by decide
  have hlowest := findHoleBottomUpAligned_lowest floor hw hlen hk
  refine and_congr ⟨fun h a ha => Highest.lt h ha, findHoleAligned_highest hw hlen hk htop⟩ ?_
  by_cases hfits : max floor MIN_USER_VA + (2 ^ k - 1) < 2 ^ 64
  · obtain ⟨⟨hdvd, hself⟩, hmin⟩ := alignUp_isLeast hfits hk.le
    refine iff_of_true ((hlowest hdvd).congr fun x => ⟨fun hx => ?_, fun hx => ?_⟩) (.inl hfits)
    · exact ⟨hx.aligned, hself.trans hx.lo_le, hx.le_hi, hx.clear⟩
    · exact ⟨hx.aligned, hmin ⟨hx.aligned, hx.lo_le⟩, hx.le_hi, hx.clear⟩
  -- the floor is beyond every hole, and the scan starts from zero
  have hnone : ∀ x, ¬ Hole len (2 ^ k) (max floor MIN_USER_VA) MMAP_TOP t.iter x := by
    intro x hx
    have := hx.lo_le
    have := hx.le_hi
    omega
  rw [alignUp_wraps (by omega) hk.le (by omega)] at hlowest
  have hzero := hlowest (dvd_zero _)
  simp only [hfits, false_or]
  cases hr : findHoleBottomUpAligned t len floor (2 ^ k) with
  | none =>
    rw [hr] at hzero
    exact iff_of_true hnone hzero
  | some =>
    rw [hr] at hzero
    exact iff_of_false (fun h => hnone _ h.1) fun h => h _ hzero.1

/-- **Both searches are exact at user addresses**: the highest hole below the anchor and the lowest
from the floor on are found, and none is answered only where there is none. -/
theorem holeSearch_exact (hw : t.WellFormed) (hlen : 0 < len) (hk : k < 64)
    (htop : top ≤ USER_VA_END) (hfloor : floor ≤ USER_VA_END) :
    Highest (Hole len (2 ^ k) MIN_USER_VA top t.iter) (findHoleAligned t len top (2 ^ k)) ∧
      Lowest (Hole len (2 ^ k) (max floor MIN_USER_VA) MMAP_TOP t.iter)
        (findHoleBottomUpAligned t len floor (2 ^ k)) := by
  have hpow := Nat.pow_le_pow_right (n := 2) (by omega) (Nat.le_of_lt_succ hk)
  have hend : USER_VA_END ≤ 2 ^ 63 ∧ MIN_USER_VA ≤ 2 ^ 63 := by decide
  refine (holeSearch_iff hw hlen hk (by omega) (by omega)).mpr ⟨fun a ha => ?_, .inl (by omega)⟩
  have := ha.le_hi
  omega

/-- Above two mapped pages there is one hole of the alignment below the anchor, and both searches
find it. -/
theorem lockedPair_holeSearch :
    Highest (Hole 4096 (2 ^ 13) MIN_USER_VA 20480 TreeOp.lockedPair.iter)
        (findHoleAligned TreeOp.lockedPair 4096 20480 (2 ^ 13)) ∧
      Lowest (Hole 4096 (2 ^ 13) (max 4096 MIN_USER_VA) MMAP_TOP TreeOp.lockedPair.iter)
        (findHoleBottomUpAligned TreeOp.lockedPair 4096 4096 (2 ^ 13)) ∧
      findHoleAligned TreeOp.lockedPair 4096 20480 (2 ^ 13) = some (TreeOp.pageAddr 4) ∧
      findHoleBottomUpAligned TreeOp.lockedPair 4096 4096 (2 ^ 13) = some (TreeOp.pageAddr 4) := by
  refine and_assoc.mp ⟨holeSearch_exact TreeOp.lockedPair_wellFormed ?_ ?_ ?_ ?_, ?_, ?_⟩
  all_goals decide +kernel

/-- A floor in the last page of the word is rounded up to zero, and the search answers with the
zero page. -/
theorem last_page_floor_is_lost :
    ¬ (Highest (Hole 4096 (2 ^ 21) MIN_USER_VA MMAP_TOP VmaTree.new.iter)
        (findHoleAligned .new 4096 MMAP_TOP (2 ^ 21)) ∧
      Lowest (Hole 4096 (2 ^ 21) (max (2 ^ 64 - 4096) MIN_USER_VA) MMAP_TOP VmaTree.new.iter)
        (findHoleBottomUpAligned .new 4096 (2 ^ 64 - 4096) (2 ^ 21))) := by
  rintro ⟨-, hlow⟩
  exact absurd hlow.1.lo_le (by decide)

end VmaTree

end Oxide
