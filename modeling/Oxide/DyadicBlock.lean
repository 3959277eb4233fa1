/-
Aligned power-of-two blocks of natural numbers, the arithmetic of a buddy system.

* **`Covers o p q`**: the block of order `o` at `p` contains `q`;
* **`Aligned o p`**: `p` is a multiple of `2 ^ o`;
* **`covers_of_meet`**: of two aligned blocks that meet, the smaller lies in the larger;
* **`buddyOf o p`**: the other half of the aligned block of order `o + 1` around `p`,
  computed by flipping one bit, with `covers_parent` for the union of the two.
-/
import Mathlib.Data.Nat.Bitwise
import Mathlib.Tactic.Ring

namespace DyadicBlock

variable {o o' p p' q : ℕ}

/-- The block of order `o` at `p` contains `q`. -/
def Covers (o p q : ℕ) : Prop := p ≤ q ∧ q < p + 2 ^ o

instance (o p q : ℕ) : Decidable (Covers o p q) := inferInstanceAs (Decidable (_ ∧ _))

/-- `p` can start a block of order `o`. -/
def Aligned (o p : ℕ) : Prop := 2 ^ o ∣ p

/-- The aligned block of order `o` that contains `q`. -/
def blockOf (o q : ℕ) : ℕ := q >>> o <<< o

/-- The sibling of an aligned block: flip the bit of its order. -/
def buddyOf (o p : ℕ) : ℕ := p ^^^ 2 ^ o

theorem covers_self (o p : ℕ) : Covers o p p :=
  ⟨le_rfl, Nat.lt_add_of_pos_right (Nat.two_pow_pos o)⟩

@[simp]
theorem covers_zero : Covers 0 p q ↔ q = p := by
  unfold Covers
  omega

@[simp]
theorem aligned_zero (p : ℕ) : Aligned 0 p := one_dvd p

theorem Aligned.mono (h : Aligned o p) (ho : o' ≤ o) : Aligned o' p :=
  (pow_dvd_pow 2 ho).trans h

theorem blockOf_eq (o q : ℕ) : blockOf o q = q / 2 ^ o * 2 ^ o := by
  rw [blockOf, Nat.shiftLeft_eq, Nat.shiftRight_eq_div_pow]

theorem covers_blockOf (o q : ℕ) : Covers o (blockOf o q) q := by
  rw [blockOf_eq]
  have := Nat.div_add_mod' q (2 ^ o)
  constructor <;> omega

section

variable (h : Aligned o p)
include h

/-- An aligned block is the block of each of its elements. -/
theorem Aligned.covers_iff : Covers o p q ↔ blockOf o q = p := by
  constructor
  · obtain ⟨k, rfl⟩ := h
    rintro ⟨h1, h2⟩
    rw [blockOf_eq]
    have : q / 2 ^ o = k := Nat.div_eq_of_lt_le (by rwa [Nat.mul_comm])
      (by rwa [Nat.mul_comm])
    rw [this, Nat.mul_comm]
  · rintro rfl
    exact covers_blockOf o q

theorem Aligned.blockOf : blockOf o p = p :=
  h.covers_iff.mp (covers_self o p)

theorem Aligned.shift_eq : p >>> o * 2 ^ o = p := by
  have := h.blockOf
  rwa [DyadicBlock.blockOf, Nat.shiftLeft_eq] at this

omit h in
theorem eq_shiftRight {i : ℕ} (hi : i * 2 ^ o = p) : i = p >>> o := by
  rw [← hi, Nat.shiftRight_eq_div_pow, Nat.mul_div_cancel _ (Nat.two_pow_pos _)]

/-- A block inside a larger aligned block that it meets. -/
theorem covers_of_meet (h' : Aligned o' p') (ho : o ≤ o') (hq : Covers o p q) (hq' : Covers o' p' q)
    {x : ℕ} (hx : Covers o p x) : Covers o' p' x := by
  rw [h.covers_iff] at hq hx
  rw [h'.covers_iff] at hq' ⊢
  have key : ∀ y, DyadicBlock.blockOf o' y = DyadicBlock.blockOf o' (DyadicBlock.blockOf o y) := by
    intro y
    obtain ⟨d, rfl⟩ := Nat.exists_eq_add_of_le ho
    simp only [blockOf_eq]
    rw [pow_add, ← Nat.div_div_eq_div_mul, ← Nat.div_div_eq_div_mul,
      Nat.mul_div_cancel _ (Nat.two_pow_pos o)]
  rw [key x, hx, ← hq, ← key q, hq']

/-- Two aligned blocks of one order that meet are equal. -/
theorem eq_of_meet (h' : Aligned o p') (hq : Covers o p q) (hq' : Covers o p' q) : p = p' := by
  rw [h.covers_iff] at hq
  rw [h'.covers_iff] at hq'
  exact hq.symm.trans hq'

end

/-- A block inside another is no larger. -/
theorem order_le_of_covers (h : ∀ q, Covers o p q → Covers o' p' q) : o ≤ o' := by
  have hpos := Nat.two_pow_pos o
  have h1 := h p ⟨le_rfl, by omega⟩
  have h2 := h (p + 2 ^ o - 1) ⟨by omega, by omega⟩
  refine (Nat.pow_le_pow_iff_right (by decide : 1 < 2)).mp ?_
  have h3 := h1.1
  have h4 := h2.2
  omega

theorem Covers.lt_of_lt (h : Covers o p q) (ho : o ≤ o') : Covers o' p q :=
  ⟨h.1, lt_of_lt_of_le h.2 (Nat.add_le_add_left (Nat.pow_le_pow_right (by decide) ho) p)⟩

/-- A block of at least order `k` consists of the order-`k` blocks of its elements. -/
theorem Aligned.shift_between_iff {k : ℕ} (h : Aligned o p) (hk : k ≤ o) :
    (p >>> k ≤ q >>> k ∧ q >>> k ≤ (p + 2 ^ o - 1) >>> k) ↔ Covers o p q := by
  have hpos := Nat.two_pow_pos o
  have hkpos := Nat.two_pow_pos k
  have hp : p >>> k * 2 ^ k = p := (h.mono hk).shift_eq
  obtain ⟨m, hm⟩ : 2 ^ k ∣ p + 2 ^ o := Nat.dvd_add (h.mono hk) (pow_dvd_pow 2 hk)
  simp only [Nat.shiftRight_eq_div_pow] at hp ⊢
  constructor
  · rintro ⟨h1, h2⟩
    rw [Nat.le_div_iff_mul_le hkpos, hp] at h1
    refine ⟨h1, ?_⟩
    by_contra hge
    -- otherwise the end of the block would already be one more order-`k` block up
    have h3 : m ≤ q / 2 ^ k := (Nat.le_div_iff_mul_le hkpos).mpr (by rw [Nat.mul_comm]; omega)
    have h4 : (p + 2 ^ o - 1) / 2 ^ k < m :=
      (Nat.div_lt_iff_lt_mul hkpos).mpr (by rw [Nat.mul_comm]; omega)
    omega
  · rintro ⟨h1, h2⟩
    exact ⟨Nat.div_le_div_right h1, Nat.div_le_div_right (by omega)⟩

/-! ### Halves and siblings -/

theorem Aligned.upperHalf (h : Aligned (o + 1) p) : Aligned o (p + 2 ^ o) :=
  Nat.dvd_add (h.mono (Nat.le_succ o)) (dvd_refl _)

theorem covers_succ : Covers (o + 1) p q ↔ Covers o p q ∨ Covers o (p + 2 ^ o) q := by
  unfold Covers
  omega

theorem not_covers_both (h : Covers o p q) : ¬ Covers o (p + 2 ^ o) q := by
  unfold Covers at *
  omega

/-- Flipping the bit of the order moves up from the lower half and down from the upper. -/
theorem Aligned.buddyOf_eq (h : Aligned o p) :
    Aligned (o + 1) p ∧ buddyOf o p = p + 2 ^ o ∨
      Aligned (o + 1) (buddyOf o p) ∧ p = buddyOf o p + 2 ^ o := by
  obtain ⟨k, rfl⟩ := h
  have hx : buddyOf o (2 ^ o * k) = 2 ^ o * (k ^^^ 2 ^ 0) := by
    apply Nat.eq_of_testBit_eq
    intro i
    rw [buddyOf, Nat.testBit_xor, Nat.testBit_two_pow_mul, Nat.testBit_two_pow_mul,
      Nat.testBit_two_pow, Nat.testBit_xor, Nat.testBit_two_pow]
    by_cases hi : o ≤ i
    · have h0 : o = i ↔ 0 = i - o := by omega
      simp [hi, h0]
    · have he : o ≠ i := by omega
      simp [hi, he]
  rw [hx, pow_zero]
  rcases Nat.even_or_odd' k with ⟨m, rfl | rfl⟩
  · left
    rw [Nat.xor_one_of_even ⟨m, two_mul m⟩]
    exact ⟨⟨m, by ring⟩, by ring⟩
  · right
    rw [Nat.xor_one_of_odd ⟨m, rfl⟩, Nat.add_sub_cancel]
    exact ⟨⟨m, by ring⟩, by ring⟩

theorem buddyOf_buddyOf (o p : ℕ) : buddyOf o (buddyOf o p) = p :=
  Nat.xor_xor_cancel_right p (2 ^ o)

/-- The sibling of a lower half is the upper half. -/
theorem Aligned.buddyOf_lower (h : Aligned (o + 1) p) : buddyOf o p = p + 2 ^ o := by
  rcases (h.mono (Nat.le_succ o)).buddyOf_eq with ⟨-, h2⟩ | ⟨h1, h2⟩
  · exact h2
  rw [h2] at h
  have hdvd : 2 ^ (o + 1) ∣ 2 ^ o := (Nat.dvd_add_right h1).mp h
  exact absurd (Nat.le_of_dvd (Nat.two_pow_pos o) hdvd)
    (not_le.mpr (Nat.pow_lt_pow_right (by decide) (Nat.lt_succ_self o)))

theorem Aligned.buddyOf_upper (h : Aligned (o + 1) p) : buddyOf o (p + 2 ^ o) = p := by
  rw [← h.buddyOf_lower, buddyOf_buddyOf]

variable (h : Aligned o p)
include h

theorem Aligned.buddyOf : Aligned o (buddyOf o p) := by
  rcases h.buddyOf_eq with ⟨h1, h2⟩ | ⟨h1, -⟩
  · rw [h2]
    exact h1.upperHalf
  · exact h1.mono (Nat.le_succ o)

theorem Aligned.parent : Aligned (o + 1) (min p (DyadicBlock.buddyOf o p)) := by
  rcases h.buddyOf_eq with ⟨h1, h2⟩ | ⟨h1, h2⟩
  · rwa [Nat.min_eq_left (Nat.le.intro h2.symm)]
  · rwa [Nat.min_eq_right (Nat.le.intro h2.symm)]

/-- A block and its sibling together are the block one order up. -/
theorem Aligned.covers_parent :
    Covers (o + 1) (min p (DyadicBlock.buddyOf o p)) q ↔
      Covers o p q ∨ Covers o (DyadicBlock.buddyOf o p) q := by
  rcases h.buddyOf_eq with ⟨-, h2⟩ | ⟨-, h2⟩
  · rw [Nat.min_eq_left (Nat.le.intro h2.symm), covers_succ, ← h2]
  · rw [Nat.min_eq_right (Nat.le.intro h2.symm), covers_succ, ← h2, or_comm]

theorem Aligned.not_covers_buddyOf (hq : Covers o p q) :
    ¬ Covers o (DyadicBlock.buddyOf o p) q := by
  rcases h.buddyOf_eq with ⟨-, h2⟩ | ⟨-, h2⟩
  · rw [h2]
    exact not_covers_both hq
  · intro hq'
    rw [h2] at hq
    exact not_covers_both hq' hq

end DyadicBlock
