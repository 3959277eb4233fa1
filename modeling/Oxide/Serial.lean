/-
Serial numbers: clocks and sequence numbers that wrap around.

Two numbers of `w` bits are compared by the sign of their difference. The comparison is an order
only between numbers in one half of the circle, which `InHalf` says of a base point.

* `dist_eq_of_inHalf`: within a half the signed difference is the difference of the offsets from
  its base;
* `before_iff_of_inHalf`: and the comparison is that of the offsets;
* `toNat_eq_base_add_offset`: a number from its offset, by where the circle was cut.
-/
import Mathlib.Algebra.Ring.Nat
import Mathlib.Data.Int.Basic

namespace Serial

open BitVec

variable {w : ℕ}

/-- The signed difference from `a` to `b`. -/
def dist (a b : BitVec w) : Int := (b - a).toInt

/-- `a` comes before `b`: their difference has its sign bit set. -/
def before (a b : BitVec w) : Bool := (a - b).toInt < 0

/-- `x` is in the half of the circle that starts at `base`. -/
def InHalf (base x : BitVec w) : Prop := (x - base).toNat < 2 ^ (w - 1)

instance (base x : BitVec w) : Decidable (InHalf base x) :=
  inferInstanceAs (Decidable (_ < _))

variable {base a b : BitVec w}

theorem toInt_eq_toNat_of_lt {x : BitVec w} (h : x.toNat < 2 ^ (w - 1)) : x.toInt = x.toNat := by
  cases w with
  | zero =>
    rw [eq_nil x]
    rfl
  | succ n =>
  rw [toInt_eq_toNat_of_lt]
  have h' : x.toNat < 2 ^ n := h
  omega

/-- A difference of two numbers is the difference of their offsets from any base. -/
theorem sub_eq_offset_sub (base a b : BitVec w) : b - a = (b - base) - (a - base) := by
  grind

/-- **Within a half the signed difference is the difference of the offsets.** -/
theorem dist_eq_of_inHalf (ha : InHalf base a) (hb : InHalf base b) :
    dist a b = ((b - base).toNat : Int) - (a - base).toNat := by
  unfold dist InHalf at *
  rw [sub_eq_offset_sub base a b, toInt_sub, toInt_eq_toNat_of_lt ha, toInt_eq_toNat_of_lt hb]
  cases w with
  | zero =>
    rw [eq_nil (b - base), eq_nil (a - base)]
    rfl
  | succ n =>
  have ha' : (a - base).toNat < 2 ^ n := ha
  have hb' : (b - base).toNat < 2 ^ n := hb
  exact Int.bmod_eq_of_le (by omega) (by omega)

theorem before_iff_of_inHalf (ha : InHalf base a) (hb : InHalf base b) :
    before a b = true ↔ (a - base).toNat < (b - base).toNat := by
  have h : (a - b).toInt = dist b a := rfl
  rw [before, decide_eq_true_iff, h, dist_eq_of_inHalf hb ha]
  omega

/-- The base of a half comes before what is ahead of it, and after nothing. -/
theorem before_of_inHalf (h : InHalf base a) :
    (before base a = true ↔ 0 < (a - base).toNat) ∧ before a base = false := by
  have hself : InHalf base base := by
    rw [InHalf, BitVec.sub_self]
    exact Nat.two_pow_pos _
  rw [← Bool.not_eq_true, before_iff_of_inHalf hself h, before_iff_of_inHalf h hself,
    BitVec.sub_self]
  exact ⟨Iff.rfl, Nat.not_lt_zero _⟩

/-- A number is its base and its offset, up to one turn of the circle. -/
theorem toNat_eq_base_add_offset (base a : BitVec w) :
    a.toNat = base.toNat + (a - base).toNat ∨ a.toNat + 2 ^ w = base.toNat + (a - base).toNat := by
  rw [toNat_sub]
  rcases Nat.lt_or_ge a.toNat base.toNat with h | h
  · rw [Nat.mod_eq_of_lt (by omega)]
    omega
  · have : 2 ^ w - base.toNat + a.toNat = 2 ^ w + (a.toNat - base.toNat) := by omega
    rw [this, Nat.add_mod_left, Nat.mod_eq_of_lt (by omega)]
    omega

end Serial
