/-
Numbers and texts of the machine.

Sizes and counters are 64-bit words, modelled by their values; sums saturate or wrap as the source
has it. A text that is written to a control file is read as a list of characters.
-/
import Mathlib.Algebra.Ring.Nat

namespace Oxide

/-- Bytes in a page. -/
def PAGE_SIZE_BYTES : ℕ := 4096

/-- `u64::MAX`, where saturating sums end. -/
def U64_MAX : ℕ := 2 ^ 64 - 1

variable (a b : ℕ)

/-- `u64::saturating_add`. -/
def satAdd : ℕ := min (a + b) U64_MAX

/-- `u64::saturating_mul`. -/
def satMul : ℕ := min (a * b) U64_MAX

/-- `u64::wrapping_add`. -/
def wrapAdd : ℕ := (a + b) % 2 ^ 64

/-- `u64::wrapping_sub`. -/
def wrapSub : ℕ := (a + (2 ^ 64 - b)) % 2 ^ 64

/-- `char::is_whitespace`. -/
def isWhitespace (c : Char) : Bool :=
  let n := c.toNat
  (0x9 ≤ n && n ≤ 0xd) || n = 0x20 || n = 0x85 || n = 0xa0 || n = 0x1680 ||
    (0x2000 ≤ n && n ≤ 0x200a) || n = 0x2028 || n = 0x2029 || n = 0x202f || n = 0x205f ||
    n = 0x3000

/-- The pieces of a text between the characters that separate it. -/
def splitAtChars (sep : Char → Bool) : List Char → List (List Char)
  | [] => [[]]
  | c :: cs =>
    if sep c then [] :: splitAtChars sep cs
    else match splitAtChars sep cs with
      | [] => [[c]]
      | piece :: pieces => (c :: piece) :: pieces

theorem satAdd_eq {a b : ℕ} (h : a + b ≤ U64_MAX) : satAdd a b = a + b := min_eq_left h

end Oxide
