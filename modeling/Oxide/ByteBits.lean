/-
Byte strings, addressed by bits.

A list of bytes is read as one string of bits, the low bit of each byte first. Words are
little-endian, so that a word at a byte is a stretch of that string.

* `ByteBits.bit`: one bit of the string, with `ByteBits.ext_bit`;
* `ByteBits.le16`, `ByteBits.le32`: the words at a byte, with their bits and their values;
* `ByteBits.put16`, `ByteBits.put32`: a word is written; exactly its bits change.
-/
import Mathlib.Data.List.Basic
import Mathlib.Data.Nat.Bitwise

namespace ByteBits

open BitVec

/-- A string of bytes. -/
abbrev Bytes := List (BitVec 8)

variable {t t' : Bytes} {i k b : ℕ}

/-- One bit; beyond the end there are zeros. -/
def bit (t : Bytes) (b : ℕ) : Bool := (t.getD (b / 8) 0).getLsbD (b % 8)

theorem bit_byte (t : Bytes) (i : ℕ) (hk : k < 8) : bit t (8 * i + k) = (t.getD i 0).getLsbD k := by
  have hdiv : (8 * i + k) / 8 = i := by omega
  have hmod : (8 * i + k) % 8 = k := by omega
  rw [bit, hdiv, hmod]

/-- Strings of the same length with the same bits are equal. -/
theorem ext_bit (hlen : t.length = t'.length) (hbit : ∀ b, bit t b = bit t' b) : t = t' := by
  refine List.ext_getElem hlen fun i hi hi' => ?_
  refine eq_of_getLsbD_eq fun k hk => ?_
  have h := hbit (8 * i + k)
  rw [bit_byte t i hk, bit_byte t' i hk, List.getD_eq_getElem _ _ hi,
    List.getD_eq_getElem _ _ hi'] at h
  exact h

theorem bit_set (hi : i < t.length) (v : BitVec 8) (b : ℕ) :
    bit (t.set i v) b = if b / 8 = i then v.getLsbD (b % 8) else bit t b := by
  unfold bit
  rw [List.getD_eq_getElem?_getD, List.getElem?_set]
  by_cases h : b / 8 = i
  · rw [if_pos h.symm, if_pos h, if_pos hi]
    rfl
  · rw [if_neg (Ne.symm h), if_neg h, List.getD_eq_getElem?_getD]

/-! ### Words of two bytes -/

/-- The word at a byte. -/
def le16 (t : Bytes) (i : ℕ) : BitVec 16 := t.getD (i + 1) 0 ++ t.getD i 0

/-- A word is written at a byte. -/
def put16 (t : Bytes) (i : ℕ) (v : BitVec 16) : Bytes :=
  (t.set i (v.setWidth 8)).set (i + 1) ((v >>> 8).setWidth 8)

theorem toNat_le16 (t : Bytes) (i : ℕ) :
    (le16 t i).toNat = (t.getD i 0).toNat + 256 * (t.getD (i + 1) 0).toNat := by
  rw [le16, toNat_append, ← Nat.shiftLeft_add_eq_or_of_lt (t.getD i 0).isLt, Nat.shiftLeft_eq]
  omega

theorem getLsbD_le16 (t : Bytes) (i : ℕ) (hk : k < 16) :
    (le16 t i).getLsbD k = bit t (8 * i + k) := by
  rw [le16, getLsbD_append]
  by_cases h : k < 8
  · rw [if_pos h, bit_byte t i h]
  rw [if_neg h]
  have hb := bit_byte t (i + 1) (k := k - 8) (by omega)
  have he : 8 * (i + 1) + (k - 8) = 8 * i + k := by omega
  rw [← hb, he]

theorem length_put16 (t : Bytes) (i : ℕ) (v : BitVec 16) : (put16 t i v).length = t.length := by
  rw [put16, List.length_set, List.length_set]

theorem bit_put16 (hi : i + 1 < t.length) (v : BitVec 16) (b : ℕ) :
    bit (put16 t i v) b =
      if 8 * i ≤ b ∧ b < 8 * i + 16 then v.getLsbD (b - 8 * i) else bit t b := by
  rw [put16, bit_set (by rwa [List.length_set]), bit_set (by omega)]
  by_cases h1 : b / 8 = i + 1
  · have he : b - 8 * i = 8 + b % 8 := by omega
    rw [if_pos h1, if_pos (by omega), he, getLsbD_setWidth, getLsbD_ushiftRight,
      decide_eq_true (Nat.mod_lt b (by decide)), Bool.true_and]
  rw [if_neg h1]
  by_cases h0 : b / 8 = i
  · have he : b - 8 * i = b % 8 := by omega
    rw [if_pos h0, if_pos (by omega), he, getLsbD_setWidth,
      decide_eq_true (Nat.mod_lt b (by decide)), Bool.true_and]
  · rw [if_neg h0, if_neg (by omega)]

/-! ### Words of four bytes -/

/-- The double word at a byte. -/
def le32 (t : Bytes) (i : ℕ) : BitVec 32 := le16 t (i + 2) ++ le16 t i

/-- A double word is written at a byte. -/
def put32 (t : Bytes) (i : ℕ) (v : BitVec 32) : Bytes :=
  put16 (put16 t i (v.setWidth 16)) (i + 2) ((v >>> 16).setWidth 16)

theorem toNat_le32 (t : Bytes) (i : ℕ) :
    (le32 t i).toNat = (le16 t i).toNat + 65536 * (le16 t (i + 2)).toNat := by
  rw [le32, toNat_append, ← Nat.shiftLeft_add_eq_or_of_lt (le16 t i).isLt, Nat.shiftLeft_eq]
  omega

theorem getLsbD_le32 (t : Bytes) (i : ℕ) (hk : k < 32) :
    (le32 t i).getLsbD k = bit t (8 * i + k) := by
  rw [le32, getLsbD_append]
  by_cases h : k < 16
  · rw [if_pos h, getLsbD_le16 t i h]
  · rw [if_neg h, getLsbD_le16 t (i + 2) (by omega)]
    congr 1
    omega

theorem bit_put32 (hi : i + 3 < t.length) (v : BitVec 32) (b : ℕ) :
    bit (put32 t i v) b =
      if 8 * i ≤ b ∧ b < 8 * i + 32 then v.getLsbD (b - 8 * i) else bit t b := by
  rw [put32, bit_put16 (by rw [length_put16]; omega), bit_put16 (by omega)]
  by_cases h1 : 8 * (i + 2) ≤ b ∧ b < 8 * (i + 2) + 16
  · have he : b - 8 * i = 16 + (b - 8 * (i + 2)) := by omega
    rw [if_pos h1, if_pos (by omega), he, getLsbD_setWidth, getLsbD_ushiftRight,
      decide_eq_true (by omega), Bool.true_and]
  rw [if_neg h1]
  by_cases h0 : 8 * i ≤ b ∧ b < 8 * i + 16
  · rw [if_pos h0, if_pos (by omega), getLsbD_setWidth, decide_eq_true (by omega), Bool.true_and]
  · rw [if_neg h0, if_neg (by omega)]

end ByteBits
