/-
The allocation table of a FAT volume.

A table is a string of bytes. Entries are 12, 16 or 32 bits apart, and carry 12, 16 or 28 bits: at
the narrowest width two entries share a byte, at the widest the top four bits belong to nobody.
As a string of bits the table is regular at every width, and a write of one entry changes exactly
the bits the entry carries.

* `Fat.resolve`: the layout of a volume from its boot sector;
* `Fat.readEntry`, `Fat.writeEntry`: one entry, as the code forms it from bytes;
* `Fat.rawValue_testBit`, `Fat.writeEntry_written`: the same in bits;
* `Fat.Written`: what a write leaves, with `Written.raw_other` for every other entry.
-/
import Oxide.ByteBits

namespace Oxide.Fat

open ByteBits BitVec

/-! ### Layout -/

/-- The three widths of a table. -/
inductive FatWidth
  | fat12
  | fat16
  | fat32
  deriving DecidableEq

namespace FatWidth

/-- How far entries are apart, in bits. -/
def bits : FatWidth → ℕ
  | .fat12 => 12
  | .fat16 => 16
  | .fat32 => 32

/-- How many bits an entry carries. -/
def carried : FatWidth → ℕ
  | .fat12 => 12
  | .fat16 => 16
  | .fat32 => 28

def maxClusters : FatWidth → ℕ
  | .fat12 => 0xFF4
  | .fat16 => 0xFFF4
  | .fat32 => 0xFFFFFF6

/-- The first value that names no cluster. -/
def badMark : FatWidth → ℕ
  | .fat12 => 0xFF7
  | .fat16 => 0xFFF7
  | .fat32 => 0xFFFFFF7

def entryMask : FatWidth → ℕ
  | .fat12 => 0xFFF
  | .fat16 => 0xFFFF
  | .fat32 => 0xFFFFFFF

/-- The value written at the end of a chain. -/
def endMark : FatWidth → ℕ
  | .fat12 => 0xFFF
  | .fat16 => 0xFFFF
  | .fat32 => 0xFFFFFFF

theorem entryMask_eq (w : FatWidth) : w.entryMask = 2 ^ w.carried - 1 := by
  cases w <;> rfl

theorem carried_le (w : FatWidth) : w.carried ≤ w.bits := by
  cases w <;> decide

end FatWidth

/-- The first data cluster. -/
def FAT_START_ENT : ℕ := 2

/-- The fields of a boot sector that the layout is derived from. -/
structure Bpb where
  sectorSize : ℕ
  secPerClus : ℕ
  reserved : ℕ
  fats : ℕ
  dirEntries : ℕ
  fatLength16 : ℕ
  fatLength32 : ℕ
  totalSect16 : ℕ
  totalSect32 : ℕ
  rootCluster : ℕ

namespace Bpb

def fatLength (b : Bpb) : ℕ := if b.fatLength16 ≠ 0 then b.fatLength16 else b.fatLength32

def totalSectors (b : Bpb) : ℕ := if b.totalSect16 ≠ 0 then b.totalSect16 else b.totalSect32

def declaresFat32 (b : Bpb) : Bool := b.fatLength16 = 0 ∧ b.fatLength32 ≠ 0

def dirPerSector (b : Bpb) : ℕ := b.sectorSize / 32

end Bpb

/-- Where everything on the volume lives.  Cluster numbers have 32 bits. -/
structure Geometry where
  width : FatWidth
  sectorSize : ℕ
  secPerClus : ℕ
  fatStart : ℕ
  fatLength : ℕ
  dirStart : ℕ
  dirEntries : ℕ
  dataStart : ℕ
  totalClusters : ℕ
  /-- One past the last cluster. -/
  maxCluster : ℕ
  rootCluster : ℕ
  max_lt : maxCluster < 2 ^ 32

/-- Why a boot sector is refused. -/
inductive GeometryError
  | badRootEntries
  | dataBeyondVolume
  | tooManyClusters
  deriving DecidableEq

/-- The entries a table of `fatLength` sectors can hold. -/
def fatEntries (w : FatWidth) (sectorSize fatLength : ℕ) : ℕ :=
  if w = .fat12 then fatLength * sectorSize * 8 / w.bits
  else sectorSize * 8 / w.bits * fatLength

/-- The width is declared on FAT32 only; else the number of clusters decides. -/
def resolveWidth (b : Bpb) (clusters : ℕ) : FatWidth :=
  if b.declaresFat32 then .fat32
  else if clusters > FatWidth.fat12.maxClusters then .fat16
  else .fat12

theorem max_lt_of_le {w : FatWidth} {total : ℕ} (h : ¬ total > w.maxClusters) :
    total + FAT_START_ENT < 2 ^ 32 := by
  have hw : w.maxClusters ≤ 0xFFFFFF6 := by cases w <;> decide
  unfold FAT_START_ENT
  omega

/-- The layout of a volume. -/
def resolve (b : Bpb) : Except GeometryError Geometry :=
  if b.dirPerSector = 0 ∨ b.dirEntries % b.dirPerSector ≠ 0 then .error .badRootEntries
  else
    let dirStart := (b.reserved + b.fats * b.fatLength) % 2 ^ 32
    let dataStart := (dirStart + b.dirEntries * 32 / b.sectorSize) % 2 ^ 32
    if b.totalSectors < dataStart then .error .dataBeyondVolume
    else
      let clusters := (b.totalSectors - dataStart) / b.secPerClus
      let width := resolveWidth b clusters
      let total := min clusters (fatEntries width b.sectorSize b.fatLength - FAT_START_ENT)
      if h : total > width.maxClusters then .error .tooManyClusters
      else .ok ⟨width, b.sectorSize, b.secPerClus, b.reserved, b.fatLength, dirStart, b.dirEntries,
        dataStart, total, total + FAT_START_ENT, b.rootCluster, max_lt_of_le h⟩

namespace Geometry

variable (geo : Geometry)

/-- The volume has this cluster. -/
def validEntry (cluster : ℕ) : Bool := FAT_START_ENT ≤ cluster ∧ cluster < geo.maxCluster

end Geometry

/-! ### Entries -/

/-- What an entry says. -/
inductive Link
  | free
  | next (cluster : ℕ)
  | ends
  deriving DecidableEq

/-- What a raw entry says. -/
def classify (w : FatWidth) (raw : ℕ) : Link :=
  if raw = 0 then .free else if raw ≥ w.badMark then .ends else .next raw

/-- The byte an entry begins in. -/
def entryOffset : FatWidth → ℕ → ℕ
  | .fat12, n => n + n / 2
  | .fat16, n => n * 2
  | .fat32, n => n * 4

/-- How many bytes the code touches for an entry. -/
def entryBytes : FatWidth → ℕ
  | .fat12 => 2
  | .fat16 => 2
  | .fat32 => 4

/-- The table is long enough to hold the entry. -/
def Holds (w : FatWidth) (t : Bytes) (n : ℕ) : Prop := entryOffset w n + entryBytes w ≤ t.length

instance (w : FatWidth) (t : Bytes) (n : ℕ) : Decidable (Holds w t n) := Nat.decLe _ _

/-- The bits of an entry, before they are taken apart. -/
def rawValue (w : FatWidth) (t : Bytes) (n : ℕ) : ℕ :=
  (match w with
    | .fat12 =>
      let pair := (le16 t (entryOffset w n)).toNat
      if n % 2 = 0 then pair &&& 0xFFF else pair >>> 4
    | .fat16 => (le16 t (entryOffset w n)).toNat
    | .fat32 => (le32 t (entryOffset w n)).toNat) &&& w.entryMask

def readRaw (w : FatWidth) (t : Bytes) (n : ℕ) : Option ℕ :=
  if Holds w t n then some (rawValue w t n) else none

/-- One entry, as a link. -/
def readEntry (w : FatWidth) (t : Bytes) (n : ℕ) : Option Link := (readRaw w t n).map (classify w)

/-- A twelve-bit entry keeps the nibble of its neighbour, one of thirty-two bits its top four. -/
def merged12 (n : ℕ) (pair value : BitVec 16) : BitVec 16 :=
  if n % 2 = 0 then (pair &&& 0xF000#16) ||| (value &&& 0x0FFF#16)
  else (pair &&& 0x000F#16) ||| ((value &&& 0x0FFF#16) <<< 4)

def merged32 (existing value : BitVec 32) : BitVec 32 := (existing &&& 0xF0000000#32) ||| value

/-- Nothing is returned for an I/O error: the entry is not in the table. -/
def writeEntry (w : FatWidth) (t : Bytes) (n value : ℕ) : Option Bytes :=
  if Holds w t n then
    let at_ := entryOffset w n
    let value := value &&& w.entryMask
    some (match w with
      | .fat12 => put16 t at_ (merged12 n (le16 t at_) (BitVec.ofNat 16 value))
      | .fat16 => put16 t at_ (BitVec.ofNat 16 value)
      | .fat32 => put32 t at_ (merged32 (le32 t at_) (BitVec.ofNat 32 value)))
  else none

/-! ### The same in bits -/

variable {w : FatWidth} {t t' : Bytes} {n m v b k : ℕ}

/-- The bit is one of those the entry carries. -/
def InEntry (w : FatWidth) (n b : ℕ) : Prop := w.bits * n ≤ b ∧ b < w.bits * n + w.carried

instance (w : FatWidth) (n b : ℕ) : Decidable (InEntry w n b) := instDecidableAnd

/-- Two entries carry no bit together. -/
theorem InEntry.unique (h : InEntry w n b) (h' : InEntry w m b) : n = m := by
  have hle := w.carried_le
  obtain ⟨h1, h2⟩ := h
  obtain ⟨h3, h4⟩ := h'
  by_contra hne
  rcases Nat.lt_or_gt_of_ne hne with hlt | hlt
  · have hmul : w.bits * (n + 1) ≤ w.bits * m := Nat.mul_le_mul_left _ hlt
    rw [Nat.mul_succ] at hmul
    omega
  · have hmul : w.bits * (m + 1) ≤ w.bits * n := Nat.mul_le_mul_left _ hlt
    rw [Nat.mul_succ] at hmul
    omega

theorem testBit_and_mask (w : FatWidth) (x k : ℕ) :
    (x &&& w.entryMask).testBit k = (decide (k < w.carried) && x.testBit k) := by
  rw [Nat.testBit_and, w.entryMask_eq, Nat.testBit_two_pow_sub_one, Bool.and_comm]

theorem testBit_toNat {l : ℕ} (x : BitVec l) (k : ℕ) : x.toNat.testBit k = x.getLsbD k := rfl

/-- Reading an entry reads its bits. -/
theorem rawValue_testBit (w : FatWidth) (t : Bytes) (n k : ℕ) :
    (rawValue w t n).testBit k = (decide (k < w.carried) && bit t (w.bits * n + k)) := by
  unfold rawValue
  rw [testBit_and_mask]
  by_cases hk : k < w.carried
  · rw [decide_eq_true hk]
    cases w with
    | fat12 =>
      have hk : k < 12 := hk
      show (if n % 2 = 0 then _ else _ : ℕ).testBit k = bit t (12 * n + k)
      by_cases hn : n % 2 = 0
      · rw [if_pos hn, Nat.testBit_and, testBit_toNat, getLsbD_le16 t _ (by omega)]
        have hmask : (0xFFF : ℕ).testBit k = true := by
          rw [show (0xFFF : ℕ) = 2 ^ 12 - 1 from rfl, Nat.testBit_two_pow_sub_one]
          exact decide_eq_true hk
        have hpos : 8 * entryOffset .fat12 n + k = 12 * n + k := by
          show 8 * (n + n / 2) + k = _
          omega
        rw [hmask, Bool.and_true, hpos]
      rw [if_neg hn, Nat.testBit_shiftRight, testBit_toNat, getLsbD_le16 t _ (by omega)]
      have hpos : 8 * entryOffset .fat12 n + (4 + k) = 12 * n + k := by
        show 8 * (n + n / 2) + (4 + k) = _
        omega
      rw [hpos]
    | fat16 =>
      show (le16 t (n * 2)).toNat.testBit k = bit t (16 * n + k)
      rw [testBit_toNat, getLsbD_le16 t _ hk]
      congr 1
      omega
    | fat32 =>
    have hk : k < 28 := hk
    show (le32 t (n * 4)).toNat.testBit k = bit t (32 * n + k)
    rw [testBit_toNat, getLsbD_le32 t _ (by omega)]
    congr 1
    omega
  · rw [decide_eq_false hk, Bool.false_and, Bool.false_and]

/-- A constant with its top four bits set, or its low bits. -/
theorem getLsbD_mask12 (hk : k < 16) : (0x0FFF#16).getLsbD k = decide (k < 12) ∧
    (0xF000#16).getLsbD k = decide (¬ k < 12) ∧ (0x000F#16).getLsbD k = decide (k < 4) := by
  revert k
  decide

theorem getLsbD_mask32 (hk : k < 32) : (0xF0000000#32).getLsbD k = decide (¬ k < 28) := by
  revert k
  decide

theorem merged12_bit (n : ℕ) (pair : BitVec 16) (hk : k < 16) :
    (merged12 n pair (BitVec.ofNat 16 v)).getLsbD k =
      if n % 2 = 0 then if k < 12 then v.testBit k else pair.getLsbD k
      else if k < 4 then pair.getLsbD k else v.testBit (k - 4) := by
  obtain ⟨h1, h2, h3⟩ := getLsbD_mask12 hk
  unfold merged12
  split
  · rw [getLsbD_or, getLsbD_and, getLsbD_and, h1, h2, getLsbD_ofNat, decide_eq_true hk]
    by_cases hk12 : k < 12
    · simp [hk12]
    · simp [hk12]
  rw [getLsbD_or, getLsbD_and, h3, getLsbD_shiftLeft, getLsbD_and,
    getLsbD_ofNat, (getLsbD_mask12 (by omega : k - 4 < 16)).1]
  by_cases hk4 : k < 4
  · simp [hk4]
  · have hk12 : k - 4 < 12 := by omega
    simp [hk4, hk, hk12, show k - 4 < 16 by omega]

theorem merged32_bit (existing : BitVec 32) (hv : v < 2 ^ 28) (hk : k < 32) :
    (merged32 existing (BitVec.ofNat 32 v)).getLsbD k =
      if k < 28 then v.testBit k else existing.getLsbD k := by
  rw [merged32, getLsbD_or, getLsbD_and, getLsbD_mask32 hk, getLsbD_ofNat, decide_eq_true hk]
  by_cases hk28 : k < 28
  · simp [hk28]
  · have hzero : v.testBit k = false :=
      Nat.testBit_lt_two_pow (hv.trans_le (Nat.pow_le_pow_right (by decide) (by omega)))
    simp [hk28, hzero]

/-- What writing an entry leaves: its own bits are the value's, all others are what they were. -/
structure Written (w : FatWidth) (t t' : Bytes) (n v : ℕ) : Prop where
  length : t'.length = t.length
  bit : ∀ b, ByteBits.bit t' b =
    if InEntry w n b then v.testBit (b - w.bits * n) else ByteBits.bit t b

/-- **Writing an entry writes its bits**, shared nibbles and reserved bits apart. -/
theorem writeEntry_written (h : Holds w t n) (v : ℕ) :
    ∃ t', writeEntry w t n v = some t' ∧ Written w t t' n v := by
  rw [writeEntry, if_pos h]
  refine ⟨_, rfl, ?_⟩
  -- only the bits that are carried count
  have hval : ∀ b, InEntry w n b →
      (v &&& w.entryMask).testBit (b - w.bits * n) = v.testBit (b - w.bits * n) := by
    intro b hb
    rw [testBit_and_mask, decide_eq_true (by obtain ⟨h1, h2⟩ := hb; omega), Bool.true_and]
  have hlt : v &&& w.entryMask < 2 ^ w.carried := by
    rw [w.entryMask_eq, Nat.and_two_pow_sub_one_eq_mod]
    exact Nat.mod_lt _ (Nat.two_pow_pos _)
  generalize v &&& w.entryMask = x at hval hlt
  unfold Holds at h
  cases w with
  | fat12 =>
    have hlen : n + n / 2 + 1 < t.length := by
      simp only [entryOffset, entryBytes] at h
      omega
    refine ⟨length_put16 .., fun b => ?_⟩
    show ByteBits.bit (put16 t (n + n / 2) (merged12 n (le16 t (n + n / 2)) (BitVec.ofNat 16 x))) b
      = _
    rw [bit_put16 hlen]
    by_cases hin : InEntry .fat12 n b
    · have hv := hval b hin
      have hb : 12 * n ≤ b ∧ b < 12 * n + 12 := hin
      rw [if_pos (by omega), if_pos hin, ← hv, merged12_bit n _ (by omega)]
      show _ = x.testBit (b - 12 * n)
      by_cases hn : n % 2 = 0
      · rw [if_pos hn, if_pos (by omega)]
        congr 1
        omega
      · rw [if_neg hn, if_neg (by omega)]
        congr 1
        omega
    have hout : ¬ (12 * n ≤ b ∧ b < 12 * n + 12) := hin
    split
    · rw [merged12_bit n _ (by omega)]
      have hback : (le16 t (n + n / 2)).getLsbD (b - 8 * (n + n / 2)) = ByteBits.bit t b := by
        rw [getLsbD_le16 t _ (by omega)]
        congr 1
        omega
      by_cases hn : n % 2 = 0
      · rw [if_pos hn, if_neg (by omega), hback]
      · rw [if_neg hn, if_pos (by omega), hback]
    · rfl
  | fat16 =>
    have hlen : n * 2 + 1 < t.length := by
      simp only [entryOffset, entryBytes] at h
      omega
    refine ⟨length_put16 .., fun b => ?_⟩
    show ByteBits.bit (put16 t (n * 2) (BitVec.ofNat 16 x)) b = _
    rw [bit_put16 hlen]
    have hiff : 8 * (n * 2) ≤ b ∧ b < 8 * (n * 2) + 16 ↔ InEntry .fat16 n b := by
      show _ ↔ 16 * n ≤ b ∧ b < 16 * n + 16
      omega
    by_cases hin : InEntry .fat16 n b
    · rw [if_pos (hiff.mpr hin), if_pos hin, ← hval b hin, BitVec.getLsbD_ofNat]
      have hb : 16 * n ≤ b ∧ b < 16 * n + 16 := hin
      have hpos : b - 8 * (n * 2) = b - FatWidth.bits .fat16 * n := by
        show _ = b - 16 * n
        omega
      rw [decide_eq_true (by omega), Bool.true_and, hpos]
    · rw [if_neg (fun hh => hin (hiff.mp hh)), if_neg hin]
  | fat32 =>
  have hlen : n * 4 + 3 < t.length := by
    simp only [entryOffset, entryBytes] at h
    omega
  refine ⟨(length_put16 ..).trans (length_put16 ..), fun b => ?_⟩
  show ByteBits.bit (put32 t (n * 4) (merged32 (le32 t (n * 4)) (BitVec.ofNat 32 x))) b = _
  rw [bit_put32 hlen]
  by_cases hin : InEntry .fat32 n b
  · have hv := hval b hin
    have hb : 32 * n ≤ b ∧ b < 32 * n + 28 := hin
    rw [if_pos (by omega), if_pos hin, ← hv, merged32_bit _ hlt (by omega), if_pos (by omega)]
    show _ = x.testBit (b - 32 * n)
    congr 1
    omega
  have hout : ¬ (32 * n ≤ b ∧ b < 32 * n + 28) := hin
  split
  · rw [merged32_bit _ hlt (by omega), if_neg (by omega), getLsbD_le32 t _ (by omega)]
    congr 1
    omega
  · rfl

/-- The entry has the value, as far as it carries it. -/
theorem Written.raw_self (h : Written w t t' n v) : rawValue w t' n = v % 2 ^ w.carried := by
  refine Nat.eq_of_testBit_eq fun k => ?_
  rw [rawValue_testBit, h.bit, Nat.testBit_mod_two_pow]
  by_cases hk : k < w.carried
  · rw [if_pos ⟨Nat.le_add_right _ _, by omega⟩, Nat.add_sub_cancel_left]
  · rw [decide_eq_false hk, Bool.false_and, Bool.false_and]

/-- An entry is what its bits are. -/
theorem rawValue_congr (h : ∀ b, InEntry w n b → bit t' b = bit t b) :
    rawValue w t' n = rawValue w t n := by
  refine Nat.eq_of_testBit_eq fun k => ?_
  rw [rawValue_testBit, rawValue_testBit]
  by_cases hk : k < w.carried
  · rw [h _ ⟨Nat.le_add_right _ _, by omega⟩]
  · rw [decide_eq_false hk, Bool.false_and, Bool.false_and]

/-- Every other entry is what it was. -/
theorem Written.raw_other (h : Written w t t' n v) (hm : m ≠ n) :
    rawValue w t' m = rawValue w t m := by
  refine rawValue_congr fun b hin => ?_
  rw [h.bit, if_neg fun hn => hm (hin.unique hn)]

theorem readEntry_congr (hlen : t'.length = t.length) (hraw : rawValue w t' n = rawValue w t n) :
    readEntry w t' n = readEntry w t n := by
  have hholds : Holds w t' n ↔ Holds w t n := by
    unfold Holds
    rw [hlen]
  unfold readEntry readRaw
  simp only [hholds, hraw]

theorem Written.holds (h : Written w t t' n v) : Holds w t' m ↔ Holds w t m := by
  unfold Holds
  rw [h.length]

end Oxide.Fat
