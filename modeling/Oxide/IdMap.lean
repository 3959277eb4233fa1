/-
Id maps: extents, their validation, and translation.

An id map is a list of extents `⟨ns_id, host_id, count⟩`, each of which sends `count` ids of a
namespace to host ids. A map is written as text, one extent a line.

* `parseExtents`: the text of one write, all or nothing;
* `validateExtents`: no empty batch, no empty extent, no range past the end of the id space, no
  two extents that meet on either side;
* `validateExtents_eq_ok_iff`: a batch is accepted exactly if it is in order;
* `validateExtents_ok`: an accepted batch is a `ValidMap`;
* `ValidMap.toHostChecked_eq_some_iff`: in an accepted map the lookup finds the one extent that
  covers an id.
-/
import Mathlib.Algebra.Ring.Nat
import Mathlib.Data.List.Basic
import Mathlib.Data.List.Pairwise
import Oxide.Word

namespace Oxide

open List

/-- `u32::checked_add`. -/
def checkedAddU32 (a b : UInt32) : Option UInt32 :=
  if a.toNat + b.toNat < 2 ^ 32 then some (a + b) else none

/-- One parsed line `<ns_id> <host_id> <count>` of a map. -/
structure IdMapExtent where
  nsId : UInt32
  hostId : UInt32
  count : UInt32
  deriving DecidableEq

variable {extents map : List IdMapExtent}

namespace IdMapExtent

variable (e : IdMapExtent)

/-- The last namespace id covered; `none` on zero count or overflow. -/
def nsLast : Option UInt32 :=
  if e.count = 0 then none else checkedAddU32 e.nsId (e.count - 1)

/-- The last host id covered; `none` on zero count or overflow. -/
def hostLast : Option UInt32 :=
  if e.count = 0 then none else checkedAddU32 e.hostId (e.count - 1)

/-- The extent covers the namespace id. -/
def Covers (id : UInt32) : Prop :=
  e.nsId.toNat ≤ id.toNat ∧ id.toNat < e.nsId.toNat + e.count.toNat

/-- The host id the extent gives to a namespace id it covers. -/
def hostOf (id : UInt32) : UInt32 := e.hostId + (id - e.nsId)

end IdMapExtent

/-- `UID_GID_MAP_MAX_EXTENTS`. -/
def UID_GID_MAP_MAX_EXTENTS : ℕ := 340

/-- `(uid_t)-1`, which names no id. -/
def INVALID_ID : UInt32 := 4294967295

inductive ExtentError
  | empty
  | tooMany
  | zeroCount
  | rangeOverflow
  | overlap
  deriving DecidableEq

/-- The two closed ranges meet. -/
def rangesIntersect (aFirst aLast bFirst bLast : UInt32) : Bool :=
  aFirst ≤ bLast && bFirst ≤ aLast

/-- The ranges of an extent already looked at: first and last namespace id, first and last host
id. -/
abbrev CommittedRange := UInt32 × UInt32 × UInt32 × UInt32

/-- The extent with these last ids meets a range already looked at. -/
def meetsCommitted (e : IdMapExtent) (nsLast hostLast : UInt32) (c : CommittedRange) : Bool :=
  rangesIntersect e.nsId nsLast c.1 c.2.1 || rangesIntersect e.hostId hostLast c.2.2.1 c.2.2.2

/-- The loop of `validate_extents` over the extents left. -/
def validateFrom (committed : List CommittedRange) : List IdMapExtent → Except ExtentError Unit
  | [] => .ok ()
  | e :: es =>
    if e.count = 0 then .error .zeroCount
    else match e.nsLast, e.hostLast with
      | some nsLast, some hostLast =>
        if committed.any (meetsCommitted e nsLast hostLast) then .error .overlap
        else validateFrom (committed ++ [(e.nsId, nsLast, e.hostId, hostLast)]) es
      | _, _ => .error .rangeOverflow

def validateExtents (extents : List IdMapExtent) : Except ExtentError Unit :=
  if extents.isEmpty then .error .empty
  else if UID_GID_MAP_MAX_EXTENTS < extents.length then .error .tooMany
  else validateFrom [] extents

/-- The host id of a namespace id, `none` where no extent covers it. -/
def toHostChecked (map : List IdMapExtent) (nsId : UInt32) : Option UInt32 :=
  map.findSome? fun e =>
    if e.nsId ≤ nsId ∧ nsId - e.nsId < e.count then some (e.hostId + (nsId - e.nsId)) else none

/-! ### The text of a write -/

/-- The bytes of one `write(2)`: how many, and the text they are if they are UTF-8. -/
structure WriteBuf where
  len : ℕ
  text : Option (List Char)

inductive VfsError
  | einval
  | eperm
  deriving DecidableEq

/-- `u8::is_ascii_whitespace`: the vertical tab is not among them. -/
def isAsciiWhitespace (c : Char) : Bool :=
  c = ' ' || c = '\t' || c = '\n' || c = '\r' || c.toNat = 0xc

/-- `str::trim`. -/
def trim (line : List Char) : List Char :=
  ((line.dropWhile isWhitespace).reverse.dropWhile isWhitespace).reverse

/-- `str::split_ascii_whitespace`: no field is empty. -/
def splitAsciiWhitespace (line : List Char) : List (List Char) :=
  (splitAtChars isAsciiWhitespace line).filter fun field => !field.isEmpty

/-- The value of decimal digits, `none` on any other character. -/
def digitsValue (acc : ℕ) : List Char → Option ℕ
  | [] => some acc
  | c :: cs =>
    if '0' ≤ c ∧ c ≤ '9' then digitsValue (10 * acc + (c.toNat - '0'.toNat)) cs else none

/-- `str::parse::<u32>`: at least one digit after an optional plus sign, and no overflow. -/
def parseU32 (field : List Char) : Except VfsError UInt32 :=
  let digits := match field with
    | '+' :: rest => rest
    | _ => field
  if digits.isEmpty then .error .einval
  else match digitsValue 0 digits with
    | some n => if n < 2 ^ 32 then .ok (UInt32.ofNat n) else .error .einval
    | none => .error .einval

/-- One line of a map; an empty line gives nothing. -/
def parseLine (line : List Char) : Except VfsError (Option IdMapExtent) :=
  let line := trim line
  if line.isEmpty then .ok none
  else match splitAsciiWhitespace line with
    | [nsField, hostField, countField] => do
      let nsId ← parseU32 nsField
      let hostId ← parseU32 hostField
      let count ← parseU32 countField
      pure (some ⟨nsId, hostId, count⟩)
    | _ => .error .einval

/-- `PAGE_SIZE` of the procfs writer. -/
def MAP_WRITE_LIMIT : ℕ := 4096

/-- The whole buffer as one batch of extents.  A carriage return at the end of a line goes with
the white space around it. -/
def parseExtents (src : WriteBuf) : Except VfsError (List IdMapExtent) :=
  if src.len = 0 ∨ MAP_WRITE_LIMIT ≤ src.len then .error .einval
  else match src.text with
    | none => .error .einval
    | some text => do
      let lines ← (splitAtChars (· = '\n') text).mapM parseLine
      let extents := lines.filterMap id
      if extents.isEmpty then .error .einval else pure extents

/-! ### What an accepted batch is -/

/-- A map `write_map` accepts: it has an extent, no extent is empty or runs past the end of the
id space, and no namespace id is covered twice. -/
structure ValidMap (extents : List IdMapExtent) : Prop where
  ne_nil : extents ≠ []
  ns_fits : ∀ e ∈ extents, e.nsId.toNat + e.count.toNat ≤ 2 ^ 32
  host_fits : ∀ e ∈ extents, e.hostId.toNat + e.count.toNat ≤ 2 ^ 32
  apart : extents.Pairwise fun a b => ∀ id, a.Covers id → ¬ b.Covers id

theorem toNat_count_pred {c : UInt32} (h : c ≠ 0) : (c - 1).toNat = c.toNat - 1 := by
  have h1 : (1 : UInt32) ≤ c := by
    have : c.toNat ≠ 0 := fun h0 => h (UInt32.toNat_inj.mp h0)
    show 1 ≤ c.toNat
    omega
  rw [UInt32.toNat_sub_of_le c 1 h1]
  rfl

/-- The last id of a range that is not empty; there is none if it overflows. -/
theorem last_eq {first count : UInt32} (h : count ≠ 0) :
    (if count = 0 then none else checkedAddU32 first (count - 1)) =
      if first.toNat + count.toNat ≤ 2 ^ 32 then some (first + (count - 1)) else none := by
  have hpos : count.toNat ≠ 0 := fun h0 => h (UInt32.toNat_inj.mp h0)
  rw [if_neg h, checkedAddU32, toNat_count_pred h]
  congr 1
  exact propext ⟨fun h => by omega, fun h => by omega⟩

/-- Two ranges that are not empty meet in an id. -/
theorem rangesIntersect_iff {f n g m : UInt32} (hn : n ≠ 0) (hm : m ≠ 0)
    (hf : f.toNat + n.toNat ≤ 2 ^ 32) (hg : g.toNat + m.toNat ≤ 2 ^ 32) :
    rangesIntersect f (f + (n - 1)) g (g + (m - 1)) = true ↔
      ∃ id : UInt32, (f.toNat ≤ id.toNat ∧ id.toNat < f.toNat + n.toNat) ∧
        g.toNat ≤ id.toNat ∧ id.toNat < g.toNat + m.toNat := by
  have hn' : n.toNat ≠ 0 := fun h0 => hn (UInt32.toNat_inj.mp h0)
  have hm' : m.toNat ≠ 0 := fun h0 => hm (UInt32.toNat_inj.mp h0)
  rw [rangesIntersect, Bool.and_eq_true_iff, decide_eq_true_iff, decide_eq_true_iff,
    UInt32.le_iff_toNat_le, UInt32.le_iff_toNat_le, UInt32.toNat_add, UInt32.toNat_add,
    toNat_count_pred hn, toNat_count_pred hm]
  refine ⟨?_, by omega⟩
  intro h
  rcases Nat.le_total f.toNat g.toNat with hle | hle
  · exact ⟨g, by omega, by omega⟩
  · exact ⟨f, by omega, by omega⟩

namespace IdMapExtent

/-- The extent read from the host's side. -/
def swap (e : IdMapExtent) : IdMapExtent := ⟨e.hostId, e.nsId, e.count⟩

/-- The extent is not empty, and ends below `bound` on both sides. -/
def Below (bound : ℕ) (e : IdMapExtent) : Prop :=
  e.count ≠ 0 ∧ e.nsId.toNat + e.count.toNat ≤ bound ∧ e.hostId.toNat + e.count.toNat ≤ bound

/-- The extents share a namespace id or a host id. -/
def Shares (a b : IdMapExtent) : Prop :=
  (∃ id, a.Covers id ∧ b.Covers id) ∨ ∃ id, a.swap.Covers id ∧ b.swap.Covers id

/-- What the loop keeps of an extent. -/
def range (e : IdMapExtent) : CommittedRange :=
  (e.nsId, e.nsId + (e.count - 1), e.hostId, e.hostId + (e.count - 1))

end IdMapExtent

/-- A batch that is in order, for ids below `bound`. -/
structure Fit (bound : ℕ) (extents : List IdMapExtent) : Prop where
  ne_nil : extents ≠ []
  length_le : extents.length ≤ UID_GID_MAP_MAX_EXTENTS
  below : ∀ e ∈ extents, e.Below bound
  apart : extents.Pairwise fun a b => ¬ b.Shares a

theorem validateFrom_eq_ok_iff {behind : List IdMapExtent} (hb : ∀ a ∈ behind, a.Below (2 ^ 32)) :
    validateFrom (behind.map IdMapExtent.range) extents = .ok () ↔
      (∀ e ∈ extents, e.Below (2 ^ 32)) ∧ (∀ a ∈ behind, ∀ e ∈ extents, ¬ e.Shares a) ∧
        extents.Pairwise fun a b => ¬ b.Shares a := by
  induction extents generalizing behind with
  | nil => simp [validateFrom]
  | cons e es ih =>
  rw [validateFrom, forall_mem_cons, pairwise_cons]
  by_cases hcount : e.count = 0
  · simp [IdMapExtent.Below, hcount]
  rw [if_neg hcount, IdMapExtent.nsLast, IdMapExtent.hostLast, last_eq hcount, last_eq hcount]
  by_cases hns : e.nsId.toNat + e.count.toNat ≤ 2 ^ 32
  swap
  · rw [if_neg hns]
    exact ⟨nofun, fun h => absurd h.1.1.2.1 hns⟩
  by_cases hhost : e.hostId.toNat + e.count.toNat ≤ 2 ^ 32
  swap
  · rw [if_pos hns, if_neg hhost]
    exact ⟨nofun, fun h => absurd h.1.1.2.2 hhost⟩
  have hbelow : e.Below (2 ^ 32) := ⟨hcount, hns, hhost⟩
  -- the test compares the extent with everything behind it
  have hany : (behind.map IdMapExtent.range).any (meetsCommitted e (e.nsId + (e.count - 1))
      (e.hostId + (e.count - 1))) = true ↔ ∃ a ∈ behind, e.Shares a := by
    rw [any_map, any_eq_true]
    refine exists_congr fun a => and_congr_right fun ha => ?_
    obtain ⟨h1, h2, h3⟩ := hb a ha
    exact Bool.or_eq_true_iff.trans (or_congr (rangesIntersect_iff hcount h1 hns h2)
      (rangesIntersect_iff hcount h1 hhost h3))
  rw [if_pos hns, if_pos hhost]
  dsimp only
  split_ifs with h
  · obtain ⟨a, ha, hshare⟩ := hany.mp h
    exact ⟨nofun, fun ⟨_, hback, _⟩ => absurd hshare (hback a ha e mem_cons_self)⟩
  have hback : ∀ a ∈ behind, ¬ e.Shares a := fun a ha hs => h (hany.mpr ⟨a, ha, hs⟩)
  have hb' : ∀ a ∈ behind ++ [e], a.Below (2 ^ 32) := by
    simpa [or_imp, forall_and] using ⟨hb, hbelow⟩
  have hih := ih hb'
  rw [map_append] at hih
  refine hih.trans ⟨fun ⟨h1, h2, h3⟩ => ?_, fun ⟨h1, h2, h3⟩ => ?_⟩
  · refine ⟨⟨hbelow, h1⟩, fun a ha => forall_mem_cons.mpr ⟨hback a ha, ?_⟩, ?_, h3⟩
    · exact h2 a (mem_append_left _ ha)
    · exact h2 e (mem_append_right _ (mem_singleton.mpr rfl))
  refine ⟨h1.2, fun a ha x hx => ?_, h3.2⟩
  rcases mem_append.mp ha with ha | ha
  · exact h2 a ha x (mem_cons_of_mem _ hx)
  · obtain rfl := mem_singleton.mp ha
    exact h3.1 x hx

/-- **A batch is accepted exactly if it is in order.** -/
theorem validateExtents_eq_ok_iff : validateExtents extents = .ok () ↔ Fit (2 ^ 32) extents := by
  have hloop := @validateFrom_eq_ok_iff extents [] nofun
  unfold validateExtents
  split
  case isTrue h => exact ⟨nofun, fun hf => absurd (isEmpty_iff.mp h) hf.ne_nil⟩
  case isFalse hne =>
  split
  case isTrue => exact ⟨nofun, fun hf => absurd hf.length_le (by omega)⟩
  case isFalse =>
  refine hloop.trans ⟨fun ⟨h1, _, h3⟩ => ?_, fun hf => ⟨hf.below, nofun, hf.apart⟩⟩
  exact ⟨fun h => hne (isEmpty_iff.mpr h), by omega, h1, h3⟩

theorem validateExtents_ok (h : validateExtents extents = .ok ()) : ValidMap extents := by
  have hf := validateExtents_eq_ok_iff.mp h
  refine ⟨hf.ne_nil, fun e he => (hf.below e he).2.1, fun e he => (hf.below e he).2.2, ?_⟩
  exact hf.apart.imp fun hs id ha hb => hs (.inl ⟨id, hb, ha⟩)

/-- The test of the lookup. -/
theorem covers_iff {e : IdMapExtent} {id : UInt32} :
    (e.nsId ≤ id ∧ id - e.nsId < e.count) ↔ e.Covers id := by
  rw [IdMapExtent.Covers, UInt32.le_iff_toNat_le, UInt32.lt_iff_toNat_lt]
  constructor
  · rintro ⟨h1, h2⟩
    rw [UInt32.toNat_sub_of_le _ _ (UInt32.le_iff_toNat_le.mpr h1)] at h2
    omega
  rintro ⟨h1, h2⟩
  rw [UInt32.toNat_sub_of_le _ _ (UInt32.le_iff_toNat_le.mpr h1)]
  omega

/-- The lookup answers from an extent that covers the id. -/
theorem exists_of_toHostChecked {id host : UInt32} (h : toHostChecked map id = some host) :
    ∃ e ∈ map, e.Covers id ∧ host = e.hostOf id := by
  obtain ⟨e, he, hh⟩ := exists_of_findSome?_eq_some h
  split at hh
  case isTrue hc => exact ⟨e, he, covers_iff.mp hc, (Option.some.inj hh).symm⟩
  · cases hh

/-- **In a valid map the lookup finds the extent that covers the id.** -/
theorem ValidMap.toHostChecked_eq_some_iff (hv : ValidMap map) {id host : UInt32} :
    toHostChecked map id = some host ↔ ∃ e ∈ map, e.Covers id ∧ host = e.hostOf id := by
  refine ⟨exists_of_toHostChecked, ?_⟩
  rintro ⟨e, he, hc, rfl⟩
  have hpair := hv.apart
  clear hv
  induction map with
  | nil => cases he
  | cons a map ih =>
  rw [toHostChecked, List.findSome?_cons]
  rcases mem_cons.mp he with rfl | he'
  · rw [if_pos (covers_iff.mpr hc)]
    rfl
  -- an extent before `e` does not cover the id
  have ha : ¬ a.Covers id := fun ha => (pairwise_cons.mp hpair).1 e he' id ha hc
  rw [if_neg fun h => ha (covers_iff.mp h)]
  exact ih he' (pairwise_cons.mp hpair).2

end Oxide
