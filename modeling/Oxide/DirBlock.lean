/-
Directory blocks of ext4, and what their operations make of any bytes.

A block is a chain of records, each giving the offset of the next. The lookups decode a record
before they use it; the insertion and the removal read the header words themselves. A slice out of
range and a difference below zero are the outcome `Stop.panic`, which leaves no block; any other
outcome, an error included, comes with the block as it is afterwards.

* `Visits`: what an operation does at a record, by what `nextEntry` says of it;
* `Visits.walk_reached`: a walk comes to the records that it passes;
* `Visits.survives_iff`: a walk is safe unless it comes to a record that it misreads;
* `dirOps_survive_iff`: **the four operations on any bytes.**
-/
import Mathlib.Algebra.Ring.Nat
import Oxide.ByteBits

namespace Oxide.Ext4

open ByteBits

/-- The errors of the decoding, the insertion and the removal. -/
inductive DirError
  | short
  | badRecLen
  | overrun
  | badNameLen
  | full
  | notFound
deriving DecidableEq

/-- Why a call did not return; `stuck` is a walk that does not end. -/
inductive Stop
  | panic
  | stuck
deriving DecidableEq

/-- A decoded record. -/
structure DirEntry where
  inode : ℕ
  recLen : ℕ
  fileType : BitVec 8
  name : Bytes
deriving DecidableEq

/-- A call on a block: what it returns, and the block afterwards. -/
abbrev Call (α : Type) := Except Stop (α × Bytes)

/-- What one turn of a loop comes to: the next offset, or what the call returns. -/
abbrev Turn (α : Type) := ℕ ⊕ Except DirError α

/-! ### The operations -/

section

variable (buf : Bytes) (off : ℕ)
variable (name : Bytes)

/-- The inode word of the record at an offset. -/
def inodeAt : ℕ := (le32 buf off).toNat

/-- Its length word. -/
def recLenAt : ℕ := (le16 buf (off + 4)).toNat

/-- The length of its name. -/
def nameLenAt : ℕ := (buf.getD (off + 6) 0).toNat

/-- A slice of the bytes. -/
def slice (i n : ℕ) : Bytes := (buf.drop i).take n

/-- `copy_from_slice` at an offset. -/
def splice (i : ℕ) (new : Bytes) : Bytes := buf.take i ++ new ++ buf.drop (i + new.length)

/-- `to_le_bytes` of a word. -/
def toLe16 (n : ℕ) : Bytes := [BitVec.ofNat 8 n, BitVec.ofNat 8 (n / 256)]

/-- `to_le_bytes` of a double word. -/
def toLe32 (n : ℕ) : Bytes := toLe16 n ++ toLe16 (n / 65536)

/-- The record at an offset, and the offset of the next. -/
def nextEntry : Except DirError (DirEntry × ℕ) :=
  let recLen := recLenAt buf off
  let nameLen := nameLenAt buf off
  if off + 8 > buf.length then .error .short
  else if recLen < 8 ∨ recLen % 4 ≠ 0 then .error .badRecLen
  else if off + recLen > buf.length then .error .overrun
  else if nameLen > recLen - 8 then .error .badNameLen
  else .ok (⟨inodeAt buf off, recLen, buf.getD (off + 7) 0, slice buf (off + 8) nameLen⟩,
    off + recLen)

/-- The loops `while off < buf.len()`. -/
def walk {α : Type} (done : Except DirError α)
    (visit : Option ℕ → ℕ → Bytes → Call (Turn α)) :
    ℕ → Option ℕ → ℕ → Bytes → Call (Except DirError α)
  | 0, _, _, _ => .error .stuck
  | fuel + 1, prev, off, buf =>
    if off < buf.length then
      match visit prev off buf with
      | .error s => .error s
      | .ok (.inr r, buf') => .ok (r, buf')
      | .ok (.inl next, buf') => walk done visit fuel (some off) next buf'
    else .ok (done, buf)

/-- How the insertion and the removal read a record: the header words, then a check of its
length. -/
def framed {α : Type} (rest : Call (Turn α)) : Call (Turn α) :=
  let recLen := recLenAt buf off
  if buf.length < off + 7 then .error .panic
  else if recLen < 8 ∨ recLen % 4 ≠ 0 ∨ off + recLen > buf.length then
    .ok (.inr (.error .badRecLen), buf)
  else rest

/-- The bytes that a record with a name of this length needs. -/
def entryActualLen (nameLen : ℕ) : ℕ := (8 + nameLen + 3) / 4 * 4

/-- The bytes of a record, with zeros after the name. -/
def entryBytes (inode recLen : ℕ) (fileType : BitVec 8) (name : Bytes) : Bytes :=
  toLe32 inode ++ toLe16 recLen ++ [BitVec.ofNat 8 name.length, fileType] ++ name ++
    List.replicate (recLen - (8 + name.length)) 0

/-- A record is written over the first bytes of a slot. -/
def writeEntry (slot : Bytes) (inode recLen : ℕ) (fileType : BitVec 8) (name : Bytes) :
    Except Stop Bytes :=
  if recLen < 8 + name.length ∨ slot.length < recLen then .error .panic
  else .ok (entryBytes inode recLen fileType name ++ slot.drop recLen)

/-- One turn of `insert`. -/
def insertVisit (inode : ℕ) (fileType : BitVec 8) (name : Bytes) (_ : Option ℕ) (off : ℕ)
    (buf : Bytes) : Call (Turn Unit) :=
  let recLen := recLenAt buf off
  let used := if inodeAt buf off = 0 then 0 else entryActualLen (nameLenAt buf off)
  framed buf off <|
  if recLen < used then .error .panic
  else if recLen - used < entryActualLen name.length then .ok (.inl (off + recLen), buf)
  else
    -- the predecessor keeps what its name needs; a deleted record is overwritten
    let head := if used = 0 then buf else splice buf (off + 4) (toLe16 used)
    (writeEntry (slice head (off + used) (recLen - used)) inode (recLen - used) fileType name).map
      fun entry => (.inr (.ok ()), splice head (off + used) entry)

/-- An entry is put into the first record with room for it. -/
def insert (inode : ℕ) (fileType : BitVec 8) (name : Bytes) : Call (Except DirError Unit) :=
  if name = [] ∨ name.length > 255 then .ok (.error .badNameLen, buf)
  else walk (.error .full) (insertVisit inode fileType name) (buf.length + 1) none 0 buf

/-- One turn of `remove_matching`. -/
def removeVisit (prev : Option ℕ) (off : ℕ) (buf : Bytes) : Call (Turn ℕ) :=
  let recLen := recLenAt buf off
  let nameLen := nameLenAt buf off
  framed buf off <|
  if buf.length < off + 8 + nameLen then .error .panic
  else if inodeAt buf off ≠ 0 ∧ slice buf (off + 8) nameLen = name then
    .ok (.inr (.ok (inodeAt buf off)), match prev with
      | some po => splice buf (po + 4) (toLe16 (recLenAt buf po + recLen))
      | none => splice buf off (toLe32 0))
  else .ok (.inl (off + recLen), buf)

/-- The first active entry of the name is removed, and its inode returned. -/
def remove : Call (Except DirError ℕ) :=
  walk (.error .notFound) (removeVisit name) (buf.length + 1) none 0 buf

/-- One turn of `lookup`: that of `iter_active`, with the closure of `lookup_matching`. -/
def lookupVisit (_ : Option ℕ) (off : ℕ) (buf : Bytes) :
    Call (Turn (Option DirEntry)) :=
  match nextEntry buf off with
  | .error e => .ok (.inr (.error e), buf)
  | .ok (e, next) =>
    .ok (if e.inode ≠ 0 ∧ e.name = name then .inr (.ok (some e)) else .inl next, buf)

/-- The first active entry of the name. -/
def lookup : Except Stop (Except DirError (Option DirEntry)) :=
  (walk (.ok none) (lookupVisit name) (buf.length + 1) none 0 buf).map Prod.fst

/-- One turn of `lookup_bytes`, which decodes the record itself. -/
def lookupBytesVisit (_ : Option ℕ) (off : ℕ) (buf : Bytes) :
    Call (Turn (Option ℕ)) :=
  let recLen := recLenAt buf off
  let nameLen := nameLenAt buf off
  if off + 8 > buf.length then .ok (.inr (.error .short), buf)
  else if recLen < 8 ∨ recLen % 4 ≠ 0 then .ok (.inr (.error .badRecLen), buf)
  else if off + recLen > buf.length then .ok (.inr (.error .overrun), buf)
  else if nameLen > recLen - 8 then .ok (.inr (.error .badNameLen), buf)
  else if inodeAt buf off ≠ 0 ∧ nameLen = name.length ∧ slice buf (off + 8) nameLen = name then
    .ok (.inr (.ok (some (inodeAt buf off))), buf)
  else .ok (.inl (off + recLen), buf)

/-- The inode of the first active entry of the name. -/
def lookupBytes : Except Stop (Except DirError (Option ℕ)) :=
  (walk (.ok none) (lookupBytesVisit name) (buf.length + 1) none 0 buf).map Prod.fst

/-! ### Walks over any bytes -/

/-- The offsets a walk comes to over well-formed records that it passes. -/
inductive Reached (passes : DirEntry → Prop) : ℕ → Prop
  | zero : Reached passes 0
  | next {off next : ℕ} {e : DirEntry} : Reached passes off → off < buf.length →
      nextEntry buf off = .ok (e, next) → passes e → Reached passes next

/-- What a walk without the full decoding misreads: a fragment too short for the fields it reads,
and a record whose name does not fit. -/
def Misread (err : DirError) : Prop := buf.length < off + 7 ∨ err = .badNameLen

/-- Over records that it passes, a walk comes to a malformed one of this kind. -/
def ComesTo (passes : DirEntry → Prop) (misread : ℕ → DirError → Prop) : Prop :=
  ∃ off err, Reached buf passes off ∧ off < buf.length ∧ nextEntry buf off = .error err ∧
    misread off err

/-- The operation returns, and if it comes to a malformed record it returns an error: the one of
its turn at that record, which has written nothing. -/
structure Survives {α : Type} (passes : DirEntry → Prop)
    (visit : Option ℕ → ℕ → Bytes → Call (Turn α)) (r : Except Stop (Except DirError α)) :
    Prop where
  returns : ∃ x, r = .ok x
  loud : ∀ off err, Reached buf passes off → off < buf.length → nextEntry buf off = .error err →
    ∃ prev e, visit prev off buf = .ok (.inr (.error e), buf) ∧ r = .ok (.error e)

/-- What the visits of an operation do, where `misread` are the malformed records it misreads. -/
structure Visits {α : Type} (passes : DirEntry → Prop) (misread : ℕ → DirError → Prop)
    (visit : Option ℕ → ℕ → Bytes → Call (Turn α)) : Prop where
  pass : ∀ {prev off e next}, nextEntry buf off = .ok (e, next) → passes e →
    visit prev off buf = .ok (.inl next, buf)
  stop : ∀ {off e next} prev, nextEntry buf off = .ok (e, next) → ¬ passes e →
    ∃ a buf', visit prev off buf = .ok (.inr (.ok a), buf')
  loud : ∀ {prev off err}, off < buf.length → nextEntry buf off = .error err →
    ((∃ e, visit prev off buf = .ok (.inr (.error e), buf)) ↔ ¬ misread off err)

end

variable {buf name : Bytes} {α : Type} {passes : DirEntry → Prop} {misread : ℕ → DirError → Prop}
  {visit : Option ℕ → ℕ → Bytes → Call (Turn α)} {off : ℕ}

theorem length_slice {i n : ℕ} (h : i + n ≤ buf.length) : (slice buf i n).length = n := by
  simp only [slice, List.length_take, List.length_drop]
  omega

section

variable {next : ℕ} {e : DirEntry} {err : DirError}

/-- The record at an offset decodes: it lies in the block, and its name in it. -/
theorem nextEntry_ok (h : nextEntry buf off = .ok (e, next)) :
    e = ⟨inodeAt buf off, recLenAt buf off, buf.getD (off + 7) 0,
        slice buf (off + 8) (nameLenAt buf off)⟩ ∧
      next = off + recLenAt buf off ∧ 8 + nameLenAt buf off ≤ recLenAt buf off ∧
      recLenAt buf off % 4 = 0 ∧ off + recLenAt buf off ≤ buf.length ∧
      e.name.length = nameLenAt buf off := by
  unfold nextEntry at h
  dsimp only at h
  split_ifs at h with h1 h2 h3 h4
  cases h
  exact ⟨rfl, rfl, by omega, by omega, by omega, length_slice (by omega)⟩

theorem framed_ok {rest : Call (Turn α)} (h : nextEntry buf off = .ok (e, next)) :
    framed buf off rest = rest := by
  obtain ⟨-, -, h1, h2, h3, -⟩ := nextEntry_ok h
  rw [framed, if_neg (by omega), if_neg (by omega)]

/-- Where a record does not decode, a walk that checks only its length does not always see it. -/
theorem framed_loud {rest : Call (Turn α)} (h : nextEntry buf off = .error err)
    (hrest : recLenAt buf off < 8 + nameLenAt buf off → ∀ e, rest ≠ .ok (.inr (.error e), buf)) :
    (∃ e, framed buf off rest = .ok (.inr (.error e), buf)) ↔ ¬ Misread buf off err := by
  unfold framed Misread
  unfold nextEntry at h
  dsimp only at h ⊢
  split_ifs at h with h1 h2 h3 h4
  all_goals cases h
  · by_cases hlen : buf.length < off + 7
    · simp [hlen]
    · rw [if_neg hlen, if_pos (by omega)]
      simp [hlen]
  · rw [if_neg (by omega), if_pos (by omega)]
    exact iff_of_true ⟨_, rfl⟩ (by simp; omega)
  · rw [if_neg (by omega), if_pos (by omega)]
    exact iff_of_true ⟨_, rfl⟩ (by simp; omega)
  · rw [if_neg (by omega), if_neg (by omega)]
    simpa using hrest (by omega)

end

variable {done : Except DirError α}

/-- **A walk comes to the records that it passes**, with enough of its steps left. -/
theorem Visits.walk_reached (h : Visits buf passes misread visit) (hr : Reached buf passes off) :
    ∃ fuel prev, buf.length ≤ fuel + off ∧ walk done visit (buf.length + 1) none 0 buf =
      walk done visit (fuel + 1) prev off buf := by
  induction hr with
  | zero => exact ⟨buf.length, none, Nat.le_refl _, rfl⟩
  | @next off _ _ _ hlt he hp ih =>
  obtain ⟨fuel, prev, hfuel, ih⟩ := ih
  obtain ⟨-, rfl, hrec, -⟩ := nextEntry_ok he
  obtain ⟨fuel, rfl⟩ : ∃ k, fuel = k + 1 := ⟨fuel - 1, by omega⟩
  refine ⟨fuel, some off, by omega, ?_⟩
  rw [ih, walk, if_pos hlt, h.pass he hp]

/-- From a record that it comes to, a walk that misreads none returns. -/
theorem Visits.walk_returns (h : Visits buf passes misread visit)
    (hq : ¬ ComesTo buf passes misread) (fuel : ℕ) :
    ∀ off prev, Reached buf passes off → buf.length ≤ fuel + off →
      ∃ x, walk done visit (fuel + 1) prev off buf = .ok x := by
  induction fuel with
  | zero =>
    intro off prev _ hf
    rw [walk, if_neg (by omega)]
    exact ⟨_, rfl⟩
  | succ fuel ih =>
  intro off prev hr hf
  rw [walk]
  by_cases hlt : off < buf.length
  · rw [if_pos hlt]
    cases he : nextEntry buf off with
    | error err =>
      obtain ⟨e, hv⟩ := (h.loud hlt he).mpr fun hm => hq ⟨off, err, hr, hlt, he, hm⟩
      rw [hv]
      exact ⟨_, rfl⟩
    | ok r =>
    obtain ⟨e, next⟩ := r
    by_cases hp : passes e
    · have := nextEntry_ok he
      rw [h.pass he hp]
      exact ih next _ (.next hr hlt he hp) (by omega)
    · obtain ⟨a, buf', hv⟩ := h.stop prev he hp
      rw [hv]
      exact ⟨_, rfl⟩
  · rw [if_neg hlt]
    exact ⟨_, rfl⟩

/-- A walk is safe if and only if it misreads no record that it comes to. -/
theorem Visits.survives_iff (h : Visits buf passes misread visit) (done : Except DirError α) :
    Survives buf passes visit ((walk done visit (buf.length + 1) none 0 buf).map Prod.fst) ↔
      ¬ ComesTo buf passes misread := by
  constructor
  · rintro hs ⟨off, err, hr, hlt, he, hm⟩
    obtain ⟨prev, e, hv, -⟩ := hs.loud off err hr hlt he
    exact (h.loud hlt he).mp ⟨e, hv⟩ hm
  intro hq
  constructor
  · obtain ⟨x, hx⟩ := h.walk_returns hq buf.length 0 none .zero (by omega)
    exact ⟨x.1, by rw [hx, Except.map]⟩
  · intro off err hr hlt he
    obtain ⟨fuel, prev, -, hwalk⟩ := h.walk_reached hr
    obtain ⟨e, hv⟩ := (h.loud hlt he).mpr fun hm => hq ⟨off, err, hr, hlt, he, hm⟩
    refine ⟨prev, e, hv, ?_⟩
    rw [hwalk, walk, if_pos hlt, hv, Except.map]

/-! ### The four operations -/

/-- The record has not the room for the name. -/
def Narrow (name : Bytes) (e : DirEntry) : Prop :=
  e.recLen - (if e.inode = 0 then 0 else entryActualLen e.name.length) < entryActualLen name.length

/-- The record is deleted or has another name. -/
def Other (name : Bytes) (e : DirEntry) : Prop := ¬ (e.inode ≠ 0 ∧ e.name = name)

section

variable {inode i n : ℕ} {fileType : BitVec 8}

theorem length_splice {new : Bytes} (h : i + new.length ≤ buf.length) :
    (splice buf i new).length = buf.length := by
  simp only [splice, List.length_append, List.length_take, List.length_drop]
  omega

theorem writeEntry_slice (h : 8 + name.length ≤ n) (hi : i + n ≤ buf.length) :
    writeEntry (slice buf i n) inode n fileType name = .ok (entryBytes inode n fileType name) := by
  have hlen := length_slice hi
  rw [writeEntry, if_neg (by omega), List.drop_eq_nil_of_le (by omega), List.append_nil]

/-- A turn that writes an entry does not return an error. -/
theorem writeEntry_ne_error {slot : Bytes} {f : Bytes → Bytes} {e : DirError} :
    (writeEntry slot inode n fileType name).map (fun b => ((.inr (.ok ()) : Turn Unit), f b)) ≠
      .ok (.inr (.error e), buf) := by
  unfold writeEntry
  split <;> simp [Except.map]

end

theorem insert_visits (buf : Bytes) (inode : ℕ) (fileType : BitVec 8) (name : Bytes) :
    Visits buf (Narrow name) (Misread buf) (insertVisit inode fileType name) := by
  have hused : ∀ {off}, 8 + nameLenAt buf off ≤ recLenAt buf off → recLenAt buf off % 4 = 0 →
      ¬ recLenAt buf off <
        if inodeAt buf off = 0 then 0 else entryActualLen (nameLenAt buf off) := by
    intro off h1 h2
    unfold entryActualLen
    split <;> omega
  refine ⟨?_, ?_, ?_⟩
  · intro prev off e next he hp
    obtain ⟨rfl, rfl, h1, h2, -, hname⟩ := nextEntry_ok he
    simp only [Narrow, hname] at hp
    rw [insertVisit, framed_ok he, if_neg (hused h1 h2), if_pos hp]
  · intro off e next prev he hp
    obtain ⟨rfl, rfl, h1, h2, h3, hname⟩ := nextEntry_ok he
    simp only [Narrow, hname] at hp
    have hneed : 8 + name.length ≤ entryActualLen name.length := by
      unfold entryActualLen
      omega
    have hhead : ∀ (c : Prop) [Decidable c] (w : ℕ),
        (if c then buf else splice buf (off + 4) (toLe16 w)).length = buf.length := by
      intro c _ w
      split
      · rfl
      · exact length_splice (by simp [toLe16]; omega)
    have hu := hused h1 h2
    rw [insertVisit, framed_ok he, if_neg hu, if_neg hp]
    dsimp only
    rw [writeEntry_slice (by omega) (by rw [hhead]; omega)]
    exact ⟨_, _, rfl⟩
  · refine fun _ he => framed_loud he fun _ e => ?_
    split_ifs
    all_goals first | exact writeEntry_ne_error | simp

theorem remove_visits (buf name : Bytes) :
    Visits buf (Other name) (Misread buf) (removeVisit name) := by
  refine ⟨?_, ?_, ?_⟩
  · intro prev off e next he hp
    obtain ⟨rfl, rfl, h1, -, h3, -⟩ := nextEntry_ok he
    rw [removeVisit.eq_def, framed_ok he, if_neg (by omega), if_neg hp]
  · intro off e next prev he hp
    obtain ⟨rfl, rfl, h1, -, h3, -⟩ := nextEntry_ok he
    rw [removeVisit.eq_def, framed_ok he, if_neg (by omega), if_pos (not_not.mp hp)]
    exact ⟨_, _, rfl⟩
  · refine fun _ he => framed_loud he fun _ e => ?_
    split_ifs
    all_goals simp

theorem lookup_visits (buf name : Bytes) :
    Visits buf (Other name) (fun _ _ => False) (lookupVisit name) := by
  refine ⟨?_, ?_, ?_⟩
  · intro prev off e next he hp
    simp only [lookupVisit, he, if_neg hp]
  · intro off e next prev he hp
    exact ⟨some e, buf, by simp only [lookupVisit, he, if_pos (not_not.mp hp)]⟩
  · intro prev off err hlt he
    simp [lookupVisit, he]

/-- What a lookup finds, without the rest of its entry. -/
def Turn.inode : Turn (Option DirEntry) → Turn (Option ℕ) :=
  Sum.map id (Except.map (Option.map DirEntry.inode))

/-- `lookup_bytes` decodes a record as `next_entry` does. -/
theorem lookupBytesVisit_eq (name : Bytes) (prev : Option ℕ) (off : ℕ) :
    lookupBytesVisit name prev off buf =
      (lookupVisit name prev off buf).map (Prod.map Turn.inode id) := by
  simp only [lookupBytesVisit, lookupVisit, nextEntry]
  by_cases h1 : off + 8 > buf.length
  · simp only [h1, if_true]
    rfl
  by_cases h2 : recLenAt buf off < 8 ∨ recLenAt buf off % 4 ≠ 0
  · simp only [h1, h2, if_true, if_false]
    rfl
  by_cases h3 : off + recLenAt buf off > buf.length
  · simp only [h1, h2, h3, if_true, if_false]
    rfl
  by_cases h4 : nameLenAt buf off > recLenAt buf off - 8
  · simp only [h1, h2, h3, h4, if_true, if_false]
    rfl
  have hlen : (slice buf (off + 8) (nameLenAt buf off)).length = nameLenAt buf off :=
    length_slice (by omega)
  have hname : nameLenAt buf off = name.length ∧ slice buf (off + 8) (nameLenAt buf off) = name ↔
      slice buf (off + 8) (nameLenAt buf off) = name :=
    and_iff_right_of_imp fun h => by rw [← hlen, h]
  simp only [h1, h2, h3, h4, if_false, hname]
  split <;> rfl

theorem lookupBytes_visits (buf name : Bytes) :
    Visits buf (Other name) (fun _ _ => False) (lookupBytesVisit name) := by
  have h := lookup_visits buf name
  refine ⟨?_, ?_, ?_⟩
  · intro prev off e next he hp
    rw [lookupBytesVisit_eq, h.pass he hp]
    rfl
  · intro off e next prev he hp
    obtain ⟨a, buf', ha⟩ := h.stop prev he hp
    rw [lookupBytesVisit_eq, ha]
    exact ⟨_, _, rfl⟩
  · intro prev off err hlt he
    rw [lookupBytesVisit_eq, lookupVisit, he]
    exact iff_of_true ⟨err, rfl⟩ not_false

/-- What is asked of the four operations on a block. -/
structure DirOpsSurvive (buf : Bytes) (inode : ℕ) (fileType : BitVec 8) (name : Bytes) : Prop where
  insert : name ≠ [] ∧ name.length ≤ 255 → Survives buf (Narrow name)
    (insertVisit inode fileType name) ((insert buf inode fileType name).map Prod.fst)
  badName : ¬ (name ≠ [] ∧ name.length ≤ 255) →
    Ext4.insert buf inode fileType name = .ok (.error .badNameLen, buf)
  remove : Survives buf (Other name) (removeVisit name) ((remove buf name).map Prod.fst)
  lookup : Survives buf (Other name) (lookupVisit name) (lookup buf name)
  lookupBytes : Survives buf (Other name) (lookupBytesVisit name) (lookupBytes buf name)

/-- **On any bytes**, the lookups always survive; the insertion and the removal do if and only if
the records before the one they stop at are not followed by a fragment of less than seven bytes or
by a record that is too small for its name. -/
theorem dirOps_survive_iff (buf : Bytes) (inode : ℕ) (fileType : BitVec 8) (name : Bytes) :
    DirOpsSurvive buf inode fileType name ↔
      (name ≠ [] ∧ name.length ≤ 255 → ¬ ComesTo buf (Narrow name) (Misread buf)) ∧
        ¬ ComesTo buf (Other name) (Misread buf) := by
  have hinsert : name ≠ [] ∧ name.length ≤ 255 → Ext4.insert buf inode fileType name =
      walk (.error .full) (insertVisit inode fileType name) (buf.length + 1) none 0 buf :=
    fun hn => if_neg (by simpa using hn)
  have hi := (insert_visits buf inode fileType name).survives_iff (.error .full)
  have hr := (remove_visits buf name).survives_iff (.error .notFound)
  have hl := (lookup_visits buf name).survives_iff (.ok none)
  have hb := (lookupBytes_visits buf name).survives_iff (.ok none)
  constructor
  · exact fun h => ⟨fun hn => hi.mp (hinsert hn ▸ h.insert hn), hr.mp h.remove⟩
  rintro ⟨h1, h2⟩
  refine ⟨fun hn => hinsert hn ▸ hi.mpr (h1 hn), fun hn => if_pos ?_, hr.mpr h2, hl.mpr ?_,
    hb.mpr ?_⟩
  · by_contra h
    exact hn (by simpa using h)
  all_goals
    rintro ⟨-, -, -, -, -, h⟩
    exact h

/-- One byte is a fragment that the insertion reads beyond. -/
theorem one_byte_panics : ¬ DirOpsSurvive [0] 1 0 [97] := by
  intro h
  obtain ⟨x, hx⟩ := (h.insert (by decide)).returns
  have hpanic : insert [0] 1 0 [97] = .error .panic := by decide
  rw [hpanic] at hx
  cases hx

end Oxide.Ext4
