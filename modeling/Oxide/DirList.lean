/-
Directory blocks as lists of entries.

A well-formed block is the bytes of a list of records, each with its name and the padding after it.
A deleted record keeps its name. What a reader of the directory sees are the active entries.

* `nextEntry_rec`, `Visits.walk_first`: the records of a block are those that a walk decodes;
* `splice_repad`, `insertVisit_room`, `removeVisit_hit`: how a record is rewritten in place;
* `dirOps_refine`: **insertion, removal and the lookups are those of the list of entries.**
-/
import Oxide.DirBlock
import Mathlib.Data.List.GetD
import Mathlib.Data.List.Induction

namespace Oxide.Ext4

open ByteBits

/-- A record, with the padding after its name. -/
structure Rec where
  inode : BitVec 32
  fileType : BitVec 8
  name : Bytes
  pad : Bytes
  name_le : name.length ≤ 255
  aligned : (8 + name.length + pad.length) % 4 = 0

/-- What a directory holds under a name. -/
structure Item where
  inode : BitVec 32
  fileType : BitVec 8
  name : Bytes

namespace Rec

variable (r : Rec)

/-- The length of the record. -/
def len : ℕ := 8 + r.name.length + r.pad.length

/-- The bytes of a record from its length on. -/
def tail (len : ℕ) (pad : Bytes) : Bytes :=
  toLe16 len ++ ([BitVec.ofNat 8 r.name.length, r.fileType] ++ (r.name ++ pad))

/-- The bytes of the record. -/
def bytes : Bytes := toLe32 r.inode.toNat ++ r.tail r.len r.pad

/-- The record as it is decoded. -/
def entry : DirEntry := ⟨r.inode.toNat, r.len, r.fileType, r.name⟩

/-- What the record holds. -/
def item : Item := ⟨r.inode, r.fileType, r.name⟩

end Rec

/-- The bytes of the records, one after another. -/
def block (rs : List Rec) : Bytes := rs.flatMap Rec.bytes

/-- The entries that are not deleted. -/
def active (rs : List Rec) : List Item := (rs.map Rec.item).filter (·.inode ≠ 0)

variable {rs p q : List Rec} {r s : Rec} {a c buf name : Bytes}

@[simp] theorem Rec.length_bytes : r.bytes.length = r.len := by
  simp only [bytes, tail, toLe32, toLe16, List.length_append, List.length_cons, List.length_nil,
    len]
  omega

theorem Rec.dead_iff : r.inode.toNat = 0 ↔ r.inode = 0 :=
  ⟨fun h => BitVec.eq_of_toNat_eq h, fun h => congrArg BitVec.toNat h⟩

@[simp] theorem block_append : block (p ++ q) = block p ++ block q := List.flatMap_append

@[simp] theorem block_cons : block (r :: q) = r.bytes ++ block q := rfl

@[simp] theorem active_append : active (p ++ q) = active p ++ active q := by simp [active]

theorem active_cons : active (r :: q) = [r.item].filter (·.inode ≠ 0) ++ active q :=
  active_append (p := [r])

/-! ### The records that a walk comes to -/

theorem nextEntry_rec (h : r.len < 65536) :
    nextEntry (a ++ (r.bytes ++ c)) a.length = .ok (r.entry, a.length + r.len) := by
  have hle := r.name_le
  have hal := r.aligned
  have hlen : r.len = 8 + r.name.length + r.pad.length := rfl
  have hword : recLenAt (a ++ (r.bytes ++ c)) a.length = r.len := by
    simp only [recLenAt, toNat_le16, Nat.add_assoc]
    simp [Rec.bytes, Rec.tail, toLe32, toLe16]
    omega
  have hname : nameLenAt (a ++ (r.bytes ++ c)) a.length = r.name.length := by
    simp only [nameLenAt]
    simp [Rec.bytes, Rec.tail, toLe32, toLe16]
    omega
  have hinode : inodeAt (a ++ (r.bytes ++ c)) a.length = r.inode.toNat := by
    simp only [inodeAt, toNat_le32, toNat_le16, Nat.add_assoc]
    simp [Rec.bytes, Rec.tail, toLe32, toLe16]
    omega
  have htype : (a ++ (r.bytes ++ c)).getD (a.length + 7) 0 = r.fileType := by
    simp [Rec.bytes, Rec.tail, toLe32, toLe16]
  have hslice : slice (a ++ (r.bytes ++ c)) (a.length + 8) r.name.length = r.name := by
    rw [slice]
    simp [Rec.bytes, Rec.tail, toLe32, toLe16]
  have hbuf : (a ++ (r.bytes ++ c)).length = a.length + (r.len + c.length) := by simp
  unfold nextEntry
  dsimp only
  rw [hword, hname, hinode, htype, hslice, if_neg (by omega), if_neg (by omega), if_neg (by omega),
    if_neg (by omega), Rec.entry]

/-- The offset of the last record. -/
def lastOff (rs : List Rec) : Option ℕ := rs.getLast?.map fun r => (block rs).length - r.len

section

variable {α : Type} {passes : DirEntry → Prop} {misread : ℕ → DirError → Prop}
  {visit : Option ℕ → ℕ → Bytes → Call (Turn α)} {done : Except DirError α}

/-- A walk passes the records it does not stop at, and remembers the last of them. -/
theorem Visits.walk_pass (hv : Visits buf passes misread visit) (hlen : buf.length ≤ 65532)
    (fuel : ℕ) (hbuf : buf = block p ++ c) (hp : ∀ r ∈ p, passes r.entry) :
    walk done visit (fuel + p.length) none 0 buf =
      walk done visit fuel (lastOff p) (block p).length buf := by
  induction p using List.reverseRecOn generalizing fuel c with
  | nil => rfl
  | append_singleton p r ih =>
  have hbuf' : buf = block p ++ (r.bytes ++ c) := by
    simpa [block] using hbuf
  have hsize : buf.length = (block p).length + (r.len + c.length) := by
    simp [hbuf']
  have hlt : 8 ≤ r.len := by
    simp only [Rec.len]
    omega
  have hnext := nextEntry_rec (a := block p) (c := c) (r := r) (by omega)
  rw [← hbuf'] at hnext
  have h := ih (fuel + 1) hbuf' fun x hx => hp x (by simp [hx])
  rw [walk, if_pos (by omega), hv.pass hnext (hp r (by simp))] at h
  rw [List.length_append, List.length_singleton, Nat.add_comm p.length, ← Nat.add_assoc, h]
  simp [lastOff, block]

theorem length_le_block : rs.length ≤ (block rs).length := by
  induction rs with
  | nil => exact Nat.zero_le _
  | cons =>
    rw [block_cons, List.length_append, Rec.length_bytes, Rec.len, List.length_cons]
    omega

theorem Visits.walk_all (hv : Visits (block rs) passes misread visit)
    (hlen : (block rs).length ≤ 65532) (hp : ∀ r ∈ rs, passes r.entry) :
    walk done visit ((block rs).length + 1) none 0 (block rs) = .ok (done, block rs) := by
  have hle : rs.length ≤ (block rs).length := length_le_block
  have hfuel : (block rs).length + 1 = (block rs).length - rs.length + 1 + rs.length := by omega
  rw [hfuel, hv.walk_pass (c := []) hlen _ (by simp) hp, walk, if_neg (by omega)]

theorem Visits.walk_first {x : α} {b : Bytes}
    (hv : Visits (block (p ++ r :: q)) passes misread visit)
    (hlen : (block (p ++ r :: q)).length ≤ 65532) (hp : ∀ r ∈ p, passes r.entry)
    (hx : visit (lastOff p) (block p).length (block (p ++ r :: q)) = .ok (.inr (.ok x), b)) :
    walk done visit ((block (p ++ r :: q)).length + 1) none 0 (block (p ++ r :: q)) =
      .ok (.ok x, b) := by
  have hle : p.length ≤ (block p).length := length_le_block
  have hsize : (block (p ++ r :: q)).length = (block p).length + (r.len + (block q).length) := by
    simp
  have hlt : 0 < r.len := by
    rw [Rec.len]
    omega
  have hfuel : (block (p ++ r :: q)).length + 1 =
      (block (p ++ r :: q)).length - p.length + 1 + p.length := by omega
  rw [hfuel, hv.walk_pass hlen _ block_append hp, walk, if_pos (by omega), hx]

end

/-! ### Records rewritten in place -/

theorem splice_append {i : ℕ} {x y : Bytes} (hbuf : buf = a ++ (x ++ c)) (hi : i = a.length)
    (hy : y.length = x.length) : splice buf i y = a ++ (y ++ c) := by
  subst hbuf hi
  simp [splice, hy]

/-- The record with another padding, of the length that goes with it. -/
def Rec.repad (r : Rec) (pad : Bytes) (h : (8 + r.name.length + pad.length) % 4 = 0) : Rec :=
  { r with pad := pad, aligned := h }

/-- Another length in its header gives a record more or less of the bytes after its name. -/
theorem splice_repad {x y : Bytes} (h : (8 + r.name.length + x.length) % 4 = 0)
    (hpad : r.pad ++ c = x ++ y) :
    splice (a ++ (r.bytes ++ c)) (a.length + 4) (toLe16 (r.repad x h).len) =
      a ++ ((r.repad x h).bytes ++ y) := by
  rw [splice_append (a := a ++ toLe32 r.inode.toNat) (x := toLe16 r.len)
    (c := [BitVec.ofNat 8 r.name.length, r.fileType] ++ (r.name ++ (x ++ y)))]
  · simp [Rec.bytes, Rec.tail, Rec.repad]
  · simp [Rec.bytes, Rec.tail, hpad]
  · simp [toLe32, toLe16]
  · rfl

/-- The record that an insertion writes over a stretch of the block. -/
def Rec.fresh (inode : BitVec 32) (fileType : BitVec 8) (name : Bytes) (n : ℕ)
    (h : name.length ≤ 255) (hn : 8 + name.length ≤ n) (h4 : n % 4 = 0) : Rec where
  inode := inode
  fileType := fileType
  name := name
  pad := List.replicate (n - (8 + name.length)) 0
  name_le := h
  aligned := by
    rw [List.length_replicate]
    omega

section

variable {inode : BitVec 32} {fileType : BitVec 8} {n : ℕ} (h : name.length ≤ 255)
  (hn : 8 + name.length ≤ n) (h4 : n % 4 = 0)

theorem Rec.len_fresh : (fresh inode fileType name n h hn h4).len = n := by
  simp only [len, fresh, List.length_replicate]
  omega

theorem Rec.bytes_fresh :
    (fresh inode fileType name n h hn h4).bytes = entryBytes inode.toNat n fileType name := by
  rw [bytes, tail, len_fresh, entryBytes]
  simp [fresh]

end

/-- What the walks read of a record. -/
theorem read_rec (hlen : (block (p ++ r :: q)).length ≤ 65532) :
    nextEntry (block (p ++ r :: q)) (block p).length = .ok (r.entry, (block p).length + r.len) ∧
      inodeAt (block (p ++ r :: q)) (block p).length = r.inode.toNat ∧
      recLenAt (block (p ++ r :: q)) (block p).length = r.len ∧
      nameLenAt (block (p ++ r :: q)) (block p).length = r.name.length ∧
      8 + r.name.length ≤ r.len ∧ r.len % 4 = 0 ∧
      (block p).length + r.len ≤ (block (p ++ r :: q)).length := by
  have hsize : (block (p ++ r :: q)).length = (block p).length + (r.len + (block q).length) := by
    simp
  have hnext := nextEntry_rec (a := block p) (r := r) (c := block q) (by omega)
  rw [← block_cons, ← block_append] at hnext
  obtain ⟨h, -, -, -, -, hname⟩ := nextEntry_ok hnext
  exact ⟨hnext, (congrArg DirEntry.inode h).symm, (congrArg DirEntry.recLen h).symm, hname.symm,
    Nat.le_add_right _ _, r.aligned, by omega⟩

/-- **Insertion at a record with room**: a deleted record is replaced, an active one keeps what it
needs and the new one follows it. -/
theorem insertVisit_room {inode : BitVec 32} {fileType : BitVec 8} (prev : Option ℕ)
    (hlen : (block (p ++ r :: q)).length ≤ 65532) (hname : name.length ≤ 255)
    (hroom : ¬ Narrow name r.entry) :
    ∃ p' new, insertVisit inode.toNat fileType name prev (block p).length (block (p ++ r :: q)) =
        .ok (.inr (.ok ()), block (p' ++ new :: q)) ∧
      (block (p' ++ new :: q)).length = (block (p ++ r :: q)).length ∧
      active p' = active (p ++ [r]) ∧ new.item = ⟨inode, fileType, name⟩ := by
  obtain ⟨hnext, hi, hl, hn, h8, h4, hin⟩ := read_rec hlen
  have hneed : 8 + name.length ≤ entryActualLen name.length := by
    unfold entryActualLen
    omega
  simp only [Narrow, Rec.entry] at hroom
  rw [insertVisit, framed_ok hnext, hi, hl, hn]
  by_cases h0 : r.inode.toNat = 0
  · simp only [h0, if_true, Nat.sub_zero, Nat.add_zero] at hroom ⊢
    refine ⟨p, .fresh inode fileType name r.len hname (by omega) h4, ?_, ?_, ?_, rfl⟩
    · rw [if_neg (by omega), if_neg (by omega), writeEntry_slice (by omega) (by omega),
        ← Rec.bytes_fresh hname (by omega) h4]
      refine congrArg (fun b => Except.ok (Sum.inr (Except.ok ()), b)) ?_
      rw [splice_append (c := block q) block_append rfl (by simp [Rec.len_fresh]), block_append,
        block_cons]
    · simp [Rec.len_fresh]
    · simp [active, Rec.item, Rec.dead_iff.mp h0]
  simp only [h0, if_false] at hroom ⊢
  obtain ⟨u, hu⟩ : ∃ u, u = entryActualLen r.name.length := ⟨_, rfl⟩
  have hu' := hu
  rw [entryActualLen] at hu'
  rw [← hu] at hroom ⊢
  -- the record keeps `u` bytes; the rest of its padding becomes the new record
  obtain ⟨k, hk⟩ : ∃ k, k = u - (8 + r.name.length) := ⟨_, rfl⟩
  have hpad : r.len = 8 + r.name.length + r.pad.length := rfl
  have htake : (r.pad.take k).length = k := by
    rw [List.length_take]
    omega
  have hkeep : (8 + r.name.length + (r.pad.take k).length) % 4 = 0 := by omega
  have hrep : (r.repad (r.pad.take k) hkeep).len = u := by
    simp only [Rec.len, Rec.repad]
    omega
  refine ⟨p ++ [r.repad (r.pad.take k) hkeep],
    .fresh inode fileType name (r.len - u) hname (by omega) (by omega), ?_, ?_, ?_, rfl⟩
  · have hhead := splice_repad (a := block p) (c := block q) hkeep
      (by rw [← List.append_assoc, List.take_append_drop])
    rw [hrep, ← block_cons, ← block_append] at hhead
    have hsame : (splice (block (p ++ r :: q)) ((block p).length + 4) (toLe16 u)).length =
        (block (p ++ r :: q)).length := length_splice (by simp [toLe16]; omega)
    rw [if_neg (by omega), if_neg (by omega), if_neg (by omega),
      writeEntry_slice (by omega) (by omega), ← Rec.bytes_fresh hname (by omega) (by omega)]
    refine congrArg (fun b => Except.ok (Sum.inr (Except.ok ()), b)) ?_
    rw [hhead, splice_append (a := block p ++ (r.repad (r.pad.take k) hkeep).bytes)
      (x := r.pad.drop k) (c := block q)]
    · simp [block]
    · simp
    · simp [hrep]
    · simp only [Rec.length_bytes, Rec.len_fresh, List.length_drop]
      omega
  · simp [Rec.len_fresh]
    omega
  · simp [active, Rec.item, Rec.repad]

/-- **Removal of a record**: the record before it takes its bytes; the first is marked deleted. -/
theorem removeVisit_hit (hlen : (block (p ++ r :: q)).length ≤ 65532) (hlive : r.inode ≠ 0) :
    ∃ p', removeVisit r.name (lastOff p) (block p).length (block (p ++ r :: q)) =
        .ok (.inr (.ok r.inode.toNat), block (p' ++ q)) ∧
      (block (p' ++ q)).length = (block (p ++ r :: q)).length ∧ active p' = active p := by
  obtain ⟨hnext, hi, hl, hn, h8, h4, hin⟩ := read_rec hlen
  have hname : slice (block (p ++ r :: q)) ((block p).length + 8) r.name.length = r.name := by
    have h := congrArg DirEntry.name (nextEntry_ok hnext).1
    rw [hn] at h
    exact h.symm
  rw [removeVisit.eq_def, framed_ok hnext, hi, hl, hn, hname, if_neg (by omega),
    if_pos ⟨Rec.dead_iff.not.mpr hlive, rfl⟩]
  induction p using List.reverseRecOn with
  | nil =>
    refine ⟨[{ r with inode := 0 }], ?_, ?_, ?_⟩
    · refine congrArg (fun b => Except.ok (Sum.inr (Except.ok r.inode.toNat), b)) ?_
      have hz := splice_append (a := []) (x := toLe32 r.inode.toNat) (y := toLe32 0)
        (c := r.tail r.len r.pad ++ block q) (show block ([] ++ r :: q) = _ by simp [Rec.bytes]) rfl
        rfl
      exact hz.trans (by simp [Rec.bytes, Rec.tail, Rec.len])
    · simp [Rec.len]
    · simp [active, Rec.item]
  | append_singleton p s _ =>
  have hlast : lastOff (p ++ [s]) = some (block p).length := by simp [lastOff, block]
  rw [List.append_assoc, List.singleton_append] at hlen ⊢
  obtain ⟨-, -, hs, -⟩ := read_rec hlen
  have hal : (8 + s.name.length + (s.pad ++ r.bytes).length) % 4 = 0 := by
    have := s.aligned
    rw [List.length_append, Rec.length_bytes]
    omega
  have hrep : (s.repad (s.pad ++ r.bytes) hal).len = s.len + r.len := by
    simp [Rec.len, Rec.repad]
    omega
  refine ⟨p ++ [s.repad (s.pad ++ r.bytes) hal], ?_, ?_, ?_⟩
  · rw [hlast]
    dsimp only
    rw [hs, ← hrep]
    refine congrArg (fun b => Except.ok (Sum.inr (Except.ok r.inode.toNat), b)) ?_
    have hz := splice_repad (a := block p) (c := block (r :: q)) hal
      (by rw [block_cons, List.append_assoc])
    rw [← block_cons, ← block_append] at hz
    exact hz.trans (by simp [block])
  · simp [hrep]
    omega
  · simp [active, Rec.item, Rec.repad]

/-! ### The operations on the list of entries -/

theorem all_or_first {α : Type} (P : α → Prop) (l : List α) :
    (∀ x ∈ l, P x) ∨ ∃ p x q, l = p ++ x :: q ∧ (∀ y ∈ p, P y) ∧ ¬ P x := by
  classical
  cases h : l.find? (fun x => ¬ P x) with
  | none => exact .inl (by simpa using h)
  | some x =>
    obtain ⟨hx, p, q, rfl, hp⟩ := List.find?_eq_some_iff_append.mp h
    exact .inr ⟨p, x, q, rfl, by simpa using hp, by simpa using hx⟩

/-- No entry among these has the name. -/
def Absent (name : Bytes) (items : List Item) : Prop := ∀ e ∈ items, e.name ≠ name

theorem absent_active : Absent name (active rs) ↔ ∀ r ∈ rs, Other name r.entry := by
  simp [Absent, active, Other, Rec.entry, Rec.item, Rec.dead_iff]

/-- What the operations on a block are to the list of its entries: a refused insertion and a
removal that finds nothing leave the block as it was. -/
structure DirOpsRefine (rs : List Rec) (inode : BitVec 32) (fileType : BitVec 8) (name : Bytes) :
    Prop where
  insert : name ≠ [] ∧ name.length ≤ 255 →
    (insert (block rs) inode.toNat fileType name = .ok (.error .full, block rs) ∧
      ∀ r ∈ rs, Narrow name r.entry) ∨
    ∃ rs' p q, Ext4.insert (block rs) inode.toNat fileType name = .ok (.ok (), block rs') ∧
      (block rs').length = (block rs).length ∧ active rs = p ++ q ∧
      active rs' = p ++ [⟨inode, fileType, name⟩].filter (·.inode ≠ 0) ++ q
  absent : Absent name (active rs) → remove (block rs) name = .ok (.error .notFound, block rs) ∧
    lookup (block rs) name = .ok (.ok none) ∧ lookupBytes (block rs) name = .ok (.ok none)
  present : ¬ Absent name (active rs) → ∃ rs' p e q n,
    active rs = p ++ e :: q ∧ e.name = name ∧ Absent name p ∧
    remove (block rs) name = .ok (.ok e.inode.toNat, block rs') ∧
    (block rs').length = (block rs).length ∧ active rs' = p ++ q ∧
    lookup (block rs) name = .ok (.ok (some ⟨e.inode.toNat, n, e.fileType, name⟩)) ∧
    lookupBytes (block rs) name = .ok (.ok (some e.inode.toNat))

/-- **A directory block is its list of entries.** -/
theorem dirOps_refine (rs : List Rec) (hlen : (block rs).length ≤ 65532) (inode : BitVec 32)
    (fileType : BitVec 8) (name : Bytes) : DirOpsRefine rs inode fileType name := by
  refine ⟨?_, ?_, ?_⟩
  · intro hname
    have hv := insert_visits (block rs) inode.toNat fileType name
    rw [insert, if_neg (by simpa using hname)]
    obtain hall | ⟨p, r, q, rfl, hp, hr⟩ := all_or_first (fun r : Rec => Narrow name r.entry) rs
    · exact .inl ⟨hv.walk_all hlen hall, hall⟩
    obtain ⟨p', new, hvisit, hsize, hact, hnew⟩ := insertVisit_room (lastOff p) hlen hname.2 hr
    refine .inr ⟨_, active (p ++ [r]), active q, hv.walk_first hlen hp hvisit, hsize, ?_, ?_⟩
    · rw [← active_append, List.append_assoc, List.singleton_append]
    · rw [active_append, active_cons, hact, hnew, List.append_assoc]
  · intro ha
    have hall := absent_active.mp ha
    refine ⟨(remove_visits _ name).walk_all hlen hall, ?_, ?_⟩
    · rw [lookup, (lookup_visits _ name).walk_all hlen hall, Except.map]
    · rw [lookupBytes, (lookupBytes_visits _ name).walk_all hlen hall, Except.map]
  intro ha
  obtain hall | ⟨p, r, q, rfl, hp, hr⟩ := all_or_first (fun r : Rec => Other name r.entry) rs
  · exact absurd (absent_active.mpr hall) ha
  obtain ⟨hin, rfl⟩ : r.inode.toNat ≠ 0 ∧ r.name = name := not_not.mp hr
  have hlive := Rec.dead_iff.not.mp hin
  obtain ⟨p', hvisit, hsize, hact⟩ := removeVisit_hit hlen hlive
  have hfound : lookupVisit r.name (lastOff p) (block p).length (block (p ++ r :: q)) =
      .ok (.inr (.ok (some r.entry)), block (p ++ r :: q)) := by
    rw [lookupVisit, (read_rec hlen).1]
    exact congrArg (fun x => Except.ok (x, _)) (if_pos ⟨hin, rfl⟩)
  refine ⟨p' ++ q, active p, r.item, active q, r.len, ?_, rfl, absent_active.mpr hp,
    (remove_visits _ _).walk_first hlen hp hvisit, hsize, ?_, ?_, ?_⟩
  · rw [active_append]
    exact congrArg (active p ++ ·) (List.filter_cons_of_pos (decide_eq_true hlive))
  · rw [active_append, hact]
  · rw [lookup, (lookup_visits _ _).walk_first hlen hp hfound]
    rfl
  · have hbytes : lookupBytesVisit r.name (lastOff p) (block p).length (block (p ++ r :: q)) = _ :=
      lookupBytesVisit_eq ..
    rw [hfound] at hbytes
    rw [lookupBytes, (lookupBytes_visits _ _).walk_first hlen hp hbytes]
    rfl

/-- A root directory with an entry and the padding after it. -/
theorem lost_found_refine : DirOpsRefine
    [⟨11, 2, [108, 43, 102], [0], by decide, by decide⟩,
      ⟨0, 1, [97], [7, 7, 7], by decide, by decide⟩]
    12 1 [98] :=
  dirOps_refine _ (by decide) 12 1 [98]

end Oxide.Ext4
