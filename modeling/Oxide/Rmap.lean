/-
Reverse maps: from a page to the address spaces that map it.

Two owners keep edges `(address space, range)`. An `AnonVma` is shared by a family of anonymous
VMAs; its chain is walked for a page with the index the page recorded when it was faulted in. A
`FileRmap` belongs to one mapped object; its targets also name the file page at the start of the
range. Edges hold their address space weakly: a walk passes over the edges of dead ones.

* `AnonVma.mem_walk_iff`: the candidates of an anonymous page;
* `FileRmap.mem_walkPage_iff`: **while the sequence numbers increase along the target list, the
  cursor walk over a file page reaches exactly the live targets that cover the page**.
-/
import Oxide.Vma

namespace Oxide

open List

variable {live : Arc → Bool} {first last p va : ℕ}

/-- One edge of an `AnonVma` chain. -/
structure RmapTarget where
  mm : Arc
  start : ℕ
  «end» : ℕ
  deriving DecidableEq

/-- `Vec::swap_remove`: the last element takes the place of the one removed. -/
def swapRemove {α : Type} (l : List α) (i : ℕ) : List α :=
  match l.getLast? with
  | none => []
  | some x => (l.set i x).dropLast

namespace AnonVma

def attach (chain : List RmapTarget) (mm : Arc) (start «end» : ℕ) : List RmapTarget :=
  chain ++ [⟨mm, start, «end»⟩]

/-- Remove the first edge that matches exactly. -/
def detach (chain : List RmapTarget) (mm : Arc) (start «end» : ℕ) : List RmapTarget :=
  match chain.findIdx? (· == ⟨mm, start, «end»⟩) with
  | some i => swapRemove chain i
  | none => chain

/-- The candidates `rmap_walk_anon` yields for a page with this index. -/
def walk (live : Arc → Bool) (chain : List RmapTarget) (pageIdx : ℕ) : List (Arc × ℕ) :=
  chain.filterMap fun t =>
    let va := t.start + pageIdx * PAGE_SIZE_BYTES
    if live t.mm && decide (t.start ≤ va) && decide (va < t.end) then some (t.mm, va) else none

/-- **A walk yields a candidate for every live edge that is long enough.** -/
theorem mem_walk_iff {chain : List RmapTarget} {pageIdx : ℕ} {mm : Arc} :
    (mm, va) ∈ walk live chain pageIdx ↔ live mm = true ∧
      ∃ t ∈ chain, t.mm = mm ∧ va = t.start + pageIdx * PAGE_SIZE_BYTES ∧ va < t.end := by
  rw [walk, mem_filterMap]
  constructor
  · intro ⟨t, ht, h⟩
    simp only [Option.ite_none_right_eq_some, Bool.and_eq_true, decide_eq_true_eq] at h
    obtain ⟨⟨⟨hl, -⟩, hlt⟩, rfl, rfl⟩ := h
    exact ⟨hl, t, ht, rfl, rfl, hlt⟩
  · intro ⟨hl, t, ht, hmm, hva, hlt⟩
    subst hmm hva
    exact ⟨t, ht, by simp [hl, hlt]⟩

end AnonVma

/-- One edge of a `FileRmap`. -/
structure FileRmapTarget where
  seq : ℕ
  mm : Arc
  start : ℕ
  «end» : ℕ
  filePageStart : ℕ
  mayWrite : Bool
  deriving DecidableEq

/-- The edges of a mapped object, and whether new writable shared mappings are refused. -/
structure FileRmap where
  targets : List FileRmapTarget
  nextSeq : ℕ
  writableDenied : Bool

/-- One visit of a file walk: the address space, the address, the first page and their number. -/
structure FileVisit where
  mm : Arc
  va : ℕ
  page : ℕ
  pages : ℕ
  deriving DecidableEq

namespace FileRmap

def new : FileRmap := ⟨[], 1, false⟩

/-- Link a VMA.  Sequence numbers wrap past zero. -/
def attach (r : FileRmap) (mm : Arc) (start «end» filePageStart : ℕ) (mayWrite : Bool) :
    FileRmap :=
  { r with
    nextSeq := max ((r.nextSeq + 1) % 2 ^ 64) 1
    targets := r.targets ++ [⟨r.nextSeq, mm, start, «end», filePageStart, mayWrite⟩] }

/-- Unlink every edge inside the interval of a current VMA. -/
def detach (r : FileRmap) (mm : Arc) (start «end» : ℕ) : FileRmap :=
  { r with targets := r.targets.filter fun t => t.mm != mm || t.start < start || t.end > «end» }

/-- The part of a target inside the file pages `[first, last)`. -/
def visit (live : Arc → Bool) (first last : ℕ) (t : FileRmapTarget) : Option FileVisit :=
  let pages := (t.end - t.start) / PAGE_SIZE_BYTES
  let targetEnd := min (t.filePageStart + pages) (2 ^ 64 - 1)
  let lo := max first t.filePageStart
  let hi := min last targetEnd
  if hi ≤ lo then none
  else if live t.mm then
    some ⟨t.mm, t.start + (lo - t.filePageStart) * PAGE_SIZE_BYTES, lo, hi - lo⟩
  else none

/-- The cursor loop of a walk: the first target after the cursor that has a part in the range is
visited, and becomes the cursor.  One turn per target is enough, since the cursor increases. -/
def walkFrom (live : Arc → Bool) (targets : List FileRmapTarget) (first last : ℕ) :
    ℕ → ℕ → List FileVisit
  | 0, _ => []
  | fuel + 1, after =>
    match (targets.filter fun t => t.seq > after).findSome? fun t =>
        (visit live first last t).map fun v => (t.seq, v) with
    | none => []
    | some (seq, v) => v :: walkFrom live targets first last fuel seq

def walkRange (live : Arc → Bool) (r : FileRmap) (first last : ℕ) : List FileVisit :=
  if last ≤ first then []
  else walkFrom live r.targets first last (r.targets.length + 1) 0

/-- The candidates of one file page. -/
def walkPage (live : Arc → Bool) (r : FileRmap) (pageIndex : ℕ) : List (Arc × ℕ) :=
  (walkRange live r pageIndex (min (pageIndex + 1) (2 ^ 64 - 1))).map fun v => (v.mm, v.va)

/-! ### What a walk reaches -/

/-- The targets carry increasing sequence numbers, which start above zero. -/
structure Ordered (targets : List FileRmapTarget) : Prop where
  increasing : targets.Pairwise fun t t' => t.seq < t'.seq
  pos : ∀ t ∈ targets, 0 < t.seq

/-- **The cursor loop visits every target after the cursor once, in order.** -/
theorem walkFrom_eq {targets : List FileRmapTarget}
    (ho : targets.Pairwise fun t t' => t.seq < t'.seq) {fuel after : ℕ}
    (hfuel : (targets.filter fun t => t.seq > after).length < fuel) :
    walkFrom live targets first last fuel after =
      (targets.filter fun t => t.seq > after).filterMap (visit live first last) := by
  induction fuel generalizing after with
  | zero => omega
  | succ fuel ih =>
  set later := targets.filter fun t => t.seq > after with hlater
  rw [walkFrom]
  cases hfind : later.findSome? fun t => (visit live first last t).map fun v => (t.seq, v) with
  | none =>
    refine (filterMap_eq_nil_iff.mpr fun t ht => ?_).symm
    have hnone := List.findSome?_eq_none_iff.mp hfind t ht
    simpa using hnone
  | some p =>
  obtain ⟨seq, v⟩ := p
  -- the target found, the targets passed over and those left
  obtain ⟨passed, t, rest, hsplit, ht, hpassed⟩ := List.findSome?_eq_some_iff.mp hfind
  obtain ⟨v', hv', heq⟩ := Option.map_eq_some_iff.mp ht
  cases heq
  have hord : later.Pairwise fun t t' => t.seq < t'.seq := ho.filter _
  rw [hsplit, pairwise_append] at hord
  obtain ⟨-, hrest, hbefore⟩ := hord
  have hafter : after < t.seq := by
    have hmem : t ∈ later := by rw [hsplit]; simp
    simpa using (mem_filter.mp hmem).2
  have hnext : (targets.filter fun t' => t'.seq > t.seq) = rest := by
    have hsub : (targets.filter fun t' => t'.seq > t.seq) =
        later.filter fun t' => t'.seq > t.seq := by
      rw [filter_filter]
      refine filter_congr fun t' _ => ?_
      by_cases h : t.seq < t'.seq
      · simp [hafter.trans h]
      · simp [h]
    rw [hsub, hsplit, filter_append, filter_cons]
    have h1 : (passed.filter fun t' => decide (t'.seq > t.seq)) = [] := by
      refine filter_eq_nil_iff.mpr fun t' ht' => ?_
      have := hbefore t' ht' t (by simp)
      simpa using this.le
    have h2 : (rest.filter fun t' => decide (t'.seq > t.seq)) = rest := by
      refine filter_eq_self.mpr fun t' ht' => ?_
      simpa using (pairwise_cons.mp hrest).1 t' ht'
    rw [h1, h2]
    simp
  have hlen : rest.length < fuel := by
    rw [hsplit, length_append, length_cons] at hfuel
    omega
  have hskip : passed.filterMap (visit live first last) = [] := by
    refine filterMap_eq_nil_iff.mpr fun t' ht' => ?_
    simpa using hpassed t' ht'
  simp only
  rw [ih (by rwa [hnext]), hnext, hsplit, filterMap_append, hskip, nil_append, filterMap_cons, hv']

theorem walkRange_eq {r : FileRmap} (ho : Ordered r.targets) (h : first < last) :
    walkRange live r first last = r.targets.filterMap (visit live first last) := by
  have hall : (r.targets.filter fun t => t.seq > 0) = r.targets :=
    filter_eq_self.mpr fun t ht => by simpa using ho.pos t ht
  rw [walkRange, if_neg (by omega), walkFrom_eq ho.increasing, hall]
  rw [hall]
  omega

/-- **A walk over a page reaches exactly the live targets that cover it.** -/
theorem mem_walkPage_iff {r : FileRmap} (ho : Ordered r.targets) (hp : p + 1 < 2 ^ 64) {mm : Arc} :
    (mm, va) ∈ walkPage live r p ↔ live mm = true ∧ ∃ t ∈ r.targets, t.mm = mm ∧
      t.filePageStart ≤ p ∧ p < t.filePageStart + (t.end - t.start) / PAGE_SIZE_BYTES ∧
      va = t.start + (p - t.filePageStart) * PAGE_SIZE_BYTES := by
  have hmin : min (p + 1) (2 ^ 64 - 1) = p + 1 := by omega
  have hvisit : ∀ t v, visit live p (p + 1) t = some v ↔
      (t.filePageStart ≤ p ∧ p < t.filePageStart + (t.end - t.start) / PAGE_SIZE_BYTES) ∧
        live t.mm = true ∧
        v = ⟨t.mm, t.start + (p - t.filePageStart) * PAGE_SIZE_BYTES, p, 1⟩ := by
    intro t v
    simp only [visit]
    by_cases hin : t.filePageStart ≤ p ∧ p < t.filePageStart + (t.end - t.start) / PAGE_SIZE_BYTES
    · have hhi : min (p + 1) (min (t.filePageStart + (t.end - t.start) / PAGE_SIZE_BYTES)
          (2 ^ 64 - 1)) = p + 1 := by omega
      rw [hhi]
      by_cases hl : live t.mm = true
      · simp [hl, hin, eq_comm]
      · simp [hl]
    · rw [if_pos (by omega)]
      simp [hin]
  rw [walkPage, hmin, walkRange_eq ho (by omega), mem_map]
  constructor
  · intro ⟨v, hv, heq⟩
    obtain ⟨t, ht, hv⟩ := mem_filterMap.mp hv
    obtain ⟨hin, hl, rfl⟩ := (hvisit t v).mp hv
    cases heq
    exact ⟨hl, t, ht, rfl, hin.1, hin.2, rfl⟩
  · intro ⟨hl, t, ht, hmm, h1, h2, hva⟩
    subst hmm
    exact ⟨_, mem_filterMap.mpr ⟨t, ht, (hvisit t _).mpr ⟨⟨h1, h2⟩, hl, rfl⟩⟩, by rw [hva]⟩

/-- Past the last page number nothing is visited. -/
theorem walkPage_eq_nil {r : FileRmap} (hp : 2 ^ 64 ≤ p + 1) : walkPage live r p = [] := by
  rw [walkPage, walkRange, if_pos (by omega)]
  rfl

end FileRmap

/-- The reverse maps of all address spaces. -/
structure Rmaps where
  /-- The chain of each `AnonVma`. -/
  chain : Arc → List RmapTarget
  /-- The identity of the next `AnonVma`. -/
  nextAnon : ℕ
  /-- The `FileRmap` of each mapped object. -/
  fileRmap : Arc → Option Arc
  file : Arc → FileRmap

namespace Rmaps

/-- No page has been mapped yet. -/
def empty : Rmaps := ⟨fun _ => [], 0, fun _ => none, fun _ => .new⟩

variable (r : Rmaps)

/-- `AnonVma::new`. -/
def newAnon : Arc × Rmaps :=
  (⟨r.nextAnon⟩,
    { r with nextAnon := r.nextAnon + 1, chain := Function.update r.chain ⟨r.nextAnon⟩ [] })

def attachAnon (av mm : Arc) (start «end» : ℕ) : Rmaps :=
  { r with chain := Function.update r.chain av (AnonVma.attach (r.chain av) mm start «end») }

def detachAnon (av mm : Arc) (start «end» : ℕ) : Rmaps :=
  { r with chain := Function.update r.chain av (AnonVma.detach (r.chain av) mm start «end») }

def attachFile (rmap mm : Arc) (start «end» filePageStart : ℕ) (mayWrite : Bool) : Rmaps :=
  let edges := (r.file rmap).attach mm start «end» filePageStart mayWrite
  { r with file := Function.update r.file rmap edges }

def detachFile (rmap mm : Arc) (start «end» : ℕ) : Rmaps :=
  { r with file := Function.update r.file rmap ((r.file rmap).detach mm start «end») }

/-- Attach the edges of a VMA over `[start, end)`: the family edge, and the file edge with the
page index of the VMA's offset. -/
def attachVma (mm : Arc) (v : Vma) (start «end» : ℕ) : Rmaps :=
  let r := match v.anonVma with
    | some av => r.attachAnon av mm start «end»
    | none => r
  match v.fileRmap, v.backing with
  | some rmap, .file _ off =>
    r.attachFile rmap mm start «end» (off.toNat / PAGE_SIZE_BYTES)
      (bitsContain v.mayProt VmaProt.WRITE)
  | _, _ => r

/-- Detach the family edge of a VMA. -/
def detachFamily (mm : Arc) (v : Vma) : Rmaps :=
  match v.anonVma with
  | some av => r.detachAnon av mm v.start.asU64 v.end.asU64
  | none => r

/-- Detach the file edges of a VMA. -/
def detachObject (mm : Arc) (v : Vma) : Rmaps :=
  match v.fileRmap, v.backing with
  | some rmap, .file _ _ => r.detachFile rmap mm v.start.asU64 v.end.asU64
  | _, _ => r

end Rmaps

end Oxide
